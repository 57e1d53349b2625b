import Teleproxy.ConnectionCounters

/-!
# Slots under live connections

A slot is given to another secret only after it has been released, and it is
released only while its counter is zero. The counter is never below the number
of connections in the slot, so a slot with a live connection keeps its key.
This needs connections to sit in slots that are in use. A header read while no
slot is in use breaks it: `compact_to_slot` is indexed before anything was
stored there.
-/
namespace Teleproxy.SlotStability
open SecretSlots SecretReload ReloadUniqueness WorkerProcess ConnectionCounters StepSystem

variable {cfg : Config} {w w' : Worker} {s t : Fin extSecretMaxSlots} {i : ℕ} {c : Conn}
  {e : Event} {x y z : Slot}

/-- The four ways a slot can change in a step: the same secret goes on in the
same state, a reload refreshes or drains it, a reload gives a free slot to a
new secret, or a sweep releases it while its counter is zero. -/
inductive SlotChange (pinned : ℕ) (s : Fin extSecretMaxSlots) (x y : Slot) : Prop
  | goesOn : Continues x y → SlotChange pinned s x y
  | reloaded : pinned ≤ s.val → x.state ≠ .free → y.state ≠ .free → y.key = x.key →
      y.connections = x.connections → y.bytesReceived = x.bytesReceived →
      y.bytesSent = x.bytesSent → SlotChange pinned s x y
  | placed : pinned ≤ s.val → x.state = .free → y.connections = 0 → SlotChange pinned s x y
  | released : pinned ≤ s.val → x.state = .draining → x.connections = 0 → y.state = .free →
      y.connections = 0 → SlotChange pinned s x y

theorem continues_modSlot {f : Slot → Slot} (hf : ∀ x, Continues x (f x)) (w : Worker)
    (s t : Fin extSecretMaxSlots) :
    Continues (w.table.slots t) ((w.modSlot s f).table.slots t) := by
  by_cases ht : t = s
  · subst ht
    simpa [Worker.modSlot] using hf (w.table.slots t)
  · simpa [Worker.modSlot,ht] using Continues.refl _

theorem continues_slotOfId {f : Slot → Slot} (hf : ∀ x, Continues x (f x)) (w : Worker) (sid : ℤ)
    (t : Fin extSecretMaxSlots) :
    Continues (w.table.slots t)
      ((match slotOfId sid with
        | some s => w.modSlot s f
        | none => w).table.slots t) := by
  cases slotOfId sid with
  | none => exact Continues.refl _
  | some s => exact continues_modSlot hf w s t

theorem reload_slotChange (preciseNow : ℚ) (confs : List SecretConf) (T : SlotTable)
    (s : Fin extSecretMaxSlots) :
    SlotChange T.pinned s (T.slots s) ((tcpRpcsReloadExtSecrets preciseNow confs T).2.slots s) := by
  rcases Nat.lt_or_ge s.val T.pinned with hp | hp
  · rw [reload_pinned_slot preciseNow confs T hp]
    exact .goesOn (Continues.refl _)
  · rcases reload_slot_cases preciseNow confs T s with ⟨c,x,-,hf,hx⟩ | ⟨-,h⟩
    · exact .placed hp hf (by rw [hx]; rfl)
    · rcases h with ⟨c,hc,hx⟩ | ⟨-,-,ha,hx⟩ | ⟨-,-,hx⟩
      · have hused := (slotOfKey_some (namedBy_some hc).2).2.1
        refine .reloaded hp hused ?_ ?_ ?_ ?_ ?_ <;> rw [hx]
        · exact fun h => by cases h
        all_goals rfl
      · refine .reloaded hp (by rw [ha]; decide) ?_ ?_ ?_ ?_ ?_ <;> rw [hx]
        exact fun h => by cases h
      · rw [hx]
        exact .goesOn (Continues.refl _)

/-- A reload resets the counter of a slot only when it was free. -/
theorem reload_connections (preciseNow : ℚ) (confs : List SecretConf) (T : SlotTable)
    (s : Fin extSecretMaxSlots) :
    ((tcpRpcsReloadExtSecrets preciseNow confs T).2.slots s).connections =
        (T.slots s).connections ∨
      (T.slots s).state = .free ∧
        ((tcpRpcsReloadExtSecrets preciseNow confs T).2.slots s).connections = 0 := by
  rcases reload_slot_cases preciseNow confs T s with ⟨c,x,-,hf,hx⟩ | ⟨-,h⟩
  · exact .inr ⟨hf,by rw [hx]; rfl⟩
  · refine .inl ?_
    rcases h with ⟨c,-,hx⟩ | ⟨-,-,-,hx⟩ | ⟨-,-,hx⟩ <;> rw [hx]
    rfl

theorem slot_step (hs : AllSane w) (e : Event) (s : Fin extSecretMaxSlots) :
    SlotChange w.table.pinned s (w.table.slots s) ((step cfg w e).table.slots s) := by
  have heff : Effect cfg w e (step cfg w e) := step_effect hs e
  generalize hw' : step cfg w e = w' at heff
  cases heff with
  | quiet hq => exact .goesOn (hq.slots s)
  | attach hc ha hout hq =>
      refine .goesOn (Continues.trans ?_ (hq.slots s))
      exact continues_slotOfId (fun x => (continues_attachSlot _ _ _ x).1) (w.modConn _ _) _ s
  | hello hc hout => exact .goesOn (Continues.refl _)
  | close hc herr hf ht hq =>
      refine .goesOn (Continues.trans ?_ (hq.slots s))
      unfold releaseClient
      split_ifs
      · exact continues_slotOfId (fun x => (continues_detachSlot _ x).1)
          {w.modConn _ Conn.fail with
            directDcConnectionsActive := w.directDcConnectionsActive-1} _ s
      · exact Continues.refl _
  | notified hc hq =>
      exact .goesOn
        (continues_slotOfId (fun x => (continues_detachSlot _ x).1) (w.modConn _ _) _ s)
  | reload =>
      rw [← hw']
      exact reload_slotChange w.preciseNow _ w.table s
  | sweep hsw =>
      rcases hsw.slots s with h | ⟨hp,hd,hz,hf,hz'⟩
      · exact .goesOn h.1
      · exact .released hp hd hz hf hz'

theorem pinned_step (hs : AllSane w) (e : Event) :
    (step cfg w e).table.pinned = w.table.pinned := by
  have heff : Effect cfg w e (step cfg w e) := step_effect hs e
  generalize hw' : step cfg w e = w' at heff
  have hslot : ∀ (w : Worker) (sid : ℤ) (f : Slot → Slot),
      (match slotOfId sid with
        | some t => w.modSlot t f
        | none => w).table.pinned = w.table.pinned := by
    intro w sid f
    cases slotOfId sid <;> rfl
  cases heff with
  | quiet hq => exact hq.pinned
  | attach hc ha hout hq =>
      rw [hq.pinned]
      exact hslot (w.modConn _ _) _ _
  | hello hc hout => rfl
  | close hc herr hf ht hq =>
      rw [hq.pinned]
      unfold releaseClient
      split_ifs
      · exact hslot _ _ _
      · rfl
  | notified hc hq => exact hslot (w.modConn _ _) _ _
  | reload =>
      rw [← hw']
      exact (reload_table w.preciseNow _ w.table).2
  | sweep hsw => exact hsw.pinned

/-- Either some slot is in use when the header is read, or the header carries
no tag without a key, or what lies in `compact_to_slot[0]` names no slot. -/
def SlotKnown (w : Worker) (e : Event) : Prop :=
  ∀ i h attempt b, e = .obfs2Header i h attempt b →
    compactToSlot w.table ≠ [] ∨ h.decrypt none = none ∨ slotOfId (h.uninitialized+1) = none

structure Grounded (w : Worker) : Prop where
  sane : AllSane w
  covered : ∀ s, 0 ≤ surplus s w
  used : ∀ s, 0 < holders s w → (w.table.slots s).state ≠ .free

theorem accepted_used {h : Header} {secretId : ℤ} {tag : Tag} {dc : ℤ} {attempt : Option ℕ}
    {b : Backend} (hk : SlotKnown w (.obfs2Header i h attempt b))
    (hout : headerOutcome cfg w c h = .accepted secretId tag dc)
    (hid : secretId+1 = (s.val : ℤ)+1) : (w.table.slots s).state ≠ .free := by
  rcases (headerOutcome_accepted hout).2 with ⟨t,ht,hst⟩ | ⟨hnil,hdec,hjunk⟩
  · have hts : t = s := by
      ext
      omega
    exact hts ▸ (mem_compactToSlot.mp ht).2
  · exfalso
    rcases hk i h attempt b rfl with hne | hnone | hnone
    · exact hne hnil
    · rw [hnone] at hdec
      cases hdec
    · rw [← hjunk] at hnone
      exact slotOfId_eq_none.mp hnone s hid

/-- A slot gets its first connection only while it is in use. -/
theorem holders_step (hs : AllSane w) (hk : SlotKnown w e)
    (hpos : 0 < holders s (step cfg w e)) :
    0 < holders s w ∨ (w.table.slots s).state ≠ .free := by
  have heff : Effect cfg w e (step cfg w e) := step_effect hs e
  generalize hw' : step cfg w e = w' at heff hpos
  cases heff with
  | quiet hq => exact .inl (holders_evolves hq.conns s ▸ hpos)
  | attach hc ha hout hq =>
      rw [holders_evolves hq.conns s,holders_attach hc (hs _ _ hc) ha] at hpos
      split_ifs at hpos with hid
      · exact .inr (accepted_used hk hout hid)
      · exact .inl hpos
  | hello hc hout => exact .inl (holders_hello hc s ▸ hpos)
  | close hc herr hf ht hq =>
      rw [holders_evolves hq.conns s] at hpos
      have h := holders_close hc (hs _ _ hc) hf ht s
      exact .inl (by omega)
  | notified hc hq =>
      have h := holders_notified hc (hs _ _ hc) hq s
      exact .inl (by omega)
  | reload => exact .inl hpos
  | sweep hsw => exact .inl (holders_evolves hsw.conns s ▸ hpos)

theorem surplus_nonneg_step (hg : Grounded w) (e : Event) (s : Fin extSecretMaxSlots) :
    0 ≤ surplus s (step cfg w e) := by
  by_cases htraffic : isTraffic e
  · by_cases hun : ClosesUncounted w e s
    · rw [surplus_step_uncounted hg.sane hun]
      have := hg.covered s
      omega
    · rw [surplus_step hg.sane htraffic hun]
      exact hg.covered s
  · have hcov := hg.covered s
    cases e with
    | reload confs timeout =>
        have hhold : holders s (step cfg w (.reload confs timeout)) = holders s w := rfl
        rw [surplus,hhold]
        rcases reload_connections w.preciseNow confs w.table s with hsame | ⟨hf,hz⟩
        · have hconn : ((step cfg w (.reload confs timeout)).table.slots s).connections =
              (w.table.slots s).connections := hsame
          rw [hconn]
          exact hcov
        · have hconn : ((step cfg w (.reload confs timeout)).table.slots s).connections = 0 := hz
          have hzero : ¬ 0 < holders s w := fun hpos => hg.used s hpos hf
          omega
    | sweep =>
        have hsw := swept_drainSweep w
        have hhold : holders s (step cfg w .sweep) = holders s w := holders_evolves hsw.conns s
        rw [surplus,hhold]
        rcases hsw.slots s with ⟨-,h⟩ | ⟨-,-,hz,-,hz'⟩
        · have hconn : ((step cfg w .sweep).table.slots s).connections =
              (w.table.slots s).connections := h
          rw [hconn]
          exact hcov
        · have hz₁ : ((step cfg w .sweep).table.slots s).connections = 0 := hz'
          rw [surplus,hz] at hcov
          rw [hz₁]
          exact hcov
    | _ => exact (htraffic rfl).elim

theorem grounded_step (hg : Grounded w) (hk : SlotKnown w e) : Grounded (step cfg w e) := by
  refine ⟨allSane_step hg.sane e,surplus_nonneg_step hg e,fun s hpos => ?_⟩
  have hused : (w.table.slots s).state ≠ .free := by
    rcases holders_step hg.sane hk hpos with h | h
    · exact hg.used s h
    · exact h
  have hchange : SlotChange w.table.pinned s (w.table.slots s)
      ((step cfg w e).table.slots s) := slot_step hg.sane e s
  cases hchange with
  | goesOn h => exact h.state ▸ hused
  | reloaded _ _ h => exact h
  | placed _ h => exact (hused h).elim
  | released _ _ hz hf hz' =>
      have hcov : 0 ≤ surplus s (step cfg w e) := surplus_nonneg_step hg e s
      rw [surplus,hz'] at hcov
      omega

/-- Connection `i` is counted in slot `s`. -/
def Attached (i : ℕ) (s : Fin extSecretMaxSlots) (w : Worker) : Prop :=
  ∃ c, w.conns.get i = some c ∧ c.holds s = true

/-- The close handler of connection `i` has not run. -/
def Open (i : ℕ) (w : Worker) : Prop := ∃ c, w.conns.get i = some c ∧ c.live = true

theorem Attached.holders_pos (h : Attached i s w) : 0 < holders s w := by
  obtain ⟨c,hc,hh⟩ := h
  exact Store.count_pos hc hh

theorem Attached.evolves (h : Attached i s w)
    (hev : Store.Evolves Conn.Quiet Conn.Fresh w.conns w'.conns) : Attached i s w' := by
  obtain ⟨c,hc,hh⟩ := h
  obtain ⟨d,hd,hq⟩ := hev.get hc
  exact ⟨d,hd,(hq.holds s).trans hh⟩

theorem Attached.modConn_other {f : Conn → Conn} {j : ℕ} (h : Attached i s w) (hj : i ≠ j) :
    Attached i s (w.modConn j f) := by
  obtain ⟨c,hc,hh⟩ := h
  exact ⟨c,by simpa [Worker.modConn,hj] using hc,hh⟩

theorem Attached.of_conns (h : Attached i s w) (hw : w'.conns = w.conns) : Attached i s w' := by
  obtain ⟨c,hc,hh⟩ := h
  exact ⟨c,hw ▸ hc,hh⟩

/-- A connection leaves its slot only through its close handler. -/
theorem attached_step (hs : AllSane w) (ha : Attached i s w) (ho : Open i (step cfg w e)) :
    Attached i s (step cfg w e) := by
  have heff : Effect cfg w e (step cfg w e) := step_effect hs e
  generalize hw' : step cfg w e = w' at heff ho
  obtain ⟨c,hc,hh⟩ := ha
  have ha : Attached i s w := ⟨c,hc,hh⟩
  cases heff with
  | quiet hq => exact ha.evolves hq.conns
  | @attach j d _ _ _ _ _ _ _ hd hawait hout hq =>
      refine Attached.evolves ?_ hq.conns
      refine Attached.of_conns (ha.modConn_other ?_) (attachConnection_conns _ _ _ _ _ _)
      rintro rfl
      rw [hc] at hd
      cases hd
      have hid := (hs i c hc).handshake (Conn.awaitsHeader_iff.mp hawait).2.2.2
      simp only [Conn.holds,hid,Bool.and_eq_true,beq_iff_eq] at hh
      omega
  | @hello j d _ _ _ hd hout =>
      by_cases hj : i = j
      · subst hj
        exact ⟨{c with isTls := true},by simp [Worker.modConn,hc],hh⟩
      · exact ha.modConn_other hj
  | @close j d _ hd herr hf ht hq =>
      refine Attached.evolves (Attached.of_conns (ha.modConn_other ?_) (releaseClient_conns _ _))
        hq.conns
      rintro rfl
      rw [hc] at hd
      cases hd
      have hget : (releaseClient c (w.modConn i Conn.fail)).conns.get i = some c.fail := by
        rw [releaseClient_conns]
        simp [Worker.modConn,hc]
      obtain ⟨d,hd,hdq⟩ := hq.conns.get hget
      obtain ⟨d',hd',hlive⟩ := ho
      rw [hd] at hd'
      cases hd'
      have hqueued : c.closeQueued = true := hdq.live hlive
      rw [((hs i c hc).queued hqueued).1] at hf
      cases hf
  | @notified j d hd hq =>
      refine Attached.of_conns (ha.modConn_other ?_) (mtprotoExtRpcClose_conns _ _)
      rintro rfl
      rw [hc] at hd
      cases hd
      obtain ⟨d',hd',hlive⟩ := ho
      rw [mtprotoExtRpcClose_conns] at hd'
      simp only [Worker.modConn,Store.get_modify_same,hc,Option.map_some,Option.some.injEq] at hd'
      subst hd'
      simp [Conn.live,Conn.notify,((hs i c hc).queued hq).1] at hlive
  | reload => exact ⟨c,hc,hh⟩
  | sweep hsw => exact ha.evolves hsw.conns

/-- What must not happen to a slot while a connection is in it. -/
structure KeepsSecret (x y : Slot) : Prop where
  used : y.state ≠ .free
  key : y.key = x.key
  received : x.bytesReceived ≤ y.bytesReceived
  sent : x.bytesSent ≤ y.bytesSent

theorem KeepsSecret.trans (h : KeepsSecret x y) (h' : KeepsSecret y z) : KeepsSecret x z :=
  ⟨h'.used,h'.key.trans h.key,h.received.trans h'.received,h.sent.trans h'.sent⟩

theorem keepsSecret_step (hg : Grounded w) (ha : Attached i s w) (e : Event) :
    KeepsSecret (w.table.slots s) ((step cfg w e).table.slots s) := by
  have hused := hg.used s ha.holders_pos
  have hchange : SlotChange w.table.pinned s (w.table.slots s)
      ((step cfg w e).table.slots s) := slot_step hg.sane e s
  cases hchange with
  | goesOn h => exact ⟨h.state ▸ hused,h.key,h.received,h.sent⟩
  | reloaded _ _ hf hk _ hr hse => exact ⟨hf,hk,hr.ge,hse.ge⟩
  | placed _ hf => exact (hused hf).elim
  | released _ _ hz =>
      have hcov := hg.covered s
      have hpos := ha.holders_pos
      rw [surplus,hz] at hcov
      omega

theorem keepsSecret_run {es : List Event} (hg : Grounded w) (ha : Attached i s w)
    (hm : Meets (step cfg) SlotKnown w es) (ho : Throughout (step cfg) (Open i) w es) :
    KeepsSecret (w.table.slots s) ((run (step cfg) w es).table.slots s) := by
  induction es generalizing w with
  | nil => exact ⟨hg.used s ha.holders_pos,rfl,le_refl _,le_refl _⟩
  | cons e es ih =>
      exact (keepsSecret_step hg ha e).trans
        (ih (grounded_step hg hm.1) (attached_step hg.sane ha ho.2.head) hm.2 ho.2)

theorem pinned_slot_step (cfg : Config) (hs : AllSane w) (hp : s.val < w.table.pinned) (e : Event) :
    ((step cfg w e).table.slots s).key = (w.table.slots s).key ∧
      ((step cfg w e).table.slots s).state = (w.table.slots s).state := by
  have hchange : SlotChange w.table.pinned s (w.table.slots s)
      ((step cfg w e).table.slots s) := slot_step hs e s
  cases hchange with
  | goesOn h => exact ⟨h.key,h.state⟩
  | reloaded h => omega
  | placed h => omega
  | released h => omega

theorem pinned_slot_run {es : List Event} (hs : AllSane w) (hp : s.val < w.table.pinned) :
    ((run (step cfg) w es).table.slots s).key = (w.table.slots s).key ∧
      ((run (step cfg) w es).table.slots s).state = (w.table.slots s).state := by
  induction es generalizing w with
  | nil => exact ⟨rfl,rfl⟩
  | cons e es ih =>
      have hp' : s.val < (step cfg w e).table.pinned := by rwa [pinned_step hs e]
      have h := pinned_slot_step cfg hs hp e
      have h' := ih (allSane_step hs e) hp'
      exact ⟨h'.1.trans h.1,h'.2.trans h.2⟩

theorem pinnedTable_connections (cs : List SecretConf) (s : Fin extSecretMaxSlots) :
    ((pinnedTable cs).slots s).connections = 0 := by
  have hset : ∀ (T : SlotTable) (c : SecretConf), (∀ s, (T.slots s).connections = 0) →
      ∀ s, ((tcpRpcsSetExtSecret T c).slots s).connections = 0 := by
    intro T c hT s
    unfold tcpRpcsSetExtSecret
    split_ifs with hlt
    · by_cases hs : s = ⟨T.cnt,hlt.trans (by decide)⟩
      · subst hs
        simpa [ipTrackClearSlot,configureSlot] using hT _
      · simpa [hs] using hT s
    · exact hT s
  have hfold : ∀ (T : SlotTable), (∀ s, (T.slots s).connections = 0) →
      ∀ s, ((cs.foldl tcpRpcsSetExtSecret T).slots s).connections = 0 := by
    induction cs with
    | nil => exact fun T hT => hT
    | cons c cs ih => exact fun T hT => ih _ (hset T c hT)
  exact hfold emptyTable (fun _ => rfl) s

theorem start_grounded (cs : List SecretConf) : Grounded (start (pinnedTable cs)) := by
  refine ⟨allSane_start _,fun s => ?_,fun s hpos => (Nat.lt_irrefl 0 hpos).elim⟩
  have hconn : ((start (pinnedTable cs)).table.slots s).connections = 0 :=
    pinnedTable_connections cs s
  rw [surplus,hconn]
  exact le_refl _

/-- Take any run of the whole worker in which every header is read with a known
slot, and any two moments of it. While a connection that is in a slot at the
first has not been closed, the slot is in use, has the same key and at least as
many bytes. Pinned slots keep key and state throughout. -/
theorem slot_stable_while_attached (cfg : Config) (cs : List SecretConf) (es es' : List Event)
    (hm : Meets (step cfg) SlotKnown (start (pinnedTable cs)) (es++es')) :
    (∀ i s, Attached i s (run (step cfg) (start (pinnedTable cs)) es) →
      Throughout (step cfg) (Open i) (run (step cfg) (start (pinnedTable cs)) es) es' →
      KeepsSecret ((run (step cfg) (start (pinnedTable cs)) es).table.slots s)
        ((run (step cfg) (start (pinnedTable cs)) (es++es')).table.slots s)) ∧
    ∀ s, s.val < (run (step cfg) (start (pinnedTable cs)) es).table.pinned →
      ((run (step cfg) (start (pinnedTable cs)) (es++es')).table.slots s).key =
          ((run (step cfg) (start (pinnedTable cs)) es).table.slots s).key ∧
        ((run (step cfg) (start (pinnedTable cs)) (es++es')).table.slots s).state =
          ((run (step cfg) (start (pinnedTable cs)) es).table.slots s).state := by
  rw [meets_append] at hm
  have hg : Grounded (run (step cfg) (start (pinnedTable cs)) es) :=
    run_invariant (fun _ _ => grounded_step) (start_grounded cs) hm.1
  rw [run_append]
  exact ⟨fun i s ha ho => keepsSecret_run hg ha hm.2 ho,fun s hp => pinned_slot_run hg.sane hp⟩

/-- A client attached to the only secret of the file, then a reload without it:
the slot drains under the client. -/
theorem slot_stable_one_client :
    Meets (step {}) SlotKnown (start (pinnedTable []))
        ([.reload [firstSecret] 0,.accept ⟨1,zeroIpv6⟩,
          .obfs2Header 0 anyHeader (some 0) .connected]++[.reload [] 0,.sweep]) ∧
      KeepsSecret
        ((run (step {}) (start (pinnedTable [])) [.reload [firstSecret] 0,.accept ⟨1,zeroIpv6⟩,
          .obfs2Header 0 anyHeader (some 0) .connected]).table.slots 0)
        ((run (step {}) (start (pinnedTable []))
          ([.reload [firstSecret] 0,.accept ⟨1,zeroIpv6⟩,
            .obfs2Header 0 anyHeader (some 0) .connected]++
              [.reload [] 0,.sweep])).table.slots 0) := by
  have hm : Meets (step {}) SlotKnown (start (pinnedTable []))
      ([.reload [firstSecret] 0,.accept ⟨1,zeroIpv6⟩,
        .obfs2Header 0 anyHeader (some 0) .connected]++[.reload [] 0,.sweep]) := by
    refine ⟨?_,?_,?_,?_,?_,trivial⟩
    · intro i h attempt b he
      cases he
    · intro i h attempt b he
      cases he
    · exact fun _ _ _ _ _ => .inl (by decide)
    · intro i h attempt b he
      cases he
    · intro i h attempt b he
      cases he
  refine ⟨hm,(slot_stable_while_attached {} [] _ _ hm).1 0 0 ?_ ?_⟩
  · exact ⟨_,rfl,by decide⟩
  · exact ⟨⟨_,rfl,by decide⟩,⟨_,rfl,by decide⟩,⟨_,rfl,by decide⟩⟩

/-- A worker without secrets reads a header: the connection is put into the
slot whose number happened to lie in memory, and that slot is free. -/
theorem attached_to_free_slot :
    Attached 0 3 (run (step {}) (start (pinnedTable []))
        [.accept ⟨1,zeroIpv6⟩,
          .obfs2Header 0 {anyHeader with uninitialized := 3} (some 0) .connected]) ∧
      ((run (step {}) (start (pinnedTable []))
        [.accept ⟨1,zeroIpv6⟩,
          .obfs2Header 0 {anyHeader with uninitialized := 3} (some 0)
            .connected]).table.slots 3).state = .free :=
  ⟨⟨_,rfl,by decide⟩,by decide⟩

end Teleproxy.SlotStability
