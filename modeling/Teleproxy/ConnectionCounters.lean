import Teleproxy.WorkerSteps

/-!
# The connection counter of a slot

`per_secret_connections` goes up at one place and down at two. One of the two
close handlers, `tcp_direct_close`, gives the count back only while the gauge
`direct_dc_connections_active` is positive. That gauge counts links to data
centres, not clients: a client that never got one still lowers it. So the
counter of a slot can stay above the number of connections in it, but never
below, and it is exact as long as no client is closed with the gauge at zero.
-/
namespace Teleproxy.ConnectionCounters
open SecretSlots SecretReload ReloadUniqueness WorkerProcess StepSystem

variable {cfg : Config} {w w' : Worker} {s : Fin extSecretMaxSlots} {i : ℕ} {c : Conn} {e : Event}

/-- The number of live connections whose secret id is that of slot `s`. -/
def holders (s : Fin extSecretMaxSlots) (w : Worker) : ℕ := w.conns.count (Conn.holds s)

def CountersExact (w : Worker) : Prop := ∀ s, (w.table.slots s).connections = holders s w

/-- By how much a counter exceeds the connections in its slot. -/
def surplus (s : Fin extSecretMaxSlots) (w : Worker) : ℤ :=
  (w.table.slots s).connections-holders s w

theorem countersExact_iff : CountersExact w ↔ ∀ s, surplus s w = 0 :=
  forall_congr' fun _ => Int.sub_eq_zero.symm

/-- The close of a client of slot `s` that `tcp_direct_close` does not count. -/
def ClosesUncounted (w : Worker) (e : Event) (s : Fin extSecretMaxSlots) : Prop :=
  ∃ i c, e = .abort i ∧ w.conns.get i = some c ∧ c.error = true ∧ c.failed = false ∧
    c.type.isDirectClient = true ∧ c.extraInt2 = s.val+1 ∧ w.directDcConnectionsActive ≤ 0

theorem holders_evolves (h : Store.Evolves Conn.Quiet Conn.Fresh w.conns w'.conns)
    (s : Fin extSecretMaxSlots) : holders s w' = holders s w :=
  h.count (fun _ _ h => h.holds s) fun _ h => h.holds s

theorem surplus_quiet (h : Quiet w w') (s : Fin extSecretMaxSlots) : surplus s w' = surplus s w := by
  rw [surplus,surplus,h.connections s,holders_evolves h.conns s]

theorem modSlot_connections (w : Worker) (t : Fin extSecretMaxSlots) (f : Slot → Slot) (d : ℤ)
    (hf : ∀ x, (f x).connections = x.connections+d) (s : Fin extSecretMaxSlots) :
    ((w.modSlot t f).table.slots s).connections =
      (w.table.slots s).connections + if t = s then d else 0 := by
  by_cases ht : t = s
  · subst ht
    simp [Worker.modSlot,hf]
  · have hs : s ≠ t := Ne.symm ht
    simp [Worker.modSlot,hs,ht]

/-- A step of the counter for the slot of a secret id, if there is one. -/
theorem slotOfId_connections (w : Worker) (sid : ℤ) (f : Slot → Slot) (d : ℤ)
    (hf : ∀ x, (f x).connections = x.connections+d) (s : Fin extSecretMaxSlots) :
    ((match slotOfId sid with
      | some t => w.modSlot t f
      | none => w).table.slots s).connections =
      (w.table.slots s).connections + if sid = s.val+1 then d else 0 := by
  cases ht : slotOfId sid with
  | none => simp [slotOfId_eq_none.mp ht s]
  | some t =>
      have hiff : (t = s) ↔ sid = s.val+1 := by
        rw [← slotOfId_eq_some,ht,Option.some.injEq]
      dsimp only
      rw [modSlot_connections w t f d hf s]
      simp only [hiff]

/-- A client is in no slot before its header is read. -/
theorem holders_attach (hc : w.conns.get i = some c) (hs : c.Sane) (ha : c.awaitsHeader)
    (secretId : ℤ) (tag : Tag) (dc : ℤ) (s : Fin extSecretMaxSlots) :
    holders s (attachConnection cfg i c secretId tag dc w) =
      holders s w + if secretId+1 = (s.val : ℤ)+1 then 1 else 0 := by
  obtain ⟨he,-,ht,hn⟩ := Conn.awaitsHeader_iff.mp ha
  have hcount := Store.count_modify hc (Conn.holds s) (Conn.attach secretId tag dc)
  have hbefore : c.holds s = false := by
    have hne : (c.extraInt2 == (s.val : ℤ)+1) = false := by
      rw [hs.handshake hn]
      exact beq_eq_false_iff_ne.mpr (by omega)
    simp [Conn.holds,hne]
  have hafter : (c.attach secretId tag dc).holds s = decide (secretId+1 = (s.val : ℤ)+1) := by
    have hext := (hs.attach ht secretId tag dc).2
    have hlive : (c.attach secretId tag dc).live = true := by
      simp [Conn.live,Conn.attach,Conn.startCrypto,(hs.open he).1]
    simp only [Conn.holds,ConnType.carriesSecretId,hext,hlive,Bool.true_or,Bool.true_and]
    rfl
  rw [holders,attachConnection_conns]
  simpa [hbefore,hafter,holders,Worker.modConn] using hcount

theorem surplus_attach (hc : w.conns.get i = some c) (hs : c.Sane) (ha : c.awaitsHeader)
    (secretId : ℤ) (tag : Tag) (dc : ℤ) (s : Fin extSecretMaxSlots) :
    surplus s (attachConnection cfg i c secretId tag dc w) = surplus s w := by
  have hslot : ((attachConnection cfg i c secretId tag dc w).table.slots s).connections =
      (w.table.slots s).connections + if secretId+1 = (s.val : ℤ)+1 then 1 else 0 :=
    slotOfId_connections (w.modConn i (Conn.attach secretId tag dc)) (secretId+1)
      (attachSlot cfg.workers w.preciseNow c.addr) 1 (fun x => (continues_attachSlot _ _ _ x).2) s
  rw [surplus,surplus,hslot,holders_attach hc hs ha]
  split_ifs <;> omega

/-- A client leaves its slot when its close handler has run. -/
theorem holders_close (hc : w.conns.get i = some c) (hs : c.Sane) (hf : c.failed = false)
    (ht : c.type.isDirectClient) (s : Fin extSecretMaxSlots) :
    holders s (releaseClient c (w.modConn i Conn.fail)) +
      (if c.extraInt2 = (s.val : ℤ)+1 then 1 else 0) = holders s w := by
  have hcount := Store.count_modify hc (Conn.holds s) Conn.fail
  have hq : c.closeQueued = false := by
    cases hq : c.closeQueued with
    | false => rfl
    | true => rw [(hs.queued hq).1] at hf; cases hf
  have hbefore : c.holds s = decide (c.extraInt2 = (s.val : ℤ)+1) := by
    simp only [Conn.holds,ConnType.carriesSecretId,ht,Conn.live,hf,Bool.or_true,Bool.not_false,
      Bool.true_or,Bool.true_and]
    rfl
  have hafter : (Conn.fail c).holds s = false := by simp [Conn.holds,Conn.live,Conn.fail,hq]
  rw [holders,releaseClient_conns]
  simpa [hbefore,hafter,holders,Worker.modConn] using hcount

theorem surplus_close (hc : w.conns.get i = some c) (hs : c.Sane) (hf : c.failed = false)
    (ht : c.type.isDirectClient) (s : Fin extSecretMaxSlots) :
    surplus s (releaseClient c (w.modConn i Conn.fail)) =
      surplus s w +
        if c.extraInt2 = s.val+1 ∧ w.directDcConnectionsActive ≤ 0 then 1 else 0 := by
  have hhold := holders_close hc hs hf ht s
  have hslot : ((releaseClient c (w.modConn i Conn.fail)).table.slots s).connections =
      (w.table.slots s).connections +
        if 0 < w.directDcConnectionsActive then (if c.extraInt2 = (s.val : ℤ)+1 then -1 else 0)
        else 0 := by
    unfold releaseClient
    by_cases hg : 0 < w.directDcConnectionsActive
    · rw [if_pos ⟨ht,hg⟩,if_pos hg]
      exact slotOfId_connections _ _ _ (-1) (fun x => (continues_detachSlot c.addr x).2) s
    · have hg' : ¬ (c.type.isDirectClient = true ∧
          (w.modConn i Conn.fail).directDcConnectionsActive > 0) := fun h => hg h.2
      rw [if_neg hg',if_neg hg,Int.add_zero]
      rfl
  rw [surplus,surplus,hslot]
  split_ifs at hhold ⊢ <;> omega

theorem holders_notified (hc : w.conns.get i = some c) (hs : c.Sane) (hq : c.closeQueued)
    (s : Fin extSecretMaxSlots) :
    holders s (mtprotoExtRpcClose c (w.modConn i Conn.notify)) +
      (if c.extraInt2 = (s.val : ℤ)+1 then 1 else 0) = holders s w := by
  obtain ⟨hf,ht⟩ := hs.queued hq
  have hcount := Store.count_modify hc (Conn.holds s) Conn.notify
  have hbefore : c.holds s = decide (c.extraInt2 = (s.val : ℤ)+1) := by
    simp only [Conn.holds,ConnType.carriesSecretId,ht,Conn.live,hq,Bool.or_true,Bool.true_or,
      Bool.true_and]
    rfl
  have hafter : (Conn.notify c).holds s = false := by
    simp [Conn.holds,Conn.live,Conn.notify,hf]
  rw [holders,mtprotoExtRpcClose_conns]
  simpa [hbefore,hafter,holders,Worker.modConn] using hcount

theorem surplus_notified (hc : w.conns.get i = some c) (hs : c.Sane) (hq : c.closeQueued)
    (s : Fin extSecretMaxSlots) :
    surplus s (mtprotoExtRpcClose c (w.modConn i Conn.notify)) = surplus s w := by
  have hhold := holders_notified hc hs hq s
  have hslot : ((mtprotoExtRpcClose c (w.modConn i Conn.notify)).table.slots s).connections =
      (w.table.slots s).connections + if c.extraInt2 = (s.val : ℤ)+1 then -1 else 0 :=
    slotOfId_connections _ _ _ (-1) (fun x => (continues_detachSlot c.addr x).2) s
  rw [surplus,surplus,hslot]
  split_ifs at hhold ⊢ <;> omega

theorem holders_hello (hc : w.conns.get i = some c) (s : Fin extSecretMaxSlots) :
    holders s (w.modConn i fun c => {c with isTls := true}) = holders s w :=
  Nat.add_right_cancel (Store.count_modify hc (Conn.holds s) fun c => {c with isTls := true})

/-- Everything but the configuration: no reload and no sweep. -/
def isTraffic : Event → Bool
  | .reload .. | .sweep => false
  | _ => true

abbrev Traffic := {e : Event // isTraffic e = true}

def trafficStep (cfg : Config) (w : Worker) (e : Traffic) : Worker := step cfg w e.val

theorem surplus_step (hs : AllSane w) (he : isTraffic e) (h : ¬ ClosesUncounted w e s) :
    surplus s (step cfg w e) = surplus s w := by
  have heff : Effect cfg w e (step cfg w e) := step_effect hs e
  generalize step cfg w e = w' at heff
  cases heff with
  | quiet hq => exact surplus_quiet hq s
  | attach hc ha hout hq =>
      rw [surplus_quiet hq s]
      exact surplus_attach hc (hs _ _ hc) ha _ _ _ s
  | hello hc hout =>
      rw [surplus,surplus,holders_hello hc s]
      rfl
  | close hc herr hf ht hq =>
      rw [surplus_quiet hq s,surplus_close hc (hs _ _ hc) hf ht s,if_neg,Int.add_zero]
      exact fun hun => h ⟨_,_,rfl,hc,herr,hf,ht,hun.1,hun.2⟩
  | notified hc hq => exact surplus_notified hc (hs _ _ hc) hq s
  | reload => cases he
  | sweep _ => cases he

theorem surplus_step_uncounted (hs : AllSane w) (h : ClosesUncounted w e s) :
    surplus s (step cfg w e) = surplus s w+1 := by
  obtain ⟨i,c,rfl,hc,herr,hf,ht,hid,hg⟩ := h
  have hclose : step cfg w (.abort i) = tcpDirectClose i c 0 (w.modConn i Conn.fail) := by
    simp only [step,Worker.withConn,hc,jsAbort,herr,hf,closeConnection]
    cases htype : c.type with
    | directClient => rfl
    | directClientDrs => rfl
    | extServer => rw [htype] at ht; cases ht
    | extServerDrs => rw [htype] at ht; cases ht
    | directDc => rw [htype] at ht; cases ht
    | proxyPass => rw [htype] at ht; cases ht
  rw [hclose,surplus_quiet (quiet_directClose_rest i c 0 _ (retryClient_directClient ht _)) s,
    surplus_close hc (hs _ _ hc) hf ht s,if_pos ⟨hid,hg⟩]

/-- Whenever a client that holds a slot is closed, some link to a data centre
is still counted. -/
def GaugePositive (w : Worker) (e : Traffic) : Prop :=
  ∀ i c, e.val = .abort i → w.conns.get i = some c → c.error = true → c.failed = false →
    c.type.isDirectClient = true → (slotOfId c.extraInt2).isSome = true →
    0 < w.directDcConnectionsActive

theorem gaugePositive_iff {e : Traffic} :
    GaugePositive w e ↔ ∀ s, ¬ ClosesUncounted w e.val s := by
  constructor
  · rintro h s ⟨i,c,he,hc,herr,hf,ht,hid,hg⟩
    have := h i c he hc herr hf ht (by rw [slotOfId_eq_some.mpr hid]; rfl)
    omega
  · intro h i c he hc herr hf ht hsome
    obtain ⟨s,hid⟩ := Option.isSome_iff_exists.mp hsome
    by_contra hg
    exact h s ⟨i,c,he,hc,herr,hf,ht,slotOfId_eq_some.mp hid,by omega⟩

theorem surplus_start {T : SlotTable} (hT : ∀ s, (T.slots s).connections = 0) :
    CountersExact (start T) := hT

/-- From a table without connections, in any run of accepts, handshakes,
attaches, data-centre attempts, retries, fallbacks and closes: every counter is
exact in every state if and only if no client of a slot is closed with the
gauge at zero. -/
theorem counters_exact_iff_gauge_positive (cfg : Config) (T : SlotTable)
    (hT : ∀ s, (T.slots s).connections = 0) (es : List Traffic) :
    Throughout (trafficStep cfg) CountersExact (start T) es ↔
      Meets (trafficStep cfg) GaugePositive (start T) es := by
  constructor
  · intro h
    refine meets_of_throughout (P := AllSane) (fun w e hs => allSane_step hs e.val) ?_
      (allSane_start T) h
    intro w e hs hw hw'
    refine gaugePositive_iff.mpr fun s hun => ?_
    have h₁ : surplus s (trafficStep cfg w e) = surplus s w+1 := surplus_step_uncounted hs hun
    have h₂ := countersExact_iff.mp hw s
    have h₃ := countersExact_iff.mp hw' s
    omega
  · intro h
    refine throughout_of_invariant (P := fun w => AllSane w ∧ CountersExact w) ?_
      (fun _ h => h.2) ⟨allSane_start T,surplus_start hT⟩ h
    intro w e hw hok
    refine ⟨allSane_step hw.1 e.val,countersExact_iff.mpr fun s => ?_⟩
    have h₁ : surplus s (trafficStep cfg w e) = surplus s w :=
      surplus_step hw.1 e.property (gaugePositive_iff.mp hok s)
    rw [h₁]
    exact countersExact_iff.mp hw.2 s

/-- One plain client: its header, its first attempt and the loss of its socket. -/
def oneClient (attempt : Option ℕ) : List Traffic :=
  [⟨.accept ⟨1,zeroIpv6⟩,rfl⟩,⟨.obfs2Header 0 anyHeader attempt .connected,rfl⟩,
    ⟨.netFail 0,rfl⟩,⟨.abort 0,rfl⟩]

theorem counters_exact_one_client :
    (∀ s, ((pinnedTable [firstSecret]).slots s).connections = 0) ∧
      Throughout (trafficStep {}) CountersExact (start (pinnedTable [firstSecret]))
        (oneClient (some 0)) := by
  have hT : ∀ s, ((pinnedTable [firstSecret]).slots s).connections = 0 := by decide
  refine ⟨hT,(counters_exact_iff_gauge_positive {} _ hT _).mpr ⟨?_,?_,?_,?_,trivial⟩⟩
  · intro i c he
    cases he
  · intro i c he
    cases he
  · intro i c he
    cases he
  · intro i c _ _ _ _ _ _
    decide

/-- The only client of the worker never reached a data centre; its close leaves
the slot with a connection that does not exist. -/
theorem refused_dc_keeps_counter :
    ¬ CountersExact
      (run (trafficStep {}) (start (pinnedTable [firstSecret])) (oneClient none)) := by
  intro h
  have h₁ : ((run (trafficStep {}) (start (pinnedTable [firstSecret]))
      (oneClient none)).table.slots 0).connections = 1 := by decide
  have h₂ : holders 0 (run (trafficStep {}) (start (pinnedTable [firstSecret]))
      (oneClient none)) = 0 := by decide
  have h₀ := h 0
  rw [h₁,h₂] at h₀
  cases h₀

end Teleproxy.ConnectionCounters
