import Teleproxy.SlotStability

/-!
# The accept gate

Five checks stand between a client and a slot. They are made once, at the
obfs2 header of a plain, WebSocket or HTTP-stream client and at the ClientHello
of a TLS client. The attach is at the header in both cases. For a TLS client it
may come any time later, and to another slot than the one the ClientHello
matched, so for such a client the checks say what held at the ClientHello.
-/
namespace Teleproxy.AcceptGate
open SecretSlots SecretReload ReloadUniqueness WorkerProcess ConnectionCounters SlotStability
  StepSystem

variable {cfg : Config} {w w' : Worker} {s t : Fin extSecretMaxSlots} {i : ℕ} {c d : Conn}
  {e : Event} {a : Addr}

/-- A new client with this address may enter the slot now. -/
structure Admits (cfg : Config) (w : Worker) (s : Fin extSecretMaxSlots) (a : Addr) : Prop where
  active : (w.table.slots s).state = .active
  notExpired : secretExpired w.now (w.table.slots s) = false
  belowLimit : secretOverLimit cfg.workers (w.table.slots s) = false
  belowQuota : secretOverQuota cfg.workers (w.table.slots s) = false
  knownAddress : ipOverLimit cfg.workers (w.table.slots s) a = false

/-- The step puts connection `i` into slot `s`. -/
def Attaches (cfg : Config) (w : Worker) (e : Event) (i : ℕ) (s : Fin extSecretMaxSlots) : Prop :=
  ¬ Attached i s w ∧ Attached i s (step cfg w e)

theorem admits_of_rejection (hused : (w.table.slots s).state ≠ .free)
    (h : rejection cfg.workers w.now (w.table.slots s) a = none) : Admits cfg w s a := by
  unfold rejection at h
  split_ifs at h with h₁ h₂ h₃ h₄ h₅
  refine ⟨?_,by simpa using h₂,by simpa using h₃,by simpa using h₄,by simpa using h₅⟩
  cases hstate : (w.table.slots s).state with
  | free => exact (hused hstate).elim
  | active => rfl
  | draining => exact (h₁ hstate).elim

theorem helloOutcome_accepted {h : ClientHello} (hout : helloOutcome cfg w c h = .accepted s) :
    helloSlot w.table h = some s ∧ Admits cfg w s c.addr := by
  unfold helloOutcome at hout
  split at hout
  · cases hout
  split at hout
  · cases hout
  · rename_i t ht
    split at hout
    · cases hout
    split at hout
    · cases hout
    · rename_i hrej
      split_ifs at hout
      cases hout
      have hused : (w.table.slots s).state ≠ .free := by
        have h := List.find?_some ht
        simp only [Bool.and_eq_true,bne_iff_ne] at h
        exact h.1.2
      exact ⟨ht,admits_of_rejection hused hrej⟩

theorem attached_evolves_back (h : Attached i s w')
    (hev : Store.Evolves Conn.Quiet Conn.Fresh w.conns w'.conns) : Attached i s w :=
  hev.exists_back (fun _ _ hq hh => (hq.holds s).symm.trans hh)
    (fun d hf hh => by rw [hf.holds s] at hh; cases hh) h

theorem attaches_header (hs : AllSane w) (ha : Attaches cfg w e i s) :
    ∃ c h attempt b secretId tag dc, e = .obfs2Header i h attempt b ∧ w.conns.get i = some c ∧
      headerOutcome cfg w c h = .accepted secretId tag dc ∧ secretId = s.val := by
  obtain ⟨hnot,hafter⟩ := ha
  have heff : Effect cfg w e (step cfg w e) := step_effect hs e
  generalize hw' : step cfg w e = w' at heff hafter
  cases heff with
  | quiet hq => exact (hnot (attached_evolves_back hafter hq.conns)).elim
  | @attach j c h attempt b secretId tag dc _ hc hawait hout hq =>
      have hatt : Attached i s (w.modConn j (Conn.attach secretId tag dc)) :=
        (attached_evolves_back hafter hq.conns).of_conns (attachConnection_conns ..).symm
      by_contra hno
      refine hnot (Store.exists_modify_back hatt fun d hj hd hh => ?_)
      subst hj
      rw [hc] at hd
      cases hd
      simp only [Conn.holds,Conn.attach,Bool.and_eq_true,beq_iff_eq] at hh
      exact (hno ⟨c,h,attempt,b,secretId,tag,dc,rfl,hc,hout,by omega⟩).elim
  | hello hc hout => exact (hnot (Store.exists_modify_back hafter fun _ _ _ hh => hh)).elim
  | @close j c _ hc herr hf ht hq =>
      have hatt : Attached i s (w.modConn j Conn.fail) :=
        (attached_evolves_back hafter hq.conns).of_conns (releaseClient_conns ..).symm
      refine (hnot (Store.exists_modify_back hatt fun d hj hd hh => ?_)).elim
      subst hj
      rw [hc] at hd
      cases hd
      simp only [Conn.holds,Conn.live,Conn.fail,Bool.and_eq_true,beq_iff_eq] at hh ⊢
      exact ⟨⟨hh.1.1,by simp [hf]⟩,hh.2⟩
  | @notified j c hc hq =>
      have hatt : Attached i s (w.modConn j Conn.notify) :=
        hafter.of_conns (mtprotoExtRpcClose_conns ..).symm
      refine (hnot (Store.exists_modify_back hatt fun d hj hd hh => ?_)).elim
      subst hj
      rw [hc] at hd
      cases hd
      simp [Conn.holds,Conn.live,Conn.notify,((hs i c hc).queued hq).1] at hh
  | reload => exact (hnot hafter).elim
  | sweep hsw => exact (hnot (attached_evolves_back hafter hsw.conns)).elim

def IsTls (i : ℕ) (w : Worker) : Prop := ∃ c, w.conns.get i = some c ∧ c.isTls = true

theorem isTls_evolves_back (h : IsTls i w')
    (hev : Store.Evolves Conn.Quiet Conn.Fresh w.conns w'.conns) : IsTls i w :=
  hev.exists_back (fun _ _ hq hh => hq.isTls.symm.trans hh)
    (fun d hf hh => by rw [hf.isTls] at hh; cases hh) h

theorem IsTls.of_conns (h : IsTls i w) (hw : w'.conns = w.conns) : IsTls i w' := by
  obtain ⟨c,hc,hh⟩ := h
  exact ⟨c,hw ▸ hc,hh⟩

theorem becomes_tls (hs : AllSane w) (hnot : ¬ IsTls i w) (hafter : IsTls i (step cfg w e)) :
    ∃ c h b s, e = .clientHello i h b ∧ w.conns.get i = some c ∧
      helloOutcome cfg w c h = .accepted s := by
  have heff : Effect cfg w e (step cfg w e) := step_effect hs e
  generalize hw' : step cfg w e = w' at heff hafter
  cases heff with
  | quiet hq => exact (hnot (isTls_evolves_back hafter hq.conns)).elim
  | attach hc hawait hout hq =>
      have h := (isTls_evolves_back hafter hq.conns).of_conns (attachConnection_conns ..).symm
      exact (hnot (Store.exists_modify_back h fun _ _ _ hh => hh)).elim
  | @hello j c h b t hc hout =>
      by_contra hno
      refine hnot (Store.exists_modify_back hafter fun d hj hd _ => ?_)
      subst hj
      exact (hno ⟨c,h,b,t,rfl,hc,hout⟩).elim
  | close hc herr hf ht hq =>
      have h := (isTls_evolves_back hafter hq.conns).of_conns (releaseClient_conns ..).symm
      exact (hnot (Store.exists_modify_back h fun _ _ _ hh => hh)).elim
  | notified hc hq =>
      have h := hafter.of_conns (mtprotoExtRpcClose_conns ..).symm
      exact (hnot (Store.exists_modify_back h fun _ _ _ hh => hh)).elim
  | reload => exact (hnot hafter).elim
  | sweep hsw => exact (hnot (isTls_evolves_back hafter hsw.conns)).elim

theorem run_allSane (T : SlotTable) (es : List Event) :
    AllSane (run (step cfg) (start T) es) :=
  run_preserves (P := AllSane) (fun _ e hs => allSane_step hs e) es (allSane_start T)

/-- A TLS client has passed all five checks of the slot its ClientHello matched,
at the step of the ClientHello. -/
def PassedAtHello (cfg : Config) (T : SlotTable) (es : List Event) (i : ℕ) : Prop :=
  ∃ pre h b post c s, es = pre++.clientHello i h b::post ∧
    (run (step cfg) (start T) pre).conns.get i = some c ∧
    helloSlot (run (step cfg) (start T) pre).table h = some s ∧
    Admits cfg (run (step cfg) (start T) pre) s c.addr

theorem passedAtHello_of_isTls {T : SlotTable} {es : List Event}
    (h : IsTls i (run (step cfg) (start T) es)) : PassedAtHello cfg T es i := by
  have hnot : ¬ IsTls i (start T) := fun ⟨c,hc,_⟩ => by cases hc
  obtain ⟨pre,e,post,rfl,hbefore,hafter⟩ := exists_first_step hnot h
  obtain ⟨c,hello,b,s,rfl,hc,hout⟩ := becomes_tls (run_allSane T pre) hbefore hafter
  have hacc := helloOutcome_accepted hout
  exact ⟨pre,hello,b,post,c,s,rfl,hc,hacc.1,hacc.2⟩

/-- Every attach while some slot is in use is to a slot that is in use. A client
without TLS meets the five conditions of that slot at that very step; a TLS
client met those of the slot its ClientHello matched at the ClientHello. -/
theorem attach_gate (cfg : Config) (T : SlotTable) (es : List Event) (e : Event) (i : ℕ)
    (s : Fin extSecretMaxSlots)
    (hatt : Attaches cfg (run (step cfg) (start T) es) e i s)
    (hused : compactToSlot (run (step cfg) (start T) es).table ≠ []) :
    ∃ c, (run (step cfg) (start T) es).conns.get i = some c ∧
      ((run (step cfg) (start T) es).table.slots s).state ≠ .free ∧
      (c.isTls = false → Admits cfg (run (step cfg) (start T) es) s c.addr) ∧
      (c.isTls = true → PassedAtHello cfg T es i) := by
  obtain ⟨c,h,attempt,b,secretId,tag,dc,rfl,hc,hout,rfl⟩ :=
    attaches_header (run_allSane T es) hatt
  have hacc := headerOutcome_accepted hout
  have hstate : ((run (step cfg) (start T) es).table.slots s).state ≠ .free := by
    rcases hacc.2 with ⟨t,ht,hst⟩ | ⟨hnil,-⟩
    · have hts : t = s := by
        ext
        omega
      exact hts ▸ (mem_compactToSlot.mp ht).2
    · exact (hused hnil).elim
  refine ⟨c,hc,hstate,fun htls => ?_,fun htls => passedAtHello_of_isTls ⟨c,hc,htls⟩⟩
  have hrej := hacc.1
  have hid : slotOfId ((s.val : ℤ)+1) = some s := slotOfId_eq_some.mpr rfl
  simp only [headerRejection,htls,Bool.false_eq_true,if_false,hid,Option.map_eq_none_iff] at hrej
  exact admits_of_rejection hstate hrej

/-- A plain client enters the slot of the only secret. -/
theorem attach_gate_plain_client :
    ∃ c, (run (step {}) (start (pinnedTable [firstSecret])) [.accept ⟨1,zeroIpv6⟩]).conns.get 0 =
        some c ∧
      ((run (step {}) (start (pinnedTable [firstSecret]))
        [.accept ⟨1,zeroIpv6⟩]).table.slots 0).state ≠ .free ∧
      (c.isTls = false → Admits {} (run (step {}) (start (pinnedTable [firstSecret]))
        [.accept ⟨1,zeroIpv6⟩]) 0 c.addr) ∧
      (c.isTls = true →
        PassedAtHello {} (pinnedTable [firstSecret]) [.accept ⟨1,zeroIpv6⟩] 0) := by
  refine attach_gate {} (pinnedTable [firstSecret]) [.accept ⟨1,zeroIpv6⟩]
    (.obfs2Header 0 anyHeader (some 0) .connected) 0 0 ⟨?_,?_⟩ (by decide)
  · rintro ⟨c,hc,hh⟩
    cases hc
    exact absurd hh (by decide)
  · exact ⟨_,rfl,by decide⟩

/-- Fake TLS only, one secret with room for one connection. -/
def tlsOnly : Config := {allowOnlyTls := true}

def oneSeat : SecretConf := {key := Vector.replicate 16 1, limit := 1}

/-- Two clients whose ClientHellos both arrive before either header. -/
def twoHellos : List Event :=
  [.accept ⟨1,zeroIpv6⟩,.accept ⟨2,zeroIpv6⟩,
    .clientHello 0 {authenticates := fun _ => true} .connected,
    .clientHello 1 {authenticates := fun _ => true} .connected,
    .obfs2Header 0 anyHeader (some 0) .connected]

/-- The second of them is attached although its slot is full. -/
theorem tls_attach_over_limit :
    Attaches tlsOnly (run (step tlsOnly) (start (pinnedTable [oneSeat])) twoHellos)
        (.obfs2Header 1 anyHeader (some 0) .connected) 1 0 ∧
      secretOverLimit tlsOnly.workers
        ((run (step tlsOnly) (start (pinnedTable [oneSeat])) twoHellos).table.slots 0) = true := by
  refine ⟨⟨?_,⟨_,rfl,by decide⟩⟩,by decide⟩
  rintro ⟨c,hc,hh⟩
  cases hc
  exact absurd hh (by decide)

end Teleproxy.AcceptGate
