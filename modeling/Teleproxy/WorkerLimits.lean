import Mathlib.Algebra.BigOperators.Fin
import Mathlib.Algebra.Order.BigOperators.Group.Finset
import Mathlib.Tactic.Linarith
import Teleproxy.WorkerProcess

/-!
# Limits of a secret over all worker processes

With `-M N` the parent forks `N` processes that accept on the same sockets and
share no counter of a secret. The admission checks divide a limit by the
process-wide variable `workers`, but the fork loop sets that variable to zero
in the child, so every worker enforces the whole limit for itself.

A process is reduced here to one slot and the clients attached to it. The five
checks, the attach, the close and the charging of relayed bytes are those of a
worker. What the fork leaves of a limit is stated for the whole proxy: for
which settings the sums over all processes stay within it.
-/
namespace Teleproxy.WorkerLimits
open SecretSlots SecretReload FirstMatch StepSystem
open WorkerProcess (chargeReceived chargeSent)

/-- A client in the slot. Either end of its relay is failed when the quota is
found exhausted; the close of the client comes later. -/
structure Client where
  addr : Addr
  failed : Bool := false
  dcFailed : Bool := false
  deriving DecidableEq, Repr

inductive Direction where
  | received | sent
  deriving DecidableEq, Repr

structure Process where
  workers : ℤ
  slot : Slot
  clients : List Client := []

/-- What the fork loop leaves in the child. -/
def forkChild (parent : Process) : Process := {parent with workers := 0}

inductive Event where
  | attach (now : ℤ) (preciseNow : ℚ) (a : Addr)
  | close (k : ℕ)
  | relay (k : ℕ) (d : Direction) (n : ℕ)

/-- The checks and the attach of a plain client at its obfs2 header. -/
def Process.attach (now : ℤ) (preciseNow : ℚ) (a : Addr) (p : Process) : Process :=
  match rejection p.workers now p.slot a with
  | some r => {p with slot := countRejection r p.slot}
  | none =>
      {p with slot := attachSlot p.workers preciseNow a p.slot, clients := p.clients++[{addr := a}]}

def Process.close (k : ℕ) (p : Process) : Process :=
  match p.clients[k]? with
  | some c => {p with slot := detachSlot c.addr p.slot, clients := p.clients.eraseIdx k}
  | none => p

def Client.relays (c : Client) : Direction → Bool
  | .received => !c.failed
  | .sent => !c.dcFailed

def Client.fail (c : Client) : Direction → Client
  | .received => {c with failed := true}
  | .sent => {c with dcFailed := true}

def charge (n : ℕ) (x : Slot) : Direction → Slot
  | .received => chargeReceived n x
  | .sent => chargeSent n x

/-- Bytes are charged first; the connection they came from fails when they
exhaust the quota. -/
def Process.relay (k : ℕ) (d : Direction) (n : ℕ) (p : Process) : Process :=
  match p.clients[k]? with
  | some c =>
      if c.relays d = false ∨ n = 0 then p
      else if secretOverQuota p.workers (charge n p.slot d) then
        {p with slot := countRejection .quota (charge n p.slot d),
                clients := p.clients.set k (c.fail d)}
      else {p with slot := charge n p.slot d}
  | none => p

def Process.step (p : Process) : Event → Process
  | .attach now preciseNow a => p.attach now preciseNow a
  | .close k => p.close k
  | .relay k d n => p.relay k d n

/-- One event happens in one of the processes. -/
def step {W : ℕ} (f : Fin W → Process) (e : Fin W × Event) : Fin W → Process :=
  Function.update f e.1 ((f e.1).step e.2)

/-- The workers of a parent whose table holds the secret in a fresh slot. -/
def forkWorkers (W : ℕ) (conf : SecretConf) : Fin W → Process :=
  fun _ => forkChild {workers := W, slot := placeSlot 0 conf {}}

def usedBytes (x : Slot) : ℤ := x.bytesReceived+x.bytesSent

/-- The limits of the secret hold for the whole proxy: the connections and the
tracked addresses of all workers together, and no worker lets a client in once
the bytes of all workers reach the quota. -/
structure HoldsForProxy {W : ℕ} (conf : SecretConf) (f : Fin W → Process) : Prop where
  connections : 1 ≤ conf.limit → ∑ i, (f i).slot.connections ≤ max conf.limit W
  addresses : 1 ≤ conf.maxIps → ∑ i, (f i).slot.uniqueIpCount ≤ max conf.maxIps W
  quota : 1 ≤ conf.quota → ∀ i now a, rejection (f i).workers now (f i).slot a = none →
    ∑ j, usedBytes (f j).slot < max conf.quota W

variable {x y : Slot} {a : Addr} {conf : SecretConf} {p : Process}

def inUse (e : TrackedIp) : Bool := 0 < e.connections

/-- The address table is full size and its counter is exact. -/
structure Tracked (x : Slot) : Prop where
  length : x.ips.length = secretMaxTrackedIps
  exact : x.uniqueIpCount = x.ips.countP inUse

theorem Tracked.le (h : Tracked x) : x.uniqueIpCount ≤ secretMaxTrackedIps := by
  have hle : x.ips.countP inUse ≤ x.ips.length := List.countP_le_length
  rw [h.exact,← h.length]
  exact_mod_cast hle

/-- The settings that the checks read. -/
structure SameSettings (x y : Slot) : Prop where
  limit : y.limit = x.limit
  quota : y.quota = x.quota
  maxIps : y.maxIps = x.maxIps
  rateLimit : y.rateLimit = x.rateLimit
  expires : y.expires = x.expires
  state : y.state = x.state

theorem SameSettings.trans {z : Slot} (h : SameSettings x y) (h' : SameSettings y z) :
    SameSettings x z :=
  ⟨h'.limit.trans h.limit,h'.quota.trans h.quota,h'.maxIps.trans h.maxIps,
    h'.rateLimit.trans h.rateLimit,h'.expires.trans h.expires,h'.state.trans h.state⟩

theorem isFor_inUse {e : TrackedIp} (h : e.isFor a) : inUse e := by
  unfold TrackedIp.isFor at h
  split_ifs at h with hc hip <;> simp only [inUse,decide_eq_true_eq] <;> omega

theorem start_inUse (workers : ℤ) (preciseNow : ℚ) (rateLimit : ℤ) (e : TrackedIp) :
    inUse (TrackedIp.start workers preciseNow rateLimit a e) := by
  unfold TrackedIp.start
  dsimp only
  split <;> simp [inUse]

/-- The slot after the address of a new client was looked up in its table. -/
structure Connected (a : Addr) (x y : Slot) : Prop where
  settings : SameSettings x y
  tracked : Tracked y
  connections : y.connections = x.connections
  bytes : usedBytes y = usedBytes x
  atMostOne : y.uniqueIpCount ≤ x.uniqueIpCount+1
  known : x.ips.any (·.isFor a) → y.uniqueIpCount = x.uniqueIpCount

theorem connected_ipTrackConnect (workers : ℤ) (preciseNow : ℚ) (a : Addr) (h : Tracked x) :
    Connected a x (ipTrackConnect workers preciseNow a x) := by
  unfold ipTrackConnect
  dsimp only
  split
  · exact ⟨⟨rfl,rfl,rfl,rfl,rfl,rfl⟩,⟨h.length,h.exact⟩,rfl,rfl,Int.le_add_one (le_refl _),fun _ => rfl⟩
  · split
    · rename_i ips hu
      obtain ⟨pre,e,post,-,-,hf,he⟩ := updateFirst_eq_some hu
      have hcount := countP_updateFirst (q := inUse) hu hf
      have hin : inUse e = true := isFor_inUse he
      have hin' : inUse {e with connections := e.connections+1} = true := by
        simp only [inUse,decide_eq_true_eq] at hin ⊢
        omega
      rw [if_pos hin,if_pos hin'] at hcount
      refine ⟨⟨rfl,rfl,rfl,rfl,rfl,rfl⟩,⟨(updateFirst_length hu).trans h.length,?_⟩,rfl,rfl,
        Int.le_add_one (le_refl _),fun _ => rfl⟩
      change x.uniqueIpCount = (ips.countP inUse : ℕ)
      rw [h.exact]
      omega
    · rename_i hnone
      have hknown : x.ips.any (·.isFor a) = false := by
        simpa using updateFirst_eq_none.mp hnone
      split
      · rename_i ips hu
        obtain ⟨pre,e,post,-,-,hf,he⟩ := updateFirst_eq_some hu
        have hcount := countP_updateFirst (q := inUse) hu hf
        have hin : inUse e = false := by simpa [inUse] using he
        rw [if_pos (start_inUse _ _ _ e),hin] at hcount
        refine ⟨⟨rfl,rfl,rfl,rfl,rfl,rfl⟩,⟨(updateFirst_length hu).trans h.length,?_⟩,rfl,rfl,
          le_refl _,fun hk => by rw [hknown] at hk; cases hk⟩
        change x.uniqueIpCount+1 = (ips.countP inUse : ℕ)
        rw [h.exact]
        simp only [Bool.false_eq_true,if_false] at hcount
        omega
      · exact ⟨⟨rfl,rfl,rfl,rfl,rfl,rfl⟩,⟨h.length,h.exact⟩,rfl,rfl,Int.le_add_one (le_refl _),
          fun _ => rfl⟩

theorem Tracked.of_eq (h : Tracked x) (hi : y.ips = x.ips)
    (hu : y.uniqueIpCount = x.uniqueIpCount) : Tracked y :=
  ⟨hi ▸ h.length,by rw [hu,hi,h.exact]⟩

theorem attachSlot_spec (workers : ℤ) (preciseNow : ℚ) (a : Addr) (h : Tracked x) :
    SameSettings x (attachSlot workers preciseNow a x) ∧
      Tracked (attachSlot workers preciseNow a x) ∧
      (attachSlot workers preciseNow a x).connections = x.connections+1 ∧
      usedBytes (attachSlot workers preciseNow a x) = usedBytes x ∧
      (attachSlot workers preciseNow a x).uniqueIpCount ≤ x.uniqueIpCount+1 ∧
      (x.ips.any (·.isFor a) →
        (attachSlot workers preciseNow a x).uniqueIpCount = x.uniqueIpCount) := by
  have hc := connected_ipTrackConnect (x := {x with
    connections := x.connections+1, connectionsCreated := x.connectionsCreated+1})
    workers preciseNow a (h.of_eq rfl rfl)
  exact ⟨⟨hc.settings.limit,hc.settings.quota,hc.settings.maxIps,hc.settings.rateLimit,
    hc.settings.expires,hc.settings.state⟩,hc.tracked,hc.connections,hc.bytes,hc.atMostOne,hc.known⟩

theorem detachSlot_spec (a : Addr) (h : Tracked x) :
    SameSettings x (detachSlot a x) ∧ Tracked (detachSlot a x) ∧
      (detachSlot a x).connections = x.connections-1 ∧ usedBytes (detachSlot a x) = usedBytes x ∧
      (detachSlot a x).uniqueIpCount ≤ x.uniqueIpCount := by
  unfold detachSlot ipTrackDisconnect
  dsimp only
  split
  · rename_i e ips hf hu
    refine ⟨⟨rfl,rfl,rfl,rfl,rfl,rfl⟩,⟨(updateFirst_length hu).trans h.length,?_⟩,rfl,rfl,?_⟩
    · have hcount := countP_updateFirst (q := inUse) hu hf
      have hin : inUse e = true := isFor_inUse (List.find?_some hf)
      have hout : inUse e.release = decide (¬ e.connections-1 ≤ 0) := by
        unfold TrackedIp.release
        split_ifs with hlast
        · simp [inUse,hlast]
        · simp only [inUse,hlast]
          simpa using hlast
      rw [if_pos hin,hout] at hcount
      have hexact := h.exact
      change (if e.connections-1 ≤ 0 then x.uniqueIpCount-1 else x.uniqueIpCount) =
        (ips.countP inUse : ℕ)
      split_ifs with hlast <;> simp only [hlast] at hcount <;> simp at hcount <;> omega
    · change (if e.connections-1 ≤ 0 then x.uniqueIpCount-1 else x.uniqueIpCount) ≤ x.uniqueIpCount
      split_ifs <;> omega
  · exact ⟨⟨rfl,rfl,rfl,rfl,rfl,rfl⟩,h.of_eq rfl rfl,rfl,rfl,le_refl _⟩

theorem countRejection_same (r : Rejection) (x : Slot) :
    SameSettings x (countRejection r x) ∧ (countRejection r x).ips = x.ips ∧
      (countRejection r x).uniqueIpCount = x.uniqueIpCount ∧
      (countRejection r x).connections = x.connections ∧
      usedBytes (countRejection r x) = usedBytes x := by
  cases r <;> exact ⟨⟨rfl,rfl,rfl,rfl,rfl,rfl⟩,rfl,rfl,rfl,rfl⟩

theorem charge_same (n : ℕ) (x : Slot) (d : Direction) :
    SameSettings x (charge n x d) ∧ (charge n x d).ips = x.ips ∧
      (charge n x d).uniqueIpCount = x.uniqueIpCount ∧
      (charge n x d).connections = x.connections ∧
      usedBytes (charge n x d) = usedBytes x+n := by
  cases d
  · refine ⟨⟨rfl,rfl,rfl,rfl,rfl,rfl⟩,rfl,rfl,rfl,?_⟩
    simp only [usedBytes,charge,chargeReceived]
    omega
  · refine ⟨⟨rfl,rfl,rfl,rfl,rfl,rfl⟩,rfl,rfl,rfl,?_⟩
    simp only [usedBytes,charge,chargeSent]
    omega

/-- What every forked process keeps true of its slot: the settings of the
secret, and each limit undivided. -/
structure Enforced (conf : SecretConf) (p : Process) : Prop where
  workers : p.workers = 0
  settings : SameSettings (placeSlot 0 conf {}) p.slot
  tracked : Tracked p.slot
  connections : 1 ≤ conf.limit → p.slot.connections ≤ conf.limit
  addresses : 1 ≤ conf.maxIps → p.slot.uniqueIpCount ≤ conf.maxIps

theorem perWorker_zero (limit : ℤ) : perWorker 0 limit = max 1 limit := by
  unfold perWorker
  simp only [show ¬ (0 : ℤ) > 1 by decide,if_false]
  split_ifs <;> omega

theorem rejection_eq_none {workers now : ℤ} : rejection workers now x a = none ↔
    x.state ≠ .draining ∧ secretExpired now x = false ∧ secretOverLimit workers x = false ∧
      secretOverQuota workers x = false ∧ ipOverLimit workers x a = false := by
  unfold rejection
  split_ifs <;> simp_all

theorem Enforced.same (h : Enforced conf p) {p' : Process} (hw : p'.workers = p.workers)
    (hx : SameSettings p.slot p'.slot) (hi : p'.slot.ips = p.slot.ips)
    (hu : p'.slot.uniqueIpCount = p.slot.uniqueIpCount)
    (hc : p'.slot.connections = p.slot.connections) : Enforced conf p' :=
  ⟨hw.trans h.workers,h.settings.trans hx,h.tracked.of_eq hi hu,
    fun hl => hc ▸ h.connections hl,fun hl => hu ▸ h.addresses hl⟩

theorem enforced_attach (h : Enforced conf p) (now : ℤ) (preciseNow : ℚ) (a : Addr) :
    Enforced conf (p.attach now preciseNow a) := by
  unfold Process.attach
  cases hr : rejection p.workers now p.slot a with
  | some r =>
      obtain ⟨hs,hi,hu,hc,-⟩ := countRejection_same r p.slot
      exact h.same rfl hs hi hu hc
  | none =>
      obtain ⟨-,-,hlim,-,hip⟩ := rejection_eq_none.mp hr
      obtain ⟨hs,ht,hc,-,hone,hknown⟩ := attachSlot_spec p.workers preciseNow a h.tracked
      have hlimit : p.slot.limit = conf.limit := h.settings.limit
      have hmax : p.slot.maxIps = conf.maxIps := h.settings.maxIps
      refine ⟨h.workers,h.settings.trans hs,ht,fun hl => ?_,fun hl => ?_⟩
      · rw [secretOverLimit,if_neg (by omega),h.workers,perWorker_zero,hlimit] at hlim
        have := of_decide_eq_false hlim
        dsimp only
        omega
      · rw [ipOverLimit,if_neg (by omega)] at hip
        dsimp only
        by_cases hany : p.slot.ips.any (·.isFor a)
        · rw [hknown hany]
          exact h.addresses hl
        · rw [if_neg hany,h.workers,perWorker_zero,hmax] at hip
          have := of_decide_eq_false hip
          omega

theorem enforced_close (h : Enforced conf p) (k : ℕ) : Enforced conf (p.close k) := by
  unfold Process.close
  cases p.clients[k]? with
  | none => exact h
  | some c =>
      obtain ⟨hs,ht,hc,-,hu⟩ := detachSlot_spec c.addr h.tracked
      refine ⟨h.workers,h.settings.trans hs,ht,fun hl => ?_,fun hl => hu.trans (h.addresses hl)⟩
      have := h.connections hl
      dsimp only
      omega

theorem enforced_relay (h : Enforced conf p) (k : ℕ) (d : Direction) (n : ℕ) :
    Enforced conf (p.relay k d n) := by
  unfold Process.relay
  cases p.clients[k]? with
  | none => exact h
  | some c =>
      obtain ⟨hs,hi,hu,hc,-⟩ := charge_same n p.slot d
      dsimp only
      split
      · exact h
      split
      · obtain ⟨hs',hi',hu',hc',-⟩ := countRejection_same .quota (charge n p.slot d)
        exact h.same rfl (hs.trans hs') (hi'.trans hi) (hu'.trans hu) (hc'.trans hc)
      · exact h.same rfl hs hi hu hc

theorem enforced_step (h : Enforced conf p) (e : Event) : Enforced conf (p.step e) := by
  cases e with
  | attach now preciseNow a => exact enforced_attach h now preciseNow a
  | close k => exact enforced_close h k
  | relay k d n => exact enforced_relay h k d n

theorem enforced_forkWorkers (W : ℕ) (conf : SecretConf) (i : Fin W) :
    Enforced conf (forkWorkers W conf i) := by
  refine ⟨rfl,⟨rfl,rfl,rfl,rfl,rfl,rfl⟩,⟨List.length_replicate,?_⟩,fun hl => ?_,fun hl => ?_⟩
  · change (0 : ℤ) = ((List.replicate secretMaxTrackedIps ({} : TrackedIp)).countP inUse : ℕ)
    rw [List.countP_replicate]
    rfl
  · exact (show (0 : ℤ) ≤ conf.limit by omega)
  · exact (show (0 : ℤ) ≤ conf.maxIps by omega)

theorem run_enforced {W : ℕ} (conf : SecretConf) (es : List (Fin W × Event)) (i : Fin W) :
    Enforced conf (run step (forkWorkers W conf) es i) := by
  refine run_preserves (P := fun f : Fin W → Process => ∀ i, Enforced conf (f i)) (fun f e h j => ?_) es
    (enforced_forkWorkers W conf) i
  unfold step
  by_cases hj : j = e.1
  · subst hj
    rw [Function.update_self]
    exact enforced_step (h e.1) e.2
  · rw [Function.update_of_ne hj]
    exact h j

/-- Every limit is one that a single process keeps for all of them: no quota,
at most one connection, and at most one address or more addresses than all
tables together can hold. -/
def KeptUndivided (W : ℕ) (conf : SecretConf) : Prop :=
  conf.limit ≤ 1 ∧ (conf.maxIps ≤ 1 ∨ secretMaxTrackedIps*W ≤ conf.maxIps) ∧ conf.quota ≤ 0

theorem sum_le_of_forall {W : ℕ} {g : Fin W → ℤ} {b : ℤ} (h : ∀ i, g i ≤ b) :
    ∑ i, g i ≤ W*b := by
  calc ∑ i, g i ≤ ∑ _i : Fin W, b := Finset.sum_le_sum fun i _ => h i
    _ = W*b := by simp

theorem holdsForProxy_of_kept {W : ℕ} (hk : KeptUndivided W conf) {f : Fin W → Process}
    (hf : ∀ i, Enforced conf (f i)) : HoldsForProxy conf f := by
  obtain ⟨hlimit,hips,hquota⟩ := hk
  refine ⟨fun hl => ?_,fun hl => ?_,fun hq => by omega⟩
  · have hsum : ∑ i, (f i).slot.connections ≤ W*1 :=
      sum_le_of_forall fun i => ((hf i).connections hl).trans hlimit
    omega
  · rcases hips with hone | hmany
    · have hsum : ∑ i, (f i).slot.uniqueIpCount ≤ W*1 :=
        sum_le_of_forall fun i => ((hf i).addresses hl).trans hone
      omega
    · have hsum : ∑ i, (f i).slot.uniqueIpCount ≤ W*secretMaxTrackedIps :=
        sum_le_of_forall fun i => (hf i).tracked.le
      rw [mul_comm] at hsum
      omega

section Runs
variable {W : ℕ}

theorem run_worker (f : Fin W → Process) (i : Fin W) (es : List Event) :
    run step f (es.map (i,·)) = Function.update f i (run Process.step (f i) es) := by
  induction es generalizing f with
  | nil => simp
  | cons e es ih =>
      rw [List.map_cons,run_cons,ih]
      simp [step]

/-- The same events in every worker of a list, one worker after the other. -/
theorem run_workers (f : Fin W → Process) (es : List Event) {is : List (Fin W)}
    (hd : is.Nodup) (j : Fin W) :
    run step f (is.flatMap fun i => es.map (i,·)) j =
      if j ∈ is then run Process.step (f j) es else f j := by
  induction is generalizing f with
  | nil => simp
  | cons i is ih =>
      rw [List.nodup_cons] at hd
      rw [List.flatMap_cons,run_append,run_worker,ih _ hd.2]
      by_cases hj : j = i
      · subst hj
        simp [hd.1]
      · simp [hj]

def inEveryWorker (W : ℕ) (es : List Event) : List (Fin W × Event) :=
  (List.finRange W).flatMap fun i => es.map (i,·)

theorem run_inEveryWorker (f : Fin W → Process) (es : List Event) :
    run step f (inEveryWorker W es) = fun i => run Process.step (f i) es := by
  funext j
  rw [inEveryWorker,run_workers f es (List.nodup_finRange W) j,if_pos (List.mem_finRange j)]

end Runs

/-- A process that has relayed nothing, with `n` clients in its slot. -/
structure Idle (conf : SecretConf) (n : ℕ) (p : Process) : Prop where
  enforced : Enforced conf p
  connections : p.slot.connections = n
  bytes : usedBytes p.slot = 0

theorem idle_forkWorkers (W : ℕ) (conf : SecretConf) (i : Fin W) :
    Idle conf 0 (forkWorkers W conf i) := ⟨enforced_forkWorkers W conf i,rfl,rfl⟩

/-- At time zero an idle process lets a client in unless the limit or the
addresses stand in the way. -/
theorem Idle.admits {n : ℕ} (h : Idle conf n p) (hn : conf.limit ≤ 0 ∨ (n : ℤ) < max 1 conf.limit)
    (ha : ipOverLimit p.workers p.slot a = false) : rejection p.workers 0 p.slot a = none := by
  have hx := h.enforced.settings
  have hlimit : p.slot.limit = conf.limit := hx.limit
  have hstate : p.slot.state = .active := hx.state
  have hbytes : p.slot.bytesReceived+p.slot.bytesSent = 0 := h.bytes
  refine rejection_eq_none.mpr ⟨by rw [hstate]; decide,?_,?_,?_,ha⟩
  · unfold secretExpired
    by_cases hexp : p.slot.expires > 0 <;> simp [hexp]
  · unfold secretOverLimit
    rw [hlimit,h.connections,h.enforced.workers,perWorker_zero]
    split_ifs with hl
    · rfl
    · exact decide_eq_false (by omega)
  · unfold secretOverQuota
    rw [hbytes,h.enforced.workers,perWorker_zero]
    split_ifs
    · rfl
    · exact decide_eq_false (by omega)

theorem Idle.attach {n : ℕ} (h : Idle conf n p)
    (hr : rejection p.workers 0 p.slot a = none) : Idle conf (n+1) (p.step (.attach 0 0 a)) := by
  obtain ⟨-,-,hc,hb,-⟩ := attachSlot_spec p.workers 0 a h.enforced.tracked
  have hstep : (p.attach 0 0 a).slot = attachSlot p.workers 0 a p.slot := by
    rw [Process.attach,hr]
  refine ⟨enforced_step h.enforced _,?_,?_⟩
  · change (p.attach 0 0 a).slot.connections = _
    rw [hstep,hc,h.connections]
    push_cast
    rfl
  · change usedBytes (p.attach 0 0 a).slot = _
    rw [hstep,hb,h.bytes]

theorem isFor_more {e : TrackedIp} (h : e.isFor a) :
    TrackedIp.isFor a {e with connections := e.connections+1} := by
  have hin : 0 < e.connections := of_decide_eq_true (isFor_inUse h)
  unfold TrackedIp.isFor at h ⊢
  rw [if_neg (show ¬ e.connections ≤ 0 by omega)] at h
  rw [if_neg (show ¬ e.connections+1 ≤ 0 by omega)]
  exact h

theorem isFor_start (workers : ℤ) (preciseNow : ℚ) (rateLimit : ℤ) (e : TrackedIp)
    (ha : a.ip ≠ 0) : (TrackedIp.start workers preciseNow rateLimit a e).isFor a := by
  unfold TrackedIp.start
  dsimp only
  split <;> simp [TrackedIp.isFor,ha]

/-- A client never stands in the way of another one with its address. -/
theorem ipOverLimit_attachSlot (workers : ℤ) (preciseNow : ℚ) (ha : a.ip ≠ 0)
    (h : ipOverLimit workers x a = false) :
    ipOverLimit workers (attachSlot workers preciseNow a x) a = false := by
  by_cases hmax : x.maxIps ≤ 0
  · have hsame : (attachSlot workers preciseNow a x).maxIps = x.maxIps := by
      unfold attachSlot ipTrackConnect
      dsimp only
      split
      · rfl
      split
      · rfl
      split <;> rfl
    rw [ipOverLimit,hsame,if_pos hmax]
  · unfold attachSlot ipTrackConnect
    dsimp only
    rw [if_neg (fun hn => hmax hn.1)]
    split
    · rename_i ips hu
      obtain ⟨pre,e,post,-,rfl,-,he⟩ := updateFirst_eq_some hu
      rw [ipOverLimit,if_neg hmax,if_pos]
      simp [isFor_more he]
    split
    · rename_i ips hu
      obtain ⟨pre,e,post,-,rfl,-,he⟩ := updateFirst_eq_some hu
      rw [ipOverLimit,if_neg hmax,if_pos]
      simp [isFor_start workers preciseNow x.rateLimit e ha]
    · exact h

def oneAddr : Addr := ⟨1,zeroIpv6⟩
def zeroAddr : Addr := ⟨0,zeroIpv6⟩

theorem ipOverLimit_forkWorkers (W : ℕ) (conf : SecretConf) (i : Fin W) (a : Addr) :
    ipOverLimit (forkWorkers W conf i).workers (forkWorkers W conf i).slot a = false := by
  have hany : (forkWorkers W conf i).slot.ips.any (·.isFor a) = false := by
    change (List.replicate secretMaxTrackedIps ({} : TrackedIp)).any _ = false
    rw [List.any_replicate]
    simp [TrackedIp.isFor]
  unfold ipOverLimit
  rw [hany]
  change (if conf.maxIps ≤ 0 then false else
    if false = true then false else decide ((0 : ℤ) ≥ perWorker 0 conf.maxIps)) = false
  rw [perWorker_zero]
  split_ifs
  · rfl
  · rfl
  · exact decide_eq_false (by omega)

/-- One address fills the whole limit of a process. -/
theorem idle_fill {n : ℕ} (h : Idle conf 0 p) (hn : (n : ℤ) ≤ conf.limit)
    (ha : ipOverLimit p.workers p.slot oneAddr = false) :
    Idle conf n (run Process.step p (List.replicate n (.attach 0 0 oneAddr))) ∧
      ipOverLimit p.workers (run Process.step p (List.replicate n (.attach 0 0 oneAddr))).slot
        oneAddr = false := by
  induction n with
  | zero => exact ⟨h,ha⟩
  | succ n ih =>
      push_cast at hn
      obtain ⟨hi,hip⟩ := ih (by omega)
      rw [List.replicate_succ',run_concat]
      have hw : (run Process.step p (List.replicate n (.attach 0 0 oneAddr))).workers =
          p.workers := hi.enforced.workers.trans h.enforced.workers.symm
      rw [← hw] at hip ⊢
      have hr := hi.admits (.inr (by omega)) hip
      refine ⟨hi.attach hr,?_⟩
      change ipOverLimit _ (Process.attach 0 0 oneAddr _).slot oneAddr = false
      rw [Process.attach,hr]
      exact ipOverLimit_attachSlot _ 0 (by decide) hip

theorem zeroAddr_unknown (e : TrackedIp) : e.isFor zeroAddr = false := by
  unfold TrackedIp.isFor
  split_ifs with hc hz
  · rfl
  · exact absurd rfl hz
  · by_cases hv : e.ipv6 = zeroIpv6 <;> simp [hv,zeroAddr]

theorem attachSlot_zeroAddr (workers : ℤ) (preciseNow : ℚ) (h : Tracked x) (hmax : 0 < x.maxIps)
    (hroom : x.uniqueIpCount < secretMaxTrackedIps) :
    (attachSlot workers preciseNow zeroAddr x).uniqueIpCount = x.uniqueIpCount+1 := by
  have hunknown : ∀ f, updateFirst (·.isFor zeroAddr) f x.ips = none := fun f =>
    updateFirst_eq_none.mpr fun e _ => zeroAddr_unknown e
  have hfree : ∀ f, updateFirst (fun e : TrackedIp => e.connections ≤ 0) f x.ips ≠ none := by
    intro f hnone
    have hall : ∀ e ∈ x.ips, inUse e = true := by
      intro e he
      simpa [inUse] using updateFirst_eq_none.mp hnone e he
    have hcount := h.exact
    rw [List.countP_eq_length.mpr hall,h.length] at hcount
    omega
  unfold attachSlot ipTrackConnect
  dsimp only
  rw [if_neg (fun hn => absurd hn.1 (by omega)),hunknown]
  dsimp only
  split
  · rfl
  · rename_i hnone
    exact (hfree _ hnone).elim

theorem detachSlot_zeroAddr (x : Slot) :
    detachSlot zeroAddr x = {x with connections := x.connections-1} := by
  have hfind : x.ips.find? (·.isFor zeroAddr) = none :=
    List.find?_eq_none.mpr fun e _ => by simp [zeroAddr_unknown e]
  unfold detachSlot ipTrackDisconnect
  dsimp only
  rw [hfind]

/-- A client without an address leaves its table entry behind. -/
theorem idle_zeroAddr (h : Idle conf 0 p) (hc : p.clients = []) (hlimit : conf.limit ≤ 1)
    (hmax : p.slot.uniqueIpCount < conf.maxIps) (hpos : 0 < conf.maxIps)
    (hroom : p.slot.uniqueIpCount < secretMaxTrackedIps) :
    Idle conf 0 (run Process.step p [.attach 0 0 zeroAddr,.close 0]) ∧
      (run Process.step p [.attach 0 0 zeroAddr,.close 0]).clients = [] ∧
      (run Process.step p [.attach 0 0 zeroAddr,.close 0]).slot.uniqueIpCount =
        p.slot.uniqueIpCount+1 := by
  have hm : p.slot.maxIps = conf.maxIps := h.enforced.settings.maxIps
  have hip : ipOverLimit p.workers p.slot zeroAddr = false := by
    unfold ipOverLimit
    rw [h.enforced.workers,perWorker_zero,hm]
    split_ifs
    · rfl
    · rfl
    · exact decide_eq_false (by omega)
  have hr := h.admits (by omega) hip
  obtain ⟨-,-,hconn,hbytes,-⟩ := attachSlot_spec p.workers 0 zeroAddr h.enforced.tracked
  have hrun : run Process.step p [.attach 0 0 zeroAddr,.close 0] =
      {p with slot := detachSlot zeroAddr (attachSlot p.workers 0 zeroAddr p.slot)} := by
    change (p.attach 0 0 zeroAddr).close 0 = _
    rw [Process.attach,hr,hc]
    simp [Process.close]
  have henf : Enforced conf (run Process.step p [.attach 0 0 zeroAddr,.close 0]) :=
    enforced_step (enforced_step h.enforced (.attach 0 0 zeroAddr)) (.close 0)
  rw [hrun,detachSlot_zeroAddr] at henf ⊢
  refine ⟨⟨henf,?_,hbytes.trans h.bytes⟩,hc,?_⟩
  · have := h.connections
    dsimp only
    omega
  · exact attachSlot_zeroAddr p.workers 0 h.enforced.tracked (by omega) hroom

def leaveAddresses (n : ℕ) : List Event :=
  (List.replicate n [Event.attach 0 0 zeroAddr,Event.close 0]).flatten

theorem idle_leaveAddresses {n : ℕ} (h : Idle conf 0 p) (hc : p.clients = [])
    (hu : p.slot.uniqueIpCount = 0) (hlimit : conf.limit ≤ 1) (hmax : (n : ℤ) ≤ conf.maxIps)
    (hroom : n ≤ secretMaxTrackedIps) :
    Idle conf 0 (run Process.step p (leaveAddresses n)) ∧
      (run Process.step p (leaveAddresses n)).clients = [] ∧
      (run Process.step p (leaveAddresses n)).slot.uniqueIpCount = n := by
  induction n with
  | zero => exact ⟨h,hc,hu⟩
  | succ n ih =>
      push_cast at hmax
      obtain ⟨hi,hci,hui⟩ := ih (by omega) (by omega)
      rw [leaveAddresses,List.replicate_succ',List.flatten_append,run_append,List.flatten_singleton]
      obtain ⟨hi',hci',hui'⟩ := idle_zeroAddr hi hci hlimit (by omega) (by omega) (by omega)
      refine ⟨hi',hci',hui'.trans ?_⟩
      rw [hui]
      push_cast
      rfl

theorem relay_bytes {c : Client} {k : ℕ} {d : Direction} (hc : p.clients[k]? = some c)
    (hd : c.relays d) (n : ℕ) : usedBytes (p.step (.relay k d n)).slot = usedBytes p.slot+n := by
  change usedBytes (p.relay k d n).slot = _
  unfold Process.relay
  rw [hc]
  dsimp only
  split
  · rename_i hz
    have hn : n = 0 := by simpa [hd] using hz
    simp [hn]
  split
  · exact (countRejection_same .quota _).2.2.2.2.trans (charge_same n p.slot d).2.2.2.2
  · exact (charge_same n p.slot d).2.2.2.2

/-- Below the quota the client stays as it is. -/
theorem relay_clients {k : ℕ} {d : Direction} (h : Enforced conf p) {n : ℕ}
    (hn : usedBytes p.slot+n < max 1 conf.quota) : (p.step (.relay k d n)).clients = p.clients := by
  have hover : secretOverQuota p.workers (charge n p.slot d) = false := by
    unfold secretOverQuota
    have hq : (charge n p.slot d).quota = conf.quota :=
      (charge_same n p.slot d).1.quota.trans h.settings.quota
    have hb : (charge n p.slot d).bytesReceived+(charge n p.slot d).bytesSent =
        usedBytes p.slot+n := (charge_same n p.slot d).2.2.2.2
    rw [hq,hb,h.workers,perWorker_zero]
    split_ifs
    · rfl
    · exact decide_eq_false (by omega)
  change (p.relay k d n).clients = _
  unfold Process.relay
  rw [hover]
  cases p.clients[k]? with
  | none => rfl
  | some c =>
      dsimp only
      split <;> rfl

theorem run_relays {n : ℕ} {d : Direction} (h : Enforced conf p)
    (hc : p.clients = [{addr := oneAddr}]) (hb : usedBytes p.slot = 0)
    (hn : (n : ℤ) < max 1 conf.quota) :
    Enforced conf (run Process.step p (List.replicate n (.relay 0 d 1))) ∧
      (run Process.step p (List.replicate n (.relay 0 d 1))).clients = [{addr := oneAddr}] ∧
      usedBytes (run Process.step p (List.replicate n (.relay 0 d 1))).slot = n := by
  induction n with
  | zero => exact ⟨h,hc,hb⟩
  | succ n ih =>
      push_cast at hn
      obtain ⟨hi,hci,hbi⟩ := ih (by omega)
      rw [List.replicate_succ',run_concat]
      refine ⟨enforced_step hi _,(relay_clients hi (by omega)).trans hci,?_⟩
      rw [relay_bytes (by rw [hci]; rfl) (by cases d <;> rfl),hbi]
      push_cast
      rfl

/-- One client that uses up a quota of `quota` bytes, with `last` bytes in its
final read. -/
def exhaust (quota last : ℕ) : List Event :=
  .attach 0 0 oneAddr::(List.replicate (quota-1) (.relay 0 .received 1)++[.relay 0 .received last])

theorem run_exhaust {quota : ℕ} (last : ℕ) (h : Idle conf 0 p) (hc : p.clients = [])
    (ha : ipOverLimit p.workers p.slot oneAddr = false) (hq : (quota : ℤ) = conf.quota)
    (hpos : 1 ≤ quota) :
    usedBytes (run Process.step p (exhaust quota last)).slot = conf.quota-1+last := by
  have hr := h.admits (by omega) ha
  have hi := h.attach hr
  have hclients : (p.step (.attach 0 0 oneAddr)).clients = [{addr := oneAddr}] := by
    change (p.attach 0 0 oneAddr).clients = _
    rw [Process.attach,hr,hc]
    rfl
  obtain ⟨-,hci,hbi⟩ := run_relays (n := quota-1) (d := .received) hi.enforced hclients hi.bytes
    (by omega)
  rw [exhaust,run_cons,run_concat,relay_bytes (by rw [hci]; rfl) rfl,hbi]
  omega

theorem exists_run_connections (conf : SecretConf) (W : ℕ) {n : ℕ} (hn : (n : ℤ) ≤ conf.limit) :
    ∃ es, ∑ i, (run step (forkWorkers W conf) es i).slot.connections = W*n := by
  have hfill := fun i => (idle_fill (idle_forkWorkers W conf i) hn
    (ipOverLimit_forkWorkers W conf i oneAddr)).1.connections
  refine ⟨inEveryWorker W (List.replicate n (.attach 0 0 oneAddr)),?_⟩
  rw [run_inEveryWorker]
  simp [hfill]

theorem exists_run_addresses (conf : SecretConf) (W : ℕ) {n : ℕ} (hlimit : conf.limit ≤ 1)
    (hmax : (n : ℤ) ≤ conf.maxIps) (hroom : n ≤ secretMaxTrackedIps) :
    ∃ es, ∑ i, (run step (forkWorkers W conf) es i).slot.uniqueIpCount = W*n := by
  have hleave := fun i => (idle_leaveAddresses (idle_forkWorkers W conf i) rfl rfl hlimit hmax
    hroom).2.2
  refine ⟨inEveryWorker W (leaveAddresses n),?_⟩
  rw [run_inEveryWorker]
  simp [hleave]

/-- One worker is driven past the quota while another has seen no client. -/
theorem exists_run_quota (conf : SecretConf) {W : ℕ} (hW : 2 ≤ W) (hq : 1 ≤ conf.quota) :
    ∃ es i, rejection (run step (forkWorkers W conf) es i).workers 0
        (run step (forkWorkers W conf) es i).slot oneAddr = none ∧
      ∑ j, usedBytes (run step (forkWorkers W conf) es j).slot = conf.quota-1+W := by
  let busy : Fin W := ⟨0,by omega⟩
  let other : Fin W := ⟨1,by omega⟩
  have hne : other ≠ busy := by simp [busy,other,Fin.ext_iff]
  refine ⟨(exhaust conf.quota.toNat W).map (busy,·),other,?_⟩
  rw [run_worker]
  constructor
  · rw [Function.update_of_ne hne]
    exact (idle_forkWorkers W conf other).admits (by omega)
      (ipOverLimit_forkWorkers W conf other oneAddr)
  · have hquota : (conf.quota.toNat : ℤ) = conf.quota := Int.toNat_of_nonneg (by omega)
    have hused := run_exhaust W (idle_forkWorkers W conf busy) rfl
      (ipOverLimit_forkWorkers W conf busy oneAddr) hquota (by omega)
    rw [Finset.sum_eq_single busy]
    · rw [Function.update_self,hused]
    · intro j _ hj
      rw [Function.update_of_ne hj]
      rfl
    · simp

/-- The limits of a secret hold for the whole proxy, in every state that any
interleaving over its forked workers reaches, exactly when each of them is one
that survives not being divided. -/
theorem limits_hold_for_proxy_iff (W : ℕ) (hW : 2 ≤ W) (conf : SecretConf) :
    (∀ es, HoldsForProxy conf (run step (forkWorkers W conf) es)) ↔ KeptUndivided W conf := by
  have hW' : (2 : ℤ) ≤ W := by exact_mod_cast hW
  constructor
  · intro hall
    have hlimit : conf.limit ≤ 1 := by
      by_contra hl
      obtain ⟨es,hsum⟩ := exists_run_connections conf W (n := conf.limit.toNat) (by omega)
      have hbound := (hall es).connections (by omega)
      rw [hsum,Int.toNat_of_nonneg (by omega)] at hbound
      rcases le_max_iff.mp hbound with h | h <;> nlinarith
    refine ⟨hlimit,?_,?_⟩
    · by_contra hips
      rw [not_or,not_le,not_le] at hips
      obtain ⟨es,hsum⟩ := exists_run_addresses conf W
        (n := min conf.maxIps.toNat secretMaxTrackedIps) hlimit (by omega) (by omega)
      have hbound := (hall es).addresses (by omega)
      rw [hsum] at hbound
      rcases Nat.le_total conf.maxIps.toNat secretMaxTrackedIps with hle | hle
      · rw [Nat.min_eq_left hle,Int.toNat_of_nonneg (by omega)] at hbound
        rcases le_max_iff.mp hbound with h | h <;> nlinarith
      · rw [Nat.min_eq_right hle] at hbound
        rcases le_max_iff.mp hbound with h | h
        · rw [mul_comm] at h
          exact absurd h (not_le.mpr hips.2)
        · simp only [secretMaxTrackedIps] at h
          omega
    · by_contra hq
      obtain ⟨es,i,hroom,hsum⟩ := exists_run_quota conf hW (by omega)
      have hbound := (hall es).quota (by omega) i 0 oneAddr hroom
      rw [hsum] at hbound
      omega
  · intro hk es
    exact holdsForProxy_of_kept hk (run_enforced conf es)

def oneSeat : SecretConf := {key := zeroKey, limit := 1}

theorem limits_hold_one_seat :
    KeptUndivided 2 oneSeat ∧ ∀ es, HoldsForProxy oneSeat (run step (forkWorkers 2 oneSeat) es) := by
  have hk : KeptUndivided 2 oneSeat := ⟨by decide,.inl (by decide),by decide⟩
  exact ⟨hk,(limits_hold_for_proxy_iff 2 (by decide) oneSeat).mpr hk⟩

def twoSeats : SecretConf := {key := zeroKey, limit := 2}

/-- Two workers with a limit of two connections let four clients in. -/
theorem two_workers_exceed_limit :
    ∑ i, (run step (forkWorkers 2 twoSeats)
        [(0,.attach 0 0 oneAddr),(0,.attach 0 0 oneAddr),(1,.attach 0 0 oneAddr),
          (1,.attach 0 0 oneAddr)] i).slot.connections = 4 ∧
      ¬ HoldsForProxy twoSeats (run step (forkWorkers 2 twoSeats)
        [(0,.attach 0 0 oneAddr),(0,.attach 0 0 oneAddr),(1,.attach 0 0 oneAddr),
          (1,.attach 0 0 oneAddr)]) := by
  have hsum : ∑ i, (run step (forkWorkers 2 twoSeats)
      [(0,.attach 0 0 oneAddr),(0,.attach 0 0 oneAddr),(1,.attach 0 0 oneAddr),
        (1,.attach 0 0 oneAddr)] i).slot.connections = 4 := by
    rw [Fin.sum_univ_two]
    decide
  refine ⟨hsum,fun h => ?_⟩
  have hle := h.connections (by decide)
  rw [hsum] at hle
  exact absurd hle (by decide)

end Teleproxy.WorkerLimits
