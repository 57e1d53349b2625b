import Mathlib.Algebra.Order.Field.Rat
import Mathlib.Data.Fintype.Card
import Mathlib.Data.Rat.Floor
import Mathlib.Tactic.Linarith
import Teleproxy.Lib.StepSystem
import Teleproxy.SecretSlots

/-!
# The token bucket of a tracked address

All relay endpoints of an address (its clients and the DC side of each) take
tokens from the bucket in the address's entry. The bucket is refilled when
bytes are relayed, and it may go below zero. The endpoint that took it there
stops reading until its timer fires; the pause is never longer than five
seconds. What is relayed for the address is bounded over whole runs, for any
number of endpoints.

An alarm counts here once it has passed `job_timer_check`. That test lets one
through before the armed time when the timer was armed again while the alarm was
under way, which happens only where the handlers have a thread of their own; the
bound is for runs without such an alarm.
-/
namespace Teleproxy.RateLimit
open SecretSlots StepSystem

/-- `rate_bucket_refill` -/
def rateBucketRefill (effRate : ℤ) (preciseNow : ℚ) (e : TrackedIp) : TrackedIp :=
  let elapsed := preciseNow-e.lastRefillTime
  if 0 < elapsed then
    let tokens := e.tokens+⌊elapsed*effRate⌋
    {e with tokens := if effRate < tokens then effRate else tokens,
            lastRefillTime := preciseNow}
  else e

/-- The pause that brings the bucket back to zero, cut to the range from a millisecond to
five seconds. -/
def pause (eff tokens : ℤ) : ℚ :=
  let delay : ℚ := -tokens/eff
  let delay := if delay < 1/1000 then 1/1000 else delay
  if 5 < delay then 5 else delay

/-- One direction of a relay. -/
structure Endpoint where
  stopRead : Bool := false
  timer : Option ℚ := none
  deriving DecidableEq, Repr

/-- `rate_limit_after_relay`. An entry without connections is not found. -/
def rateLimitAfterRelay (workers rateLimit : ℤ) (preciseNow : ℚ) (bytes : ℕ) (e : TrackedIp)
    (c : Endpoint) : TrackedIp × Endpoint :=
  if rateLimit ≤ 0 ∨ e.connections ≤ 0 then (e,c)
  else
    let eff := perWorker workers rateLimit
    let e := rateBucketRefill eff preciseNow e
    let e := {e with tokens := e.tokens-bytes}
    if e.tokens < 0 then
      (e,{stopRead := true, timer := some (preciseNow+pause eff e.tokens)})
    else (e,c)

def rateLimitResume (c : Endpoint) : Endpoint :=
  if c.stopRead then {c with stopRead := false} else c

/-- `ι` names the relay endpoints of the address. -/
structure State (ι : Type*) where
  now : ℚ
  entry : TrackedIp
  endpoint : ι → Endpoint := fun _ => {}
  /-- The bytes relayed so far, in both directions. -/
  relayed : ℕ := 0

inductive Event (ι : Type*) where
  | clock (t : ℚ)
  | connect
  | disconnect
  | relay (i : ι) (n : ℕ)
  /-- `job_timer_check` has returned 1. -/
  | alarm (i : ι)
  /-- The same timer is armed for something else, as for the next record of a TLS client. -/
  | recordDelay (i : ι) (delay : ℚ)

structure Config where
  workers : ℤ
  rateLimit : ℤ
  addr : Addr

variable {ι : Type*} [DecidableEq ι]

/-- `ip_track_connect`, seen from the entry of the address. -/
def connect (cfg : Config) (now : ℚ) (e : TrackedIp) : TrackedIp :=
  if e.connections ≤ 0 then e.start cfg.workers now cfg.rateLimit cfg.addr
  else {e with connections := e.connections+1}

def State.relay (cfg : Config) (i : ι) (n : ℕ) (s : State ι) : State ι :=
  if (s.endpoint i).stopRead ∨ n = 0 then s
  else
    let r := rateLimitAfterRelay cfg.workers cfg.rateLimit s.now n s.entry (s.endpoint i)
    {s with entry := r.1, endpoint := Function.update s.endpoint i r.2, relayed := s.relayed+n}

/-- The alarm of an endpoint whose timer is armed, whether or not the time has come. -/
def State.alarm (i : ι) (s : State ι) : State ι :=
  if (s.endpoint i).timer = none then s
  else {s with endpoint :=
          Function.update s.endpoint i (rateLimitResume {s.endpoint i with timer := none})}

def step (cfg : Config) (s : State ι) : Event ι → State ι
  | .clock t => {s with now := max s.now t}
  | .connect => {s with entry := connect cfg s.now s.entry}
  | .disconnect => {s with entry := s.entry.release}
  | .relay i n => s.relay cfg i n
  | .alarm i => s.alarm i
  | .recordDelay i d =>
      {s with endpoint :=
        Function.update s.endpoint i {s.endpoint i with timer := some (s.now+d)}}

/-- The first connection of the address, at time `t`. -/
def start (cfg : Config) (t : ℚ) : State ι :=
  {now := t, entry := connect cfg t {}}

/-- A relay carries at most `B` bytes, the address keeps a connection, no alarm comes before the
time its timer is armed for, and the timer of an endpoint that has stopped reading is left
alone. -/
def Permitted (B : ℕ) (s : State ι) : Event ι → Prop
  | .relay _ n => n ≤ B
  | .disconnect => 1 < s.entry.connections
  | .alarm i => ∀ w ∈ (s.endpoint i).timer, w ≤ s.now
  | .recordDelay i _ => (s.endpoint i).stopRead = false
  | _ => True

instance (B : ℕ) (s : State ι) : ∀ a, Decidable (Permitted B s a)
  | .relay _ n => inferInstanceAs (Decidable (n ≤ B))
  | .disconnect => inferInstanceAs (Decidable (1 < s.entry.connections))
  | .recordDelay i _ => inferInstanceAs (Decidable ((s.endpoint i).stopRead = false))
  | .alarm i => inferInstanceAs (Decidable (∀ w ∈ (s.endpoint i).timer, w ≤ s.now))
  | .clock _ => isTrue trivial
  | .connect => isTrue trivial

variable {R : ℤ}

theorem refill_lastRefillTime {now : ℚ} {e : TrackedIp} (h : e.lastRefillTime ≤ now) :
    (rateBucketRefill R now e).lastRefillTime = now := by
  unfold rateBucketRefill
  dsimp only
  split_ifs with hpos hcap
  · rfl
  · rfl
  · exact le_antisymm h (by linarith)

/-- The refill adds no more than the rate over the time since the last one. -/
theorem refill_tokens_le {now : ℚ} {e : TrackedIp} (h : e.lastRefillTime ≤ now) :
    ((rateBucketRefill R now e).tokens : ℚ) ≤ e.tokens+(now-e.lastRefillTime)*R := by
  have hfloor := Int.floor_le ((now-e.lastRefillTime)*R)
  unfold rateBucketRefill
  dsimp only
  split_ifs with hpos hcap
  · have hcast : (R : ℚ) < ((e.tokens+⌊(now-e.lastRefillTime)*R⌋ : ℤ) : ℚ) := by
      exact_mod_cast hcap
    push_cast at hcast
    linarith
  · push_cast
    linarith
  · have hzero : now-e.lastRefillTime = 0 := by linarith
    rw [hzero]
    linarith

theorem refill_connections (now : ℚ) (e : TrackedIp) :
    (rateBucketRefill R now e).connections = e.connections := by
  unfold rateBucketRefill
  dsimp only
  split_ifs
  · rfl
  · rfl
  · rfl

/-- The pause brings the bucket back to zero, or it is cut to five seconds. -/
theorem pause_cases (hR : 1 ≤ R) (τ : ℤ) : 0 < pause R τ ∧ (-τ ≤ pause R τ*R ∨ pause R τ = 5) := by
  have hpos : (0 : ℚ) < R := by exact_mod_cast hR
  have hexact : (-τ : ℚ)/R*R = -τ := div_mul_cancel₀ _ hpos.ne'
  unfold pause
  simp only
  split_ifs with h1 h2 h3
  · exact ⟨by norm_num,Or.inr rfl⟩
  · refine ⟨by norm_num,Or.inl ?_⟩
    rw [← hexact]
    exact mul_le_mul_of_nonneg_right h1.le hpos.le
  · exact ⟨by norm_num,Or.inr rfl⟩
  · exact ⟨by linarith,Or.inl hexact.ge⟩

/-- The rate at which an address can send for ever. Where `k` relays of `B` bytes take less
than five seconds, this is the configured rate. -/
def pace (R : ℤ) (k B : ℕ) : ℚ := max R (k*B/5)

/-- The tokens that would be left in a bucket of pace `p` without cap and truncation. -/
def State.credit (R : ℤ) (p t₀ : ℚ) (s : State ι) : ℚ := R+p*(s.now-t₀)-s.relayed

/-- When the endpoint reads again, at most `m` relays are owed. -/
def Covered (B m : ℕ) (p now credit : ℚ) (c : Endpoint) : Prop :=
  if c.stopRead then ∃ w, c.timer = some w ∧ -(B*m) ≤ credit+p*(w-now) else -(B*m) ≤ credit

/-- `recent` lists endpoints by their last relay, the latest one first. Each owes at most the
relays of those before it in the list. -/
structure Owed (B : ℕ) (p now credit : ℚ) (endpoint : ι → Endpoint) (recent : List ι) : Prop where
  nodup : recent.Nodup
  total : -(B*recent.length) ≤ credit
  each : ∀ later i earlier, recent = later++i::earlier →
    Covered B later.length p now credit (endpoint i)

structure Bounded (R : ℤ) (B : ℕ) (p t₀ : ℚ) (s : State ι) : Prop where
  tracked : 1 ≤ s.entry.connections
  refilled : s.entry.lastRefillTime ≤ s.now
  began : t₀ ≤ s.now
  bucket : s.entry.tokens+(s.now-s.entry.lastRefillTime)*R ≤ s.credit R R t₀
  owed : ∃ recent, Owed B p s.now (s.credit R p t₀) s.endpoint recent

variable {B : ℕ} {p t₀ now credit : ℚ} {endpoint : ι → Endpoint} {recent : List ι}

theorem covered_reading {m : ℕ} {c : Endpoint} (hread : c.stopRead = false) :
    Covered B m p now credit c ↔ -(B*m) ≤ credit := by
  rw [Covered,if_neg (by simp [hread])]

theorem covered_paused {m : ℕ} {c : Endpoint} (hstop : c.stopRead = true) :
    Covered B m p now credit c ↔ ∃ w, c.timer = some w ∧ -(B*m) ≤ credit+p*(w-now) := by
  rw [Covered,if_pos hstop]

omit [DecidableEq ι] in
theorem Owed.covered (h : Owed B p now credit endpoint recent) {later earlier : List ι} {i : ι}
    (hi : recent = later++i::earlier) (hread : (endpoint i).stopRead = false) :
    -(B*later.length) ≤ credit :=
  (covered_reading hread).mp (h.each later i earlier hi)

/-- Those that relayed after the last relay of `i`. -/
theorem Owed.before (h : Owed B p now credit endpoint recent) {i : ι}
    (hread : (endpoint i).stopRead = false) :
    ∃ later earlier, recent = later++earlier ∧ i ∉ later ∧ -(B*later.length) ≤ credit := by
  by_cases hi : i ∈ recent
  · obtain ⟨later,earlier,rfl,hnot⟩ := List.eq_append_cons_of_mem hi
    exact ⟨later,i::earlier,rfl,hnot,h.covered rfl hread⟩
  · exact ⟨recent,[],(List.append_nil _).symm,hi,h.total⟩

omit [DecidableEq ι] in
theorem Covered.wait {m : ℕ} {c : Endpoint} {d : ℚ} (hp : 0 ≤ p) (hd : 0 ≤ d)
    (h : Covered B m p now credit c) : Covered B m p (now+d) (credit+p*d) c := by
  unfold Covered at h ⊢
  split_ifs at h ⊢ with hstop
  · obtain ⟨w,hw,hle⟩ := h
    exact ⟨w,hw,by linarith⟩
  · have := mul_nonneg hp hd
    linarith

omit [DecidableEq ι] in
theorem Covered.relay {m n : ℕ} {c : Endpoint} (hn : n ≤ B) (h : Covered B m p now credit c) :
    Covered B (m+1) p now (credit-n) c := by
  have hB : (n : ℚ) ≤ B := by exact_mod_cast hn
  unfold Covered at h ⊢
  push_cast
  split_ifs at h ⊢ with hstop
  · obtain ⟨w,hw,hle⟩ := h
    exact ⟨w,hw,by linarith⟩
  · linarith

/-- A relay moves its endpoint to the front; the endpoints that come later in the list are
dropped when it was among them. -/
theorem Owed.relay (h : Owed B p now credit endpoint recent) {i : ι} {n : ℕ} (hn : n ≤ B)
    (hread : (endpoint i).stopRead = false) :
    ∃ later, (i::later).Nodup ∧ -(B*(i::later).length) ≤ credit-n ∧
      ∀ c, Covered B 0 p now (credit-n) c →
        Owed B p now (credit-n) (Function.update endpoint i c) (i::later) := by
  obtain ⟨later,earlier,hrecent,hnot,hle⟩ := h.before hread
  have hB : (n : ℚ) ≤ B := by exact_mod_cast hn
  have hnodup : (i::later).Nodup := by
    have hd := h.nodup
    rw [hrecent] at hd
    exact List.nodup_cons.mpr ⟨hnot,hd.of_append_left⟩
  have htotal : -(B*(i::later).length) ≤ credit-n := by
    rw [List.length_cons]
    push_cast
    linarith
  refine ⟨later,hnodup,htotal,fun c hc => ⟨hnodup,htotal,?_⟩⟩
  intro front j back hsplit
  cases front with
  | nil =>
      obtain ⟨rfl,-⟩ := List.cons.inj hsplit
      rw [Function.update_self]
      exact hc
  | cons a front =>
      obtain ⟨rfl,hlater⟩ := List.cons.inj hsplit
      have hne : j ≠ i := by
        rintro rfl
        exact hnot (by rw [hlater]; simp)
      rw [Function.update_of_ne hne,List.length_cons]
      refine (h.each front j (back++earlier) ?_).relay hn
      rw [hrecent,hlater]
      exact List.append_assoc front (j::back) earlier

/-- An endpoint whose pause is over, or whose timer was not armed for one, may change. -/
theorem Owed.update (h : Owed B p now credit endpoint recent) {i : ι} {c : Endpoint}
    (hc : ∀ m, Covered B m p now credit (endpoint i) → Covered B m p now credit c) :
    Owed B p now credit (Function.update endpoint i c) recent := by
  refine ⟨h.nodup,h.total,fun later j earlier hj => ?_⟩
  by_cases hji : j = i
  · subst hji
    rw [Function.update_self]
    exact hc _ (h.each later j earlier hj)
  · rw [Function.update_of_ne hji]
    exact h.each later j earlier hj

omit [DecidableEq ι] in
theorem Owed.wait (h : Owed B p now credit endpoint recent) {d : ℚ} (hp : 0 ≤ p) (hd : 0 ≤ d) :
    Owed B p (now+d) (credit+p*d) endpoint recent := by
  refine ⟨h.nodup,?_,fun later i earlier hi => (h.each later i earlier hi).wait hp hd⟩
  have := mul_nonneg hp hd
  linarith [h.total]

variable {cfg : Config} {s : State ι}

omit [DecidableEq ι] in
theorem Bounded.total [Fintype ι] (h : Bounded R B p t₀ s) :
    s.relayed ≤ p*(s.now-t₀)+R+Fintype.card ι*B := by
  obtain ⟨recent,ho⟩ := h.owed
  have hcard : (recent.length : ℚ) ≤ Fintype.card ι := by
    exact_mod_cast ho.nodup.length_le_card
  have hmul := mul_le_mul_of_nonneg_left hcard (Nat.cast_nonneg B : (0 : ℚ) ≤ (B : ℚ))
  have htotal := ho.total
  unfold State.credit at htotal
  linarith

omit [DecidableEq ι] in
theorem Bounded.clock (h : Bounded R B p t₀ s) (hp : 0 ≤ p) (t : ℚ) :
    Bounded R B p t₀ {s with now := max s.now t} := by
  obtain ⟨d,hd,hnow⟩ : ∃ d, 0 ≤ d ∧ max s.now t = s.now+d :=
    ⟨max s.now t-s.now,sub_nonneg.mpr (le_max_left _ _),by ring⟩
  rw [hnow]
  have hbucket := h.bucket
  obtain ⟨recent,ho⟩ := h.owed
  refine ⟨h.tracked,h.refilled.trans (by simpa using hd),h.began.trans (by simpa using hd),?_,
    recent,?_⟩
  · unfold State.credit at hbucket ⊢
    dsimp only at hbucket ⊢
    linarith
  · have hw := ho.wait hp hd
    have heq : s.credit R p t₀+p*d = State.credit R p t₀ {s with now := s.now+d} := by
      unfold State.credit
      ring
    rw [← heq]
    exact hw

omit [DecidableEq ι] in
/-- The entry may change as long as the bucket does not. -/
theorem Bounded.entry (h : Bounded R B p t₀ s) {e : TrackedIp} (hc : 1 ≤ e.connections)
    (ht : e.tokens = s.entry.tokens) (hl : e.lastRefillTime = s.entry.lastRefillTime) :
    Bounded R B p t₀ {s with entry := e} :=
  ⟨hc,hl ▸ h.refilled,h.began,by rw [ht,hl]; exact h.bucket,h.owed⟩

theorem Bounded.update (h : Bounded R B p t₀ s) {i : ι} {c : Endpoint}
    (hc : ∀ m, Covered B m p s.now (s.credit R p t₀) (s.endpoint i) →
      Covered B m p s.now (s.credit R p t₀) c) :
    Bounded R B p t₀ {s with endpoint := Function.update s.endpoint i c} := by
  obtain ⟨recent,ho⟩ := h.owed
  exact ⟨h.tracked,h.refilled,h.began,h.bucket,recent,ho.update hc⟩

theorem Bounded.alarm (h : Bounded R B p t₀ s) (hp : 0 ≤ p) {i : ι}
    (hdue : ∀ w ∈ (s.endpoint i).timer, w ≤ s.now) : Bounded R B p t₀ (s.alarm i) := by
  unfold State.alarm
  split_ifs
  · exact h
  · apply h.update
    intro m hm
    have hread : (rateLimitResume {s.endpoint i with timer := none}).stopRead = false := by
      cases hstop : (s.endpoint i).stopRead with
      | true => simp [rateLimitResume,hstop]
      | false => simp [rateLimitResume,hstop]
    rw [covered_reading hread]
    cases hstop : (s.endpoint i).stopRead with
    | true =>
        obtain ⟨w,hw,hle⟩ := (covered_paused hstop).mp hm
        have := mul_nonneg hp (sub_nonneg.mpr (hdue w hw))
        linarith
    | false => exact (covered_reading hstop).mp hm

theorem rateLimitAfterRelay_eq (hlimit : 1 ≤ R) {workers : ℤ} (hw : workers ≤ 1) {n : ℕ}
    {e : TrackedIp} (he : 1 ≤ e.connections) (c : Endpoint) :
    rateLimitAfterRelay workers R now n e c =
      let e' := {rateBucketRefill R now e with tokens := (rateBucketRefill R now e).tokens-n}
      if e'.tokens < 0 then (e',{stopRead := true, timer := some (now+pause R e'.tokens)})
      else (e',c) := by
  have heff : perWorker workers R = R := by
    unfold perWorker
    rw [if_neg (by omega),if_neg (by omega)]
  rw [rateLimitAfterRelay,if_neg (by omega),heff]

/-- The endpoint that has just relayed owes nothing when it reads again. -/
theorem covered_after {n : ℕ} {e : TrackedIp} {c : Endpoint} {workers : ℤ} (hR : 1 ≤ R)
    (hw : workers ≤ 1) (hRp : R ≤ p) (he : 1 ≤ e.connections) (hread : c.stopRead = false)
    (htokens : ((rateBucketRefill R now e).tokens : ℚ)-n ≤ credit) (hfive : -(5*p) ≤ credit) :
    Covered B 0 p now credit (rateLimitAfterRelay workers R now n e c).2 := by
  rw [rateLimitAfterRelay_eq hR hw he]
  dsimp only
  split_ifs with hneg
  · obtain ⟨hpos,hpause⟩ := pause_cases hR ((rateBucketRefill R now e).tokens-n)
    refine (covered_paused rfl).mpr ⟨_,rfl,?_⟩
    rw [Nat.cast_zero,mul_zero,neg_zero,add_sub_cancel_left]
    rcases hpause with hback | hcut
    · have hmore := mul_le_mul_of_nonneg_left hRp hpos.le
      push_cast at hback
      linarith
    · rw [hcut]
      linarith
  · rw [covered_reading hread,Nat.cast_zero,mul_zero,neg_zero]
    have hcast : (0 : ℚ) ≤ (((rateBucketRefill R now e).tokens-n : ℤ) : ℚ) := by
      exact_mod_cast not_lt.mp hneg
    push_cast at hcast
    linarith

theorem Bounded.relay [Fintype ι] (h : Bounded cfg.rateLimit B p t₀ s) (hR : 1 ≤ cfg.rateLimit)
    (hw : cfg.workers ≤ 1) (hRp : cfg.rateLimit ≤ p) (hp : Fintype.card ι*B ≤ 5*p) (i : ι) {n : ℕ}
    (hn : n ≤ B) : Bounded cfg.rateLimit B p t₀ (s.relay cfg i n) := by
  unfold State.relay
  split_ifs with hskip
  · exact h
  · rw [not_or,Bool.not_eq_true] at hskip
    obtain ⟨recent,ho⟩ := h.owed
    obtain ⟨later,hnodup,htotal,howed⟩ := ho.relay hn hskip.1
    have hcredit : ∀ q, State.credit cfg.rateLimit q t₀ {s with relayed := s.relayed+n} =
        s.credit cfg.rateLimit q t₀-n := by
      intro q
      unfold State.credit
      push_cast
      ring
    have hrefill := refill_tokens_le (R := cfg.rateLimit) h.refilled
    have htokens := hrefill.trans h.bucket
    have hexact : s.credit cfg.rateLimit cfg.rateLimit t₀ ≤ s.credit cfg.rateLimit p t₀ := by
      have := mul_le_mul_of_nonneg_right hRp (sub_nonneg.mpr h.began)
      unfold State.credit
      linarith
    have hfive : -(5*p) ≤ s.credit cfg.rateLimit p t₀-n := by
      have hcard : ((i::later).length : ℚ) ≤ Fintype.card ι := by
        exact_mod_cast hnodup.length_le_card
      have := mul_le_mul_of_nonneg_left hcard (Nat.cast_nonneg B : (0 : ℚ) ≤ (B : ℚ))
      linarith
    have hlast := refill_lastRefillTime (R := cfg.rateLimit) h.refilled
    have hentry : (rateLimitAfterRelay cfg.workers cfg.rateLimit s.now n s.entry
        (s.endpoint i)).1 = {rateBucketRefill cfg.rateLimit s.now s.entry with
          tokens := (rateBucketRefill cfg.rateLimit s.now s.entry).tokens-n} := by
      rw [rateLimitAfterRelay_eq hR hw h.tracked]
      dsimp only
      split_ifs
      · rfl
      · rfl
    dsimp only
    refine ⟨?_,?_,h.began,?_,i::later,?_⟩
    · rw [hentry]
      exact (refill_connections s.now s.entry).symm ▸ h.tracked
    · rw [hentry]
      exact hlast.le
    · rw [hentry]
      change (((rateBucketRefill cfg.rateLimit s.now s.entry).tokens-n : ℤ) : ℚ)+
        (s.now-(rateBucketRefill cfg.rateLimit s.now s.entry).lastRefillTime)*cfg.rateLimit ≤
          State.credit cfg.rateLimit cfg.rateLimit t₀ {s with relayed := s.relayed+n}
      rw [hlast,hcredit,sub_self,zero_mul,add_zero]
      push_cast
      linarith
    · change Owed B p s.now (State.credit cfg.rateLimit p t₀ {s with relayed := s.relayed+n}) _ _
      rw [hcredit]
      exact howed _ (covered_after hR hw hRp h.tracked hskip.1 (by linarith) hfive)

theorem Bounded.step [Fintype ι] (hR : 1 ≤ cfg.rateLimit) (hw : cfg.workers ≤ 1)
    (hRp : cfg.rateLimit ≤ p) (hp : Fintype.card ι*B ≤ 5*p) (s : State ι) (a : Event ι)
    (h : Bounded cfg.rateLimit B p t₀ s) (ha : Permitted B s a) :
    Bounded cfg.rateLimit B p t₀ (step cfg s a) := by
  have hp0 : 0 ≤ p := le_trans (by exact_mod_cast (by omega : (0 : ℤ) ≤ cfg.rateLimit)) hRp
  have htracked := h.tracked
  cases a with
  | clock t => exact h.clock hp0 t
  | connect =>
      rw [RateLimit.step,connect,if_neg (by omega)]
      exact h.entry (by dsimp only; omega) rfl rfl
  | disconnect =>
      have hkept : 1 < s.entry.connections := ha
      rw [RateLimit.step,TrackedIp.release,if_neg (by omega)]
      exact h.entry (by dsimp only; omega) rfl rfl
  | relay i n => exact h.relay hR hw hRp hp i ha
  | alarm i => exact h.alarm hp0 ha
  | recordDelay i d =>
      have hread : (s.endpoint i).stopRead = false := ha
      apply h.update
      intro m hm
      refine (covered_reading ?_).mpr ((covered_reading hread).mp hm)
      exact hread

omit [DecidableEq ι] in
theorem start_bounded (hR : 1 ≤ cfg.rateLimit) (hw : cfg.workers ≤ 1) (t : ℚ) :
    Bounded cfg.rateLimit B p t (start cfg t : State ι) := by
  have hentry : (start cfg t : State ι).entry =
      ⟨cfg.addr.ip,cfg.addr.ipv6,1,cfg.rateLimit,t⟩ := by
    have heff : perWorker cfg.workers cfg.rateLimit = cfg.rateLimit := by
      unfold perWorker
      rw [if_neg (by omega),if_neg (by omega)]
    simp [start,connect,TrackedIp.start,heff,show 0 < cfg.rateLimit by omega]
  have hcredit : ∀ q, (start cfg t : State ι).credit cfg.rateLimit q t = cfg.rateLimit := by
    intro q
    simp [State.credit,start]
  refine ⟨by rw [hentry],by rw [hentry]; exact le_refl t,le_refl t,?_,[],List.nodup_nil,?_,?_⟩
  · rw [hentry,hcredit]
    simp [start]
  · rw [hcredit]
    simp only [List.length_nil,Nat.cast_zero,mul_zero,neg_zero]
    exact_mod_cast (by omega : 0 ≤ cfg.rateLimit)
  · intro later i earlier hi
    simp at hi

/-- From the first connection of an address on, its endpoints relay no more than the bucket,
one relay each, and the pace over the time passed. -/
theorem relayed_le [Fintype ι] (cfg : Config) (B : ℕ) (t : ℚ) (as : List (Event ι))
    (hR : 1 ≤ cfg.rateLimit) (hw : cfg.workers ≤ 1)
    (has : Meets (step cfg) (Permitted B) (start cfg t) as) :
    ((run (step cfg) (start cfg t) as).relayed : ℚ) ≤
      pace cfg.rateLimit (Fintype.card ι) B*((run (step cfg) (start cfg t) as).now-t)+
        cfg.rateLimit+Fintype.card ι*B := by
  have hRp : (cfg.rateLimit : ℚ) ≤ pace cfg.rateLimit (Fintype.card ι) B := le_max_left _ _
  have hp : (Fintype.card ι : ℚ)*B ≤ 5*pace cfg.rateLimit (Fintype.card ι) B := by
    have : (Fintype.card ι : ℚ)*B/5 ≤ pace cfg.rateLimit (Fintype.card ι) B := le_max_right _ _
    linarith
  exact (run_invariant (Bounded.step hR hw hRp hp) (start_bounded hR hw t) has).total

def sampleConfig : Config := ⟨1,1,⟨0x01020304,zeroIpv6⟩⟩

/-- Two endpoints, each paused for the tokens it is short of. -/
def sampleRun : List (Event (Fin 2)) :=
  [.relay 0 2,.connect,.clock 1,.alarm 0,.relay 1 2,.disconnect,.clock 2,.relay 0 1]

theorem sampleRun_relayed_le :
    (run (step sampleConfig) (start sampleConfig 0) sampleRun).relayed = 5 ∧
    ((run (step sampleConfig) (start sampleConfig 0) sampleRun).relayed : ℚ) ≤
      pace 1 2 2*((run (step sampleConfig) (start sampleConfig 0) sampleRun).now-0)+1+2*2 := by
  have hle := relayed_le sampleConfig 2 0 sampleRun (by decide) (by decide) (by decide +kernel)
  exact ⟨by decide +kernel,by simpa [sampleConfig] using hle⟩

/-- One connection whose two endpoints send twenty bytes each time their pause of five seconds
is over. -/
def clampedRun : List (Event (Fin 2)) :=
  [.relay 0 20,.relay 1 20,.clock 5,.alarm 0,.alarm 1,.relay 0 20,.relay 1 20]

theorem clampedRun_exceeds :
    Meets (step sampleConfig) (Permitted 20) (start sampleConfig 0) clampedRun ∧
    ¬ ((run (step sampleConfig) (start sampleConfig 0) clampedRun).relayed : ℚ) ≤
      sampleConfig.rateLimit*((run (step sampleConfig) (start sampleConfig 0) clampedRun).now-0)+
        sampleConfig.rateLimit+Fintype.card (Fin 2)*20 := by
  decide +kernel

end Teleproxy.RateLimit
