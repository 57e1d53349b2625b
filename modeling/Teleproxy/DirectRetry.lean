import Mathlib.Order.Nat
import Mathlib.Tactic.Push
import Mathlib.Tactic.SplitIfs
import Mathlib.Algebra.Group.Nat.Defs

/-!
# Retries of a direct connection

In direct mode a client is connected to a DC. An attempt fails at once when no
address gives a socket, or later when the socket is closed before the cipher of
the DC side is set. A failed attempt is repeated when the timer of the client
fires and its `extra` is empty. The number of the attempt is kept in `extra_int`
of the client, and it is cleared as soon as there is a socket.

Until the first socket `extra` is the RPC function table that every client starts
with, so the alarm behind a first attempt that fails at once does nothing.
-/
namespace Teleproxy.DirectRetry

def directMaxRetries : ℕ := 3

/-- `extra` of the client. Of a DC connection only counts here whether its cipher is set. -/
inductive Extra where
  | rpcFunctions
  | null
  | dc (crypto : Bool)
  deriving DecidableEq, Repr

structure Client where
  /-- `extra_int`: the number of the retry that is waited for, or 0. -/
  extraInt : ℕ := 0
  extra : Extra := .rpcFunctions
  /-- The job timer: the milliseconds it was armed for. -/
  timer : Option ℕ := none
  failed : Bool := false
  /-- The calls of `direct_try_dc_addrs`. -/
  attempts : ℕ := 0
  deriving DecidableEq, Repr

def directScheduleRetry (c : Client) (attempt : ℕ) : Client :=
  if directMaxRetries ≤ attempt then {c with failed := true}
  else {c with extraInt := attempt+1, timer := some (200*2^attempt)}

/-- `direct_retry_dc_connection`, given whether the DC is known and whether one of its
addresses gives a socket. -/
def directRetryDcConnection (c : Client) (known socket : Bool) : Client :=
  if known then
    let c := {c with attempts := c.attempts+1}
    if socket then {c with extra := .dc false, extraInt := 0}
    else directScheduleRetry c c.extraInt
  else {c with extraInt := 0, failed := true}

def directConnectToDc (c : Client) (known socket : Bool) : Client :=
  if known then
    let c := {c with attempts := c.attempts+1}
    if socket then {c with extra := .dc false} else directScheduleRetry c 0
  else {c with failed := true}

/-- `tcp_direct_close` of the DC connection. -/
def tcpDirectClose (c : Client) : Client :=
  match c.extra with
  | .dc crypto =>
      if crypto = false ∧ c.extraInt < directMaxRetries then
        directScheduleRetry {c with extra := .null} c.extraInt
      else {c with failed := true}
  | _ => c

/-- `tcp_direct_dc_send_obfs2_init` -/
def tcpDirectDcSendObfs2Init (c : Client) : Client :=
  match c.extra with
  | .dc _ => {c with extra := .dc true}
  | _ => c

/-- The alarm of a client that does not read too fast: `job_timer_check` clears the timer. -/
def tcpDirectClientAlarm (c : Client) (known socket : Bool) : Client :=
  let c := {c with timer := none}
  if c.extra = .null ∧ 0 < c.extraInt then directRetryDcConnection c known socket else c

/-- What becomes of an attempt. -/
inductive Outcome where
  | noSocket | closed | ready
  deriving DecidableEq, Repr

/-- There is a DC connection with its cipher, or the client is failed. -/
def Client.settled (c : Client) : Bool := c.failed || c.extra == .dc true

/-- The end of an attempt. -/
def Client.ends (c : Client) (o : Outcome) : Client :=
  match o with
  | .noSocket => c
  | .closed => tcpDirectClose c
  | .ready => tcpDirectDcSendObfs2Init c

/-- The first attempt, or the alarm of the client with the attempt that it may make, whose
outcome would be `o`. -/
def Client.turn (c : Client) (o : Outcome) : Client :=
  if c.settled then c
  else if c.attempts = 0 then (directConnectToDc c true (o != .noSocket)).ends o
  else if c.timer.isSome then (tcpDirectClientAlarm c true (o != .noSocket)).ends o
  else c

/-- After `n` turns, when attempt number `i` has the outcome `o i`. -/
def after (o : ℕ → Outcome) : ℕ → Client
  | 0 => {}
  | n+1 => (after o n).turn (o (after o n).attempts)

/-- The timer is armed for the retry that is waited for. -/
def Client.Armed (c : Client) : Prop :=
  0 < c.extraInt ∧ c.extraInt ≤ directMaxRetries ∧ c.timer = some (200*2^(c.extraInt-1))

/-- There is one attempt and at most `directMaxRetries` others, behind every failed attempt the
timer is armed or the client is failed, and every attempt but the first is made when it fires. -/
structure RetriesBounded (o : ℕ → Outcome) : Prop where
  attempts : ∀ n, (after o n).attempts ≤ 1+directMaxRetries
  armed : ∀ n, (after o n).attempts < (after o (n+1)).attempts →
    (after o (n+1)).settled = true ∨ (after o (n+1)).Armed
  fired : ∀ n, (after o n).attempts < (after o (n+1)).attempts → n = 0 ∨ (after o n).Armed

variable {c : Client} {o : ℕ → Outcome} {n : ℕ}

/-- The client waits for its timer, and `extra` lets the alarm make the next attempt. -/
structure Client.Waits (c : Client) : Prop where
  armed : c.Armed
  extra : c.extra = .null
  failed : c.failed = false
  begun : c.attempts ≠ 0

theorem Client.Waits.not_settled (h : c.Waits) : c.settled = false := by
  rw [Client.settled,h.failed,h.extra]
  rfl

theorem schedule_waits {a : ℕ} (hextra : c.extra = .null) (hf : c.failed = false)
    (hbegun : c.attempts ≠ 0) (ha : a < directMaxRetries) :
    (directScheduleRetry c a).Waits ∧ (directScheduleRetry c a).extraInt = a+1 ∧
      (directScheduleRetry c a).attempts = c.attempts := by
  rw [directScheduleRetry,if_neg (Nat.not_le.mpr ha)]
  exact ⟨⟨⟨Nat.succ_pos a,ha,rfl⟩,hextra,hf,hbegun⟩,rfl,rfl⟩

theorem turn_waits (hw : c.Waits) (x : Outcome) :
    c.turn x = (directRetryDcConnection {c with timer := none} true (x != .noSocket)).ends x := by
  have htimer : c.timer.isSome = true := by rw [hw.armed.2.2,Option.isSome_some]
  rw [Client.turn,hw.not_settled,if_neg (by simp),if_neg hw.begun,if_pos htimer,
    tcpDirectClientAlarm]
  dsimp only
  rw [if_pos ⟨hw.extra,hw.armed.1⟩]

theorem turn_ready (hw : c.Waits) :
    (c.turn .ready).settled = true ∧ (c.turn .ready).attempts = c.attempts+1 := by
  rw [turn_waits hw]
  exact ⟨by simp [directRetryDcConnection,Client.ends,tcpDirectDcSendObfs2Init,Client.settled],rfl⟩

/-- A retry whose socket is closed starts the count again. -/
theorem turn_closed (hw : c.Waits) :
    (c.turn .closed).Waits ∧ (c.turn .closed).extraInt = 1 ∧
      (c.turn .closed).attempts = c.attempts+1 := by
  rw [turn_waits hw]
  exact @schedule_waits
    {c with timer := none, attempts := c.attempts+1, extraInt := 0, extra := .null} 0 rfl
    hw.failed (Nat.succ_ne_zero _) (by decide)

theorem turn_noSocket (hw : c.Waits) :
    (c.turn .noSocket).attempts = c.attempts+1 ∧
      (c.extraInt < directMaxRetries → (c.turn .noSocket).Waits ∧
        (c.turn .noSocket).extraInt = c.extraInt+1) ∧
      (c.extraInt = directMaxRetries → (c.turn .noSocket).settled = true) := by
  have hmade : c.turn .noSocket =
      directScheduleRetry {c with timer := none, attempts := c.attempts+1} c.extraInt :=
    turn_waits hw .noSocket
  rw [hmade]
  refine ⟨?_,fun hlt => ?_,fun heq => ?_⟩
  · rw [directScheduleRetry]
    split_ifs
    · rfl
    · rfl
  · have hs := @schedule_waits {c with timer := none, attempts := c.attempts+1} c.extraInt
      hw.extra hw.failed (Nat.succ_ne_zero _) hlt
    exact ⟨hs.1,hs.2.1⟩
  · rw [directScheduleRetry,if_pos heq.ge]
    rfl

/-- A retry that is not ready is followed by another one, as long as the count allows it. -/
theorem turn_not_ready {x : Outcome} {k : ℕ} (hw : c.Waits) (hx : x ≠ .ready)
    (hk : c.extraInt ≤ k) (hlt : k < directMaxRetries) :
    (c.turn x).Waits ∧ (c.turn x).extraInt ≤ k+1 := by
  cases x with
  | ready => exact (hx rfl).elim
  | closed =>
      obtain ⟨hw',hx',-⟩ := turn_closed hw
      exact ⟨hw',by omega⟩
  | noSocket =>
      obtain ⟨hw',hx'⟩ := (turn_noSocket hw).2.1 (by omega)
      exact ⟨hw',by omega⟩

theorem attempts_of_waits (hw : c.Waits) (x : Outcome) : (c.turn x).attempts = c.attempts+1 := by
  cases x with
  | ready => exact (turn_ready hw).2
  | closed => exact (turn_closed hw).2.2
  | noSocket => exact (turn_noSocket hw).1

theorem after_one (o : ℕ → Outcome) :
    after o 1 = (directConnectToDc {} true (o 0 != .noSocket)).ends (o 0) := rfl

theorem after_settled (h : (after o n).settled = true) : after o (n+1) = after o n := by
  rw [after,Client.turn,if_pos h]

/-- No attempt follows a first one that gets no socket. -/
theorem after_refused (h0 : o 0 = .noSocket) (n : ℕ) :
    after o (n+2) = {extraInt := 1, attempts := 1} := by
  have hone : after o 1 = {extraInt := 1, attempts := 1, timer := some 200} := by
    rw [after_one,h0]
    rfl
  induction n with
  | zero =>
      rw [after,hone]
      show Client.turn _ (o 1) = _
      cases o 1 with
      | noSocket => rfl
      | closed => rfl
      | ready => rfl
  | succ n ih =>
      rw [after,ih]
      rfl

theorem after_first (h0 : o 0 = .closed) : (after o 1).Waits ∧ (after o 1).extraInt = 1 ∧
    (after o 1).attempts = 1 := by
  rw [after_one,h0]
  exact @schedule_waits {attempts := 1, extra := .null} 0 rfl rfl (by decide) (by decide)

/-- Every turn leaves the client settled or waiting, and is an attempt. -/
theorem after_cases (h0 : o 0 ≠ .noSocket) (n : ℕ) :
    (after o (n+1)).settled = true ∨ (after o (n+1)).Waits ∧ (after o (n+1)).attempts = n+1 := by
  induction n with
  | zero =>
      cases hx : o 0 with
      | noSocket => exact (h0 hx).elim
      | ready =>
          rw [after_one,hx]
          exact Or.inl rfl
      | closed => exact Or.inr ⟨(after_first hx).1,(after_first hx).2.2⟩
  | succ n ih =>
      rcases ih with hs | ⟨hw,hn⟩
      · rw [after_settled hs]
        exact Or.inl hs
      · rw [after]
        cases o (after o (n+1)).attempts with
        | ready => exact Or.inl (turn_ready hw).1
        | closed =>
            obtain ⟨hw',-,hn'⟩ := turn_closed hw
            exact Or.inr ⟨hw',by rw [hn',hn]⟩
        | noSocket =>
            obtain ⟨hn',hlt,heq⟩ := turn_noSocket hw
            rcases Nat.lt_or_ge (after o (n+1)).extraInt directMaxRetries with h | h
            · exact Or.inr ⟨(hlt h).1,by rw [hn',hn]⟩
            · exact Or.inl (heq (Nat.le_antisymm hw.armed.2.1 h))

theorem after_retry (h0 : o 0 ≠ .noSocket) (h : (after o (n+1)).Waits) :
    after o (n+1+1) = (after o (n+1)).turn (o (n+1)) := by
  have hn := ((after_cases h0 n).resolve_left (by simp [h.not_settled])).2
  rw [after,hn]

theorem settled_mono (h : (after o n).settled = true) (k : ℕ) : after o (n+k) = after o n := by
  induction k with
  | zero => rfl
  | succ k ih => rw [← Nat.add_assoc,after_settled (by rw [ih]; exact h),ih]

/-- No more attempts than turns. -/
theorem attempts_le (o : ℕ → Outcome) (n : ℕ) : (after o n).attempts ≤ n := by
  by_cases h0 : o 0 = .noSocket
  · match n with
    | 0 => exact Nat.le_refl 0
    | 1 =>
        rw [after_one,h0]
        exact Nat.le_refl 1
    | n+2 =>
        rw [after_refused h0]
        exact Nat.le_add_left 1 (n+1)
  induction n with
  | zero => exact Nat.le_refl 0
  | succ n ih =>
      rcases after_cases h0 n with hs | ⟨-,hn⟩
      · cases n with
        | zero =>
            rw [after_one]
            cases o 0 with
            | noSocket => exact Nat.le_refl 1
            | closed => exact Nat.le_refl 1
            | ready => exact Nat.le_refl 1
        | succ n =>
            rcases after_cases h0 n with hs' | ⟨hw,hn⟩
            · rw [after_settled hs']
              exact Nat.le_succ_of_le ih
            · rw [after_retry h0 hw,attempts_of_waits hw,hn]
      · exact hn.le

/-- An attempt is made at first or when the timer fires, and leaves the client settled or the
timer armed, whatever the outcomes. -/
theorem attempt_timed (o : ℕ → Outcome) (n : ℕ)
    (hn : (after o n).attempts < (after o (n+1)).attempts) :
    ((after o (n+1)).settled = true ∨ (after o (n+1)).Armed) ∧ (n = 0 ∨ (after o n).Armed) := by
  by_cases h0 : o 0 = .noSocket
  · match n with
    | 0 =>
        refine ⟨Or.inr ?_,Or.inl rfl⟩
        rw [after_one,h0]
        exact ⟨by decide,by decide,rfl⟩
    | 1 =>
        rw [after_refused h0 0,after_one,h0] at hn
        exact absurd hn (by decide)
    | n+2 =>
        rw [after_refused h0 n,after_refused h0 (n+1)] at hn
        exact absurd hn (by decide)
  refine ⟨(after_cases h0 n).imp id fun h => h.1.armed,?_⟩
  cases n with
  | zero => exact Or.inl rfl
  | succ n =>
      rcases after_cases h0 n with hs | ⟨hw,-⟩
      · rw [after_settled hs] at hn
        exact absurd hn (lt_irrefl _)
      · exact Or.inr hw.armed

theorem settled_of_ready (h0 : o 0 ≠ .noSocket) {i : ℕ} (h : o i = .ready) :
    (after o (i+1)).settled = true := by
  cases i with
  | zero =>
      rw [after_one,h]
      rfl
  | succ i =>
      rcases after_cases h0 i with hs | ⟨hw,-⟩
      · rw [after_settled hs,hs]
      · rw [after_retry h0 hw,h]
        exact (turn_ready hw).1

/-- Retries that get no socket are counted from 1. -/
theorem extraInt_of_noSocket (h0 : o 0 = .closed) (hno : ∀ i, 1 ≤ i → i ≤ n → o i = .noSocket)
    (hn : n < directMaxRetries) : (after o (n+1)).Waits ∧ (after o (n+1)).extraInt = n+1 := by
  induction n with
  | zero => exact ⟨(after_first h0).1,(after_first h0).2.1⟩
  | succ n ih =>
      obtain ⟨hw,hx⟩ := ih (fun i h1 hi => hno i h1 (Nat.le_succ_of_le hi)) (Nat.lt_of_succ_lt hn)
      rw [after_retry (by simp [h0]) hw,hno (n+1) (Nat.succ_pos n) (Nat.le_refl _)]
      obtain ⟨hw',hx'⟩ := (turn_noSocket hw).2.1 (by rw [hx]; exact hn)
      exact ⟨hw',by rw [hx',hx]⟩

theorem settled_of_noSocket (h0 : o 0 ≠ .noSocket)
    (hno : ∀ i, 1 ≤ i → i < 1+directMaxRetries → o i = .noSocket) :
    ∃ m ≤ 1+directMaxRetries, (after o m).settled = true := by
  cases hx : o 0 with
  | noSocket => exact (h0 hx).elim
  | ready => exact ⟨1,Nat.le_add_right 1 _,settled_of_ready h0 hx⟩
  | closed =>
      obtain ⟨hw,hcount⟩ := @extraInt_of_noSocket o 2 hx
        (fun i h1 hi => hno i h1 (Nat.lt_of_le_of_lt hi (by decide))) (by decide)
      refine ⟨3+1,Nat.le_refl _,?_⟩
      rw [after_retry h0 hw,hno 3 (by decide) (by decide)]
      exact (turn_noSocket hw).2.2 hcount

/-- A socket that is closed leaves room for further attempts. -/
theorem waits_behind_closed (h0 : o 0 ≠ .noSocket) {i : ℕ} (hi : (after o (i+1)).Waits)
    (hc : o (i+1) = .closed) (k : ℕ) (hk : k < directMaxRetries)
    (hr : ∀ j, i+1 < j → j ≤ i+1+k → o j ≠ .ready) :
    (after o (i+1+1+k)).Waits ∧ (after o (i+1+1+k)).extraInt ≤ k+1 := by
  induction k with
  | zero =>
      rw [Nat.add_zero,after_retry h0 hi,hc]
      obtain ⟨hw,hx,-⟩ := turn_closed hi
      exact ⟨hw,hx.le⟩
  | succ k ih =>
      obtain ⟨hw,hx⟩ := ih (Nat.lt_of_succ_lt hk) fun j hj hjk => hr j hj (Nat.le_succ_of_le hjk)
      rw [show i+1+1+(k+1) = i+1+k+1+1 by omega,
        after_retry h0 (by rw [show i+1+k+1 = i+1+1+k by omega]; exact hw),
        show i+1+k+1 = i+1+1+k by omega]
      exact turn_not_ready hw (hr (i+1+1+k) (by omega) (by omega)) hx hk

/-- The client waits behind the first `n` attempts when none of them is ready and there are
not too many. -/
theorem waits_of_not_ready (h0 : o 0 = .closed) (hn : n < directMaxRetries)
    (h : ∀ j ≤ n, o j ≠ .ready) : (after o (n+1)).Waits ∧ (after o (n+1)).extraInt ≤ n+1 := by
  induction n with
  | zero => exact ⟨(after_first h0).1,(after_first h0).2.1.le⟩
  | succ n ih =>
      obtain ⟨hw,hx⟩ := ih (Nat.lt_of_succ_lt hn) fun j hj => h j (Nat.le_succ_of_le hj)
      rw [after_retry (by simp [h0]) hw]
      exact turn_not_ready hw (h (n+1) (Nat.le_refl _)) (by omega) (by omega)

/-- The retries are bounded exactly when the first attempt gets no socket, which is never
repeated, or one of the first `1+directMaxRetries` attempts is ready, or each of them but the
first gets no socket. -/
theorem retries_bounded_iff (o : ℕ → Outcome) : RetriesBounded o ↔
    o 0 = .noSocket ∨ (∃ i < 1+directMaxRetries, o i = .ready) ∨
      ∀ i, 1 ≤ i → i < 1+directMaxRetries → o i = .noSocket := by
  constructor
  · intro h
    by_contra hcon
    rw [not_or,not_or] at hcon
    obtain ⟨h0,hready,hno⟩ := hcon
    push Not at hready hno
    obtain ⟨i,h1,hi,hsocket⟩ := hno
    obtain ⟨i,rfl⟩ := Nat.exists_eq_add_of_le' h1
    have hmax : directMaxRetries = 3 := rfl
    have hclosed : ∀ i < 1+directMaxRetries, o i ≠ .noSocket → o i = .closed := by
      intro i hi hsocket
      cases hx : o i with
      | noSocket => exact (hsocket hx).elim
      | closed => rfl
      | ready => exact (hready i hi hx).elim
    have hbefore := @waits_of_not_ready o i (hclosed 0 (by omega) h0) (by omega)
      fun j hj => hready j (by omega)
    have hbehind := waits_behind_closed h0 hbefore.1 (hclosed (i+1) hi hsocket) (2-i) (by omega)
      fun j _ hj => hready j (by omega)
    rw [show i+1+1+(2-i) = 3+1 by omega] at hbehind
    have hmade := attempts_of_waits hbehind.1 (o 4)
    rw [← after_retry h0 hbehind.1,((after_cases h0 3).resolve_left (by
      simp [hbehind.1.not_settled])).2] at hmade
    have hle : (after o (3+1+1)).attempts ≤ 1+directMaxRetries := h.attempts 5
    omega
  · intro h
    refine ⟨fun n => ?_,fun n hn => (attempt_timed o n hn).1,fun n hn => (attempt_timed o n hn).2⟩
    by_cases h0 : o 0 = .noSocket
    · rcases n with _ | _ | n
      · exact Nat.zero_le _
      · exact (attempts_le o 1).trans (by decide)
      · rw [after_refused h0]
        decide
    have hsettled : ∃ m ≤ 1+directMaxRetries, (after o m).settled = true := by
      rcases h.resolve_left h0 with ⟨i,hi,hr⟩ | hno
      · exact ⟨i+1,hi,settled_of_ready h0 hr⟩
      · exact settled_of_noSocket h0 hno
    obtain ⟨m,hm,hs⟩ := hsettled
    rcases Nat.le_total n m with hnm | hnm
    · exact (attempts_le o n).trans (hnm.trans hm)
    · obtain ⟨k,rfl⟩ := Nat.exists_eq_add_of_le hnm
      rw [settled_mono hs k]
      exact (attempts_le o m).trans hm

/-- Sockets that are closed each time: a fifth attempt is made. -/
theorem closed_sockets_not_bounded : ¬ RetriesBounded fun _ => .closed := by
  intro h
  have hfive : (after (fun _ => .closed) 5).attempts = 5 := by decide
  have hle := h.attempts 5
  rw [hfive] at hle
  exact absurd hle (by decide)

end Teleproxy.DirectRetry
