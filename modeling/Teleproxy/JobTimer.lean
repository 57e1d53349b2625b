import Mathlib.Algebra.Order.Field.Rat
import Mathlib.Tactic.SplitIfs
import Teleproxy.Lib.StepSystem

/-!
# The timer of a job

A job has one timer. The time asked for is `real_wakeup_time`; it is written by
the holder of the job's lock. The time in effect is `wakeup_time`; it is written
on the thread of the timer manager the timer is bound to. A holder that runs on
that thread inserts the timer itself, any other one sends the manager a message.
The manager's thread takes messages from its queue and expired timers from its
heap. An expired timer whose two times agree gives the job the signal `JS_ALARM`,
and the handler of the signal begins with `job_timer_check`.

The calls of the holder on another thread and those of the manager are cut at
every access to what they share. On the manager's own thread the two cannot
overlap, so there a call of the holder is one step.
-/
namespace Teleproxy.JobTimer
open StepSystem

/-- A job thread; `this_job_thread` may also be null. -/
structure Thread where
  id : ℕ
  timerManager : Bool := false
  deriving DecidableEq, Repr

/-- How far the holder of the lock is in a call, when it runs on a foreign thread. -/
inductive Holder where
  | idle
  /-- `real_wakeup_time` is written. -/
  | stored
  /-- The reference for the message is taken. -/
  | referenced
  /-- `job_timer_check` begins. -/
  | check (thread : Option Thread)
  /-- The two times agree; the timer is to be removed. -/
  | passed (thread : Option Thread)
  deriving DecidableEq, Repr

/-- How far the thread of the manager is in a call. -/
inductive Manager where
  | idle
  | popped
  /-- `real_wakeup_time` is read, and whether the timer was in the heap. -/
  | read (r : ℚ) (active : Bool)
  /-- `wakeup_time` is written. -/
  | written (r : ℚ) (active : Bool)
  /-- The heap is changed. -/
  | placed (r : ℚ) (active : Bool)
  /-- The reference of the heap is taken or dropped, that of the message is not. -/
  | inserted
  /-- The expired timer is out of the heap. -/
  | fired
  /-- The gateway has found the two times equal, or not. -/
  | equal
  | skipped
  deriving DecidableEq, Repr

structure State where
  /-- The thread the timer is bound to, or 0. -/
  flags : ℕ := 0
  realWakeupTime : ℚ := 0
  wakeupTime : ℚ := 0
  inHeap : Bool := false
  /-- The messages for the job in the queue of the manager. -/
  queue : ℕ := 0
  /-- `JS_ALARM` is pending. -/
  alarm : Bool := false
  refcnt : ℤ
  /-- The references that are neither the heap's nor a message's. -/
  others : ℤ
  holder : Holder := .idle
  manager : Manager := .idle
  now : ℚ := 0
  /-- For each `job_timer_check` that returned 1, the time armed and the clock. -/
  returned : List (ℚ × ℚ) := []
  deriving DecidableEq, Repr

/-- The thread a timer is bound to after `job_timer_insert` on thread `t`, and whether the
insertion is made there and then. -/
def bind (flags : ℕ) (t : Option Thread) : ℕ × Bool :=
  if flags ≠ 0 then
    (flags,match t with
      | some t => t.id == flags
      | none => flags == 1)
  else
    match t with
    | none => (1,true)
    | some t =>
        if t.id = 1 then (1,true)
        else if t.timerManager then (t.id,true)
        else (1,false)

/-- `do_immediate_timer_insert` -/
def doImmediateTimerInsert (s : State) : State :=
  if 0 < s.realWakeupTime then
    {s with wakeupTime := s.realWakeupTime, inHeap := true,
            refcnt := if s.inHeap then s.refcnt else s.refcnt+1}
  else
    {s with wakeupTime := 0, inHeap := false,
            refcnt := if s.inHeap then s.refcnt-1 else s.refcnt}

/-- `job_timer_insert`, up to the write of `real_wakeup_time` when a message is sent. -/
def jobTimerInsert (t : Option Thread) (timeout : ℚ) (s : State) : State :=
  if s.realWakeupTime = timeout then s
  else
    let own := (bind s.flags t).2
    let s := {s with realWakeupTime := timeout, flags := (bind s.flags t).1}
    if own then doImmediateTimerInsert s else {s with holder := .stored}

/-- The test of `job_timer_check`. -/
def State.agrees (s : State) : Bool :=
  !(s.realWakeupTime == 0 || s.realWakeupTime != s.wakeupTime)

def State.record (s : State) : State := {s with returned := (s.realWakeupTime,s.now)::s.returned}

/-- `job_timer_check` on the thread of the manager. -/
def jobTimerCheck (t : Option Thread) (s : State) : State :=
  if s.agrees then jobTimerInsert t 0 s.record else s

/-- The holder goes on with its call. -/
def holderNext (s : State) : State :=
  match s.holder with
  | .idle => s
  | .check t =>
      if s.agrees then {s.record with holder := .passed t} else {s with holder := .idle}
  | .passed t => jobTimerInsert t 0 {s with holder := .idle}
  | .stored => {s with refcnt := s.refcnt+1, holder := .referenced}
  | .referenced => {s with queue := s.queue+1, holder := .idle}

/-- The time that `do_immediate_timer_insert` puts in effect. -/
def effective (r : ℚ) : ℚ := if 0 < r then r else 0

/-- The manager goes on with a message or with an expired timer. -/
def managerNext (s : State) : State :=
  match s.manager with
  | .idle => s
  | .popped => {s with manager := .read s.realWakeupTime s.inHeap}
  | .read r active => {s with wakeupTime := effective r, manager := .written r active}
  | .written r active => {s with inHeap := 0 < r, manager := .placed r active}
  | .placed r active =>
      {s with
        refcnt :=
          if 0 < r then if active then s.refcnt else s.refcnt+1
          else if active then s.refcnt-1 else s.refcnt
        manager := .inserted}
  | .inserted => {s with refcnt := s.refcnt-1, manager := .idle}
  | .fired =>
      {s with manager := if s.wakeupTime = s.realWakeupTime then .equal else .skipped}
  -- the reference of the heap goes to `job_signal`
  | .equal => {s with alarm := true, others := s.others+1, manager := .idle}
  | .skipped => {s with refcnt := s.refcnt-1, manager := .idle}

inductive Event where
  /-- The holder calls `job_timer_insert`, or `job_timer_remove` with 0. -/
  | insert (t : Option Thread) (timeout : ℚ)
  /-- The handler of `JS_ALARM` begins. -/
  | deliver (t : Option Thread)
  | holderNext
  | pop
  | expire
  | managerNext
  | clock (t : ℚ)
  /-- Other references are taken and dropped. -/
  | retain
  | release

/-- A call may begin on thread `t`: on the manager's own thread nothing else is going on. -/
def State.free (s : State) (t : Option Thread) : Prop :=
  s.holder = .idle ∧ ((bind s.flags t).2 = true → s.manager = .idle)

instance (s : State) (t : Option Thread) : Decidable (s.free t) := inferInstanceAs (Decidable (_ ∧ _))

def step (s : State) : Event → State
  | .insert t timeout => if s.free t then jobTimerInsert t timeout s else s
  | .deliver t =>
      if s.alarm ∧ s.free t then
        if (bind s.flags t).2 then jobTimerCheck t {s with alarm := false}
        else {s with alarm := false, holder := .check t}
      else s
  | .holderNext => holderNext s
  | .pop =>
      if s.manager = .idle ∧ 0 < s.queue then {s with queue := s.queue-1, manager := .popped} else s
  | .expire =>
      if s.manager = .idle ∧ s.inHeap ∧ s.wakeupTime ≤ s.now then
        {s with inHeap := false, manager := .fired}
      else s
  | .managerNext => managerNext s
  | .clock t => {s with now := max s.now t}
  | .retain => {s with refcnt := s.refcnt+1, others := s.others+1}
  | .release => if 0 < s.others then {s with refcnt := s.refcnt-1, others := s.others-1} else s

/-- A job with `n` references whose timer was never used. -/
def start (n : ℕ) : State := {refcnt := n, others := n}

/-- The manager has still to read `real_wakeup_time` for a message. -/
def State.Pending (s : State) : Prop :=
  0 < s.queue ∨ s.manager = .popped ∨ s.holder = .stored ∨ s.holder = .referenced

/-- The time in effect once the manager has done what it is at. -/
def State.coming (s : State) : ℚ :=
  match s.manager with
  | .read r _ => effective r
  | _ => s.wakeupTime

def State.comesToHeap (s : State) : Prop :=
  match s.manager with
  | .read r _ => 0 < r
  | .written r _ => 0 < r
  | _ => s.inHeap = true

/-- An expired timer is on its way to the handler. -/
def State.Ringing (s : State) : Prop :=
  s.manager = .fired ∨ s.manager = .equal ∨ s.alarm = true ∨
    ∃ t, s.holder = .check t ∨ s.holder = .passed t

/-- The reference of the heap, while the heap and the count may differ. -/
def State.heapRef (s : State) : ℤ :=
  match s.manager with
  | .placed _ active => if active then 1 else 0
  | _ => if s.inHeap then 1 else 0

/-- The reference that the manager's call has in hand. -/
def Manager.refs : Manager → ℤ
  | .idle => 0
  | _ => 1

def Holder.refs : Holder → ℤ
  | .referenced => 1
  | _ => 0

/-- What the manager remembers is right as long as its call lasts. -/
def State.Consistent (s : State) : Prop :=
  match s.manager with
  | .read _ active => active = s.inHeap
  | .written r active => active = s.inHeap ∧ s.wakeupTime = effective r
  | .placed r _ => s.inHeap = decide (0 < r) ∧ s.wakeupTime = effective r
  | .fired => s.inHeap = false ∧ 0 < s.wakeupTime
  | .skipped => s.Pending
  | _ => True

structure Sound (s : State) : Prop where
  accurate : s.Pending ∨ effective s.realWakeupTime = s.coming
  kept : 0 < s.realWakeupTime → s.Pending ∨ s.comesToHeap ∨ s.Ringing
  positive : (∀ r active, s.manager ≠ .written r active) → s.inHeap = true → 0 < s.wakeupTime
  consistent : s.Consistent
  foreign : ∀ t, s.holder = .check t ∨ s.holder = .passed t → (bind s.flags t).2 = false
  refs : s.refcnt = s.others+s.heapRef+s.queue+s.manager.refs+s.holder.refs

variable {s : State}

@[simp] theorem effective_pos {r : ℚ} (h : 0 < r) : effective r = r := if_pos h

theorem start_sound (n : ℕ) : Sound (start n) := by
  refine ⟨Or.inr rfl,?_,?_,trivial,?_,?_⟩
  · simp [start]
  · simp [start]
  · rintro t (h | h)
    · exact absurd h (by simp [start])
    · exact absurd h (by simp [start])
  · simp [start,State.heapRef,Manager.refs,Holder.refs]

theorem managerNext_sound (h : Sound s) : Sound (managerNext s) := by
  obtain ⟨haccurate,hkept,hpositive,hconsistent,hforeign,hrefs⟩ := h
  unfold managerNext
  cases hm : s.manager with
  | idle => exact ⟨haccurate,hkept,hpositive,hconsistent,hforeign,hrefs⟩
  | popped =>
      refine ⟨Or.inr rfl,?_,?_,rfl,hforeign,?_⟩
      · intro hpos
        exact Or.inr (Or.inl hpos)
      · intro _ hheap
        exact hpositive (by simp [hm]) hheap
      · simpa [State.heapRef,Manager.refs,hm] using hrefs
  | read r active =>
      simp only [State.Consistent,hm] at hconsistent
      refine ⟨?_,?_,?_,⟨hconsistent,rfl⟩,hforeign,?_⟩
      · simpa [State.Pending,State.coming,hm] using haccurate
      · simpa [State.Pending,State.comesToHeap,State.Ringing,hm] using hkept
      · intro hw
        exact (hw r active rfl).elim
      · simpa [State.heapRef,Manager.refs,hm] using hrefs
  | written r active =>
      simp only [State.Consistent,hm] at hconsistent
      refine ⟨?_,?_,?_,⟨rfl,hconsistent.2⟩,hforeign,?_⟩
      · simpa [State.Pending,State.coming,hm] using haccurate
      · simpa [State.Pending,State.comesToHeap,State.Ringing,hm] using hkept
      · intro _ hheap
        have hr : 0 < r := of_decide_eq_true hheap
        change 0 < s.wakeupTime
        rw [hconsistent.2,effective_pos hr]
        exact hr
      · simpa [State.heapRef,Manager.refs,hm,hconsistent.1] using hrefs
  | placed r active =>
      simp only [State.Consistent,hm] at hconsistent
      refine ⟨?_,?_,fun _ => hpositive (by simp [hm]),trivial,hforeign,?_⟩
      · simpa [State.Pending,State.coming,hm] using haccurate
      · simpa [State.Pending,State.comesToHeap,State.Ringing,hm] using hkept
      · simp only [State.heapRef,Manager.refs,hm] at hrefs
        simp only [State.heapRef,Manager.refs,hconsistent.1,decide_eq_true_eq]
        split_ifs at hrefs ⊢
        all_goals omega
  | inserted =>
      refine ⟨?_,?_,fun _ => hpositive (by simp [hm]),trivial,hforeign,?_⟩
      · simpa [State.Pending,State.coming,hm] using haccurate
      · simpa [State.Pending,State.comesToHeap,State.Ringing,hm] using hkept
      · simp only [State.heapRef,Manager.refs,hm] at hrefs ⊢
        omega
  | fired =>
      simp only [State.Consistent,hm] at hconsistent
      simp only [State.Pending,State.coming,hm,reduceCtorEq,false_or] at haccurate
      simp only [State.heapRef,Manager.refs,hm] at hrefs
      dsimp only
      split_ifs with heq
      · refine ⟨?_,?_,?_,trivial,hforeign,?_⟩
        · simpa [State.Pending,State.coming] using haccurate
        · intro _
          exact Or.inr (Or.inr (Or.inr (Or.inl rfl)))
        · simp [hconsistent.1]
        · simpa [State.heapRef,Manager.refs] using hrefs
      · have hpending : 0 < s.queue ∨ s.holder = .stored ∨ s.holder = .referenced := by
          refine haccurate.resolve_right fun he => ?_
          by_cases hpos : 0 < s.realWakeupTime
          · rw [effective_pos hpos] at he
            exact heq he.symm
          · rw [effective,if_neg hpos] at he
            exact absurd hconsistent.2 (by rw [← he]; exact lt_irrefl 0)
        have hnew : State.Pending {s with manager := .skipped} := by
          simpa [State.Pending] using hpending
        refine ⟨Or.inl hnew,fun _ => Or.inl hnew,?_,hnew,hforeign,?_⟩
        · simp [hconsistent.1]
        · simpa [State.heapRef,Manager.refs] using hrefs
  | equal =>
      refine ⟨?_,?_,fun _ => hpositive (by simp [hm]),trivial,hforeign,?_⟩
      · simpa [State.Pending,State.coming,hm] using haccurate
      · intro _
        exact Or.inr (Or.inr (Or.inr (Or.inr (Or.inl rfl))))
      · simp only [State.heapRef,Manager.refs,hm] at hrefs ⊢
        omega
  | skipped =>
      simp only [State.Consistent,State.Pending,hm,reduceCtorEq,false_or] at hconsistent
      have hnew : State.Pending {s with refcnt := s.refcnt-1, manager := .idle} := by
        simpa [State.Pending] using hconsistent
      refine ⟨Or.inl hnew,fun _ => Or.inl hnew,fun _ => hpositive (by simp [hm]),trivial,hforeign,?_⟩
      simp only [State.heapRef,Manager.refs,hm] at hrefs ⊢
      omega

/-- The immediate insertion puts in effect what is asked for, whatever was before. -/
theorem doImmediateTimerInsert_sound (hm : s.manager = .idle) (hh : s.holder = .idle)
    (hrefs : s.refcnt = s.others+(if s.inHeap then 1 else 0)+s.queue) :
    Sound (doImmediateTimerInsert s) := by
  unfold doImmediateTimerInsert
  split_ifs with hpos hheap hheap
  all_goals
    refine ⟨Or.inr ?_,fun _ => Or.inr (Or.inl ?_),?_,?_,?_,?_⟩
    · simp [State.coming,hm,effective,hpos]
    · simp_all [State.comesToHeap]
    · simp [hpos]
    · simp [State.Consistent,hm]
    · simp [hh]
    · simp [State.heapRef,Manager.refs,Holder.refs,hm,hh,hheap] at hrefs ⊢
      omega

/-- Steps of the holder leave what the manager remembers as it is. -/
theorem State.Consistent.of_same {s' : State} (hc : s.Consistent) (hm : s'.manager = s.manager)
    (hheap : s'.inHeap = s.inHeap) (hw : s'.wakeupTime = s.wakeupTime)
    (hp : s.manager = .skipped → s.Pending → s'.Pending) : s'.Consistent := by
  unfold State.Consistent at hc ⊢
  rw [hm,hheap,hw]
  cases hcase : s.manager with
  | skipped =>
      rw [hcase] at hc
      exact hp hcase hc
  | _ =>
      rw [hcase] at hc
      exact hc

/-- A write of `real_wakeup_time` that a message is to follow. -/
theorem stored_sound {t : Option Thread} {timeout : ℚ} {flags : ℕ} (h : Sound s)
    (hh : s.holder = .idle ∨ s.holder = .passed t) :
    Sound {s with realWakeupTime := timeout, flags := flags, holder := .stored} := by
  have hpending : State.Pending
      {s with realWakeupTime := timeout, flags := flags, holder := .stored} :=
    Or.inr (Or.inr (Or.inl rfl))
  refine ⟨Or.inl hpending,fun _ => Or.inl hpending,h.positive,
    h.consistent.of_same rfl rfl rfl fun _ _ => hpending,?_,?_⟩
  · simp
  · have hrefs := h.refs
    rcases hh with hh | hh
    · simpa [State.heapRef,Holder.refs,hh] using hrefs
    · simpa [State.heapRef,Holder.refs,hh] using hrefs

theorem Sound.refs_idle (h : Sound s) (hm : s.manager = .idle) (hh : s.holder = .idle) :
    s.refcnt = s.others+(if s.inHeap then 1 else 0)+s.queue := by
  have hrefs := h.refs
  simpa [State.heapRef,Manager.refs,Holder.refs,hm,hh] using hrefs

theorem jobTimerInsert_sound (h : Sound s) {t : Option Thread} (hfree : s.free t) (timeout : ℚ) :
    Sound (jobTimerInsert t timeout s) := by
  unfold jobTimerInsert
  split_ifs with heq
  · exact h
  · dsimp only
    split_ifs with hown
    · exact doImmediateTimerInsert_sound (hfree.2 hown) hfree.1 (h.refs_idle (hfree.2 hown) hfree.1)
    · exact stored_sound (t := t) h (Or.inl hfree.1)

/-- Where the two times differ, a message is on its way, or the manager is about to write. -/
theorem Sound.differs (h : Sound s) (hd : s.agrees = false) (hpos : 0 < s.realWakeupTime) :
    s.Pending ∨ ∃ r active, s.manager = .read r active ∧ 0 < r := by
  have hne : s.realWakeupTime ≠ s.wakeupTime := by
    intro he
    simp [State.agrees,he] at hd
    exact absurd hpos (by rw [he,hd]; exact lt_irrefl 0)
  refine h.accurate.imp_right fun he => ?_
  rw [effective_pos hpos] at he
  cases hm : s.manager with
  | read r active =>
      refine ⟨r,active,rfl,?_⟩
      by_contra hr
      rw [State.coming,hm] at he
      simp only [effective,if_neg hr] at he
      exact absurd hpos (by rw [he]; exact lt_irrefl 0)
  | _ => exact (hne (by simpa [State.coming,hm] using he)).elim

theorem jobTimerCheck_sound (h : Sound s) {t : Option Thread} (hown : (bind s.flags t).2 = true)
    (hm : s.manager = .idle) (hh : s.holder = .idle) :
    Sound (jobTimerCheck t {s with alarm := false}) := by
  have hrefs := h.refs_idle hm hh
  unfold jobTimerCheck
  split_ifs with hagrees
  · unfold jobTimerInsert State.record
    have hne : s.realWakeupTime ≠ 0 := by
      intro h0
      simp [State.agrees,h0] at hagrees
    dsimp only
    rw [if_neg hne,if_pos hown]
    exact doImmediateTimerInsert_sound hm hh hrefs
  · have hdiffer : s.agrees = false := Bool.not_eq_true _ ▸ hagrees
    refine ⟨h.accurate,?_,h.positive,h.consistent.of_same rfl rfl rfl fun _ => id,h.foreign,h.refs⟩
    intro hpos
    rcases h.differs hdiffer hpos with hp | ⟨r,active,hr,-⟩
    · exact Or.inl hp
    · rw [hm] at hr
      exact absurd hr (by simp)

/-- While `job_timer_check` runs on a foreign thread, no message of the holder is half done. -/
theorem pending_of_check (hh : ∃ t, s.holder = .check t ∨ s.holder = .passed t) (x : Holder) :
    s.Pending → State.Pending {s with holder := x} := by
  obtain ⟨t,hh⟩ := hh
  rintro (hq | hm | hs | hs)
  · exact Or.inl hq
  · exact Or.inr (Or.inl hm)
  · rcases hh with hh | hh
    · simp [hh] at hs
    · simp [hh] at hs
  · rcases hh with hh | hh
    · simp [hh] at hs
    · simp [hh] at hs

theorem check_sound (h : Sound s) {t : Option Thread} (hh : s.holder = .check t) :
    Sound (holderNext s) := by
  have hkeep := pending_of_check ⟨t,Or.inl hh⟩
  have hrefs := h.refs
  rw [hh] at hrefs
  unfold holderNext
  rw [hh]
  dsimp only
  split_ifs with hagrees
  · refine ⟨h.accurate.imp_left (hkeep _),?_,h.positive,
      h.consistent.of_same rfl rfl rfl fun _ => hkeep _,?_,hrefs⟩
    · intro _
      exact Or.inr (Or.inr (Or.inr (Or.inr (Or.inr ⟨t,Or.inr rfl⟩))))
    · rintro t' (he | he)
      · simp at he
      · obtain rfl := Holder.passed.inj he
        exact h.foreign t (Or.inl hh)
  · refine ⟨h.accurate.imp_left (hkeep _),?_,h.positive,
      h.consistent.of_same rfl rfl rfl fun _ => hkeep _,by simp,hrefs⟩
    intro hpos
    rcases h.differs (Bool.not_eq_true _ ▸ hagrees) hpos with hp | ⟨r,active,hr,hr0⟩
    · exact Or.inl (hkeep _ hp)
    · exact Or.inr (Or.inl (by simpa [State.comesToHeap,hr] using hr0))

theorem passed_sound (h : Sound s) {t : Option Thread} (hh : s.holder = .passed t) :
    Sound (holderNext s) := by
  have hkeep := pending_of_check ⟨t,Or.inr hh⟩
  have hrefs := h.refs
  rw [hh] at hrefs
  unfold holderNext
  rw [hh]
  dsimp only
  unfold jobTimerInsert
  have hforeign := h.foreign t (Or.inr hh)
  split_ifs with hzero
  · refine ⟨h.accurate.imp_left (hkeep _),?_,h.positive,
      h.consistent.of_same rfl rfl rfl fun _ => hkeep _,by simp,hrefs⟩
    intro hpos
    exact absurd hpos (by rw [hzero]; exact lt_irrefl 0)
  · dsimp only
    rw [if_neg (by simp [hforeign])]
    exact stored_sound h (Or.inr hh)

theorem holderNext_sound (h : Sound s) : Sound (holderNext s) := by
  cases hh : s.holder with
  | idle =>
      rw [holderNext,hh]
      exact h
  | check t => exact check_sound h hh
  | passed t => exact passed_sound h hh
  | stored =>
      have hrefs := h.refs
      rw [hh] at hrefs
      rw [holderNext,hh]
      have hpending : State.Pending {s with refcnt := s.refcnt+1, holder := .referenced} :=
        Or.inr (Or.inr (Or.inr rfl))
      refine ⟨Or.inl hpending,fun _ => Or.inl hpending,h.positive,
        h.consistent.of_same rfl rfl rfl fun _ _ => hpending,by simp,?_⟩
      change s.refcnt+1 = s.others+s.heapRef+s.queue+s.manager.refs+1
      simp [hrefs,Holder.refs]
  | referenced =>
      have hrefs := h.refs
      rw [hh] at hrefs
      rw [holderNext,hh]
      have hpending : State.Pending {s with queue := s.queue+1, holder := .idle} :=
        Or.inl (Nat.succ_pos _)
      refine ⟨Or.inl hpending,fun _ => Or.inl hpending,h.positive,
        h.consistent.of_same rfl rfl rfl fun _ _ => hpending,by simp,?_⟩
      change s.refcnt = s.others+s.heapRef+((s.queue+1 : ℕ) : ℤ)+s.manager.refs+0
      rw [hrefs,Holder.refs,Nat.cast_add]
      omega

theorem deliver_sound (h : Sound s) (t : Option Thread) : Sound (step s (.deliver t)) := by
  rw [step]
  split_ifs with hfree hown
  · exact jobTimerCheck_sound h hown (hfree.2.2 hown) hfree.2.1
  · have hrefs := h.refs
    rw [hfree.2.1] at hrefs
    have hkeep : s.Pending → State.Pending {s with alarm := false, holder := .check t} := by
      rintro (hq | hm | hs | hs)
      · exact Or.inl hq
      · exact Or.inr (Or.inl hm)
      · simp [hfree.2.1] at hs
      · simp [hfree.2.1] at hs
    refine ⟨h.accurate.imp_left hkeep,?_,h.positive,
      h.consistent.of_same rfl rfl rfl fun _ => hkeep,?_,hrefs⟩
    · intro _
      exact Or.inr (Or.inr (Or.inr (Or.inr (Or.inr ⟨t,Or.inl rfl⟩))))
    · rintro t' (he | he)
      · obtain rfl := Holder.check.inj he
        exact Bool.not_eq_true _ ▸ hown
      · simp at he
  · exact h

theorem pop_sound (h : Sound s) : Sound (step s .pop) := by
  rw [step]
  split_ifs with hpop
  · have hrefs := h.refs
    simp only [State.heapRef,Manager.refs,hpop.1] at hrefs
    have hpending : State.Pending {s with queue := s.queue-1, manager := .popped} :=
      Or.inr (Or.inl rfl)
    refine ⟨Or.inl hpending,fun _ => Or.inl hpending,fun _ => h.positive (by simp [hpop.1]),trivial,
      h.foreign,?_⟩
    simp only [State.heapRef,Manager.refs]
    omega
  · exact h

theorem expire_sound (h : Sound s) : Sound (step s .expire) := by
  rw [step]
  split_ifs with hfire
  · have hrefs := h.refs
    have hpos := h.positive (by simp [hfire.1]) hfire.2.1
    have haccurate := h.accurate
    simp only [State.heapRef,Manager.refs,hfire.1,hfire.2.1] at hrefs
    simp only [State.Pending,State.coming,hfire.1,reduceCtorEq,false_or] at haccurate
    refine ⟨?_,fun _ => Or.inr (Or.inr (Or.inl rfl)),?_,⟨rfl,hpos⟩,h.foreign,?_⟩
    · simpa [State.Pending,State.coming] using haccurate
    · simp
    · simp only [State.heapRef,Manager.refs] at hrefs ⊢
      simp at hrefs ⊢
      omega
  · exact h

theorem step_sound (h : Sound s) (e : Event) : Sound (step s e) := by
  cases e with
  | insert t timeout =>
      rw [step]
      split_ifs with hfree
      · exact jobTimerInsert_sound h hfree timeout
      · exact h
  | deliver t => exact deliver_sound h t
  | holderNext => exact holderNext_sound h
  | pop => exact pop_sound h
  | expire => exact expire_sound h
  | managerNext => exact managerNext_sound h
  | clock t => exact ⟨h.accurate,h.kept,h.positive,h.consistent,h.foreign,h.refs⟩
  | retain =>
      refine ⟨h.accurate,h.kept,h.positive,h.consistent.of_same rfl rfl rfl fun _ => id,h.foreign,?_⟩
      change s.refcnt+1 = s.others+1+s.heapRef+s.queue+s.manager.refs+s.holder.refs
      have := h.refs
      omega
  | release =>
      rw [step]
      split_ifs with hpos
      · refine ⟨h.accurate,h.kept,h.positive,h.consistent.of_same rfl rfl rfl fun _ => id,
          h.foreign,?_⟩
        change s.refcnt-1 = s.others-1+s.heapRef+s.queue+s.manager.refs+s.holder.refs
        have := h.refs
        omega
      · exact h

/-- Between the calls, an armed timer is in the heap with the time asked for, or a message for
it is in the queue, or the alarm is pending; the heap and each message have one reference. -/
theorem armed_timer_kept (n : ℕ) (es : List Event)
    (hholder : (run step (start n) es).holder = .idle)
    (hmanager : (run step (start n) es).manager = .idle) :
    let s := run step (start n) es
    (0 < s.realWakeupTime →
      s.inHeap = true ∧ s.wakeupTime = s.realWakeupTime ∨ 0 < s.queue ∨ s.alarm = true) ∧
    s.refcnt = s.others+(if s.inHeap then 1 else 0)+s.queue := by
  have h : Sound (run step (start n) es) :=
    run_preserves (P := Sound) (fun _ e hs => step_sound hs e) es (start_sound n)
  refine ⟨fun hpos => ?_,h.refs_idle hmanager hholder⟩
  have hpending : (run step (start n) es).Pending → 0 < (run step (start n) es).queue := by
    simp [State.Pending,hholder,hmanager]
  rcases h.accurate with hp | he
  · exact Or.inr (Or.inl (hpending hp))
  · rcases h.kept hpos with hp | hheap | hring
    · exact Or.inr (Or.inl (hpending hp))
    · simp only [State.comesToHeap,hmanager] at hheap
      rw [effective_pos hpos] at he
      exact Or.inl ⟨hheap,by simpa [State.coming,hmanager] using he.symm⟩
    · simp only [State.Ringing,hholder,hmanager,reduceCtorEq,false_or,or_false,exists_false] at hring
      exact Or.inr (Or.inr hring)

/-- A timer armed on a foreign thread, re-armed while the manager is at the first message. -/
def sampleRun : List Event :=
  [.insert (some ⟨2,false⟩) 5,.holderNext,.holderNext,.pop,.managerNext,
    .insert (some ⟨2,false⟩) 7,.managerNext,.managerNext,.managerNext,.managerNext,
    .holderNext,.holderNext]

theorem sampleRun_kept :
    let s := run step (start 1) sampleRun
    (s.holder = .idle ∧ s.manager = .idle ∧ s.realWakeupTime = 7 ∧ s.wakeupTime = 5) ∧
    (0 < s.realWakeupTime →
      s.inHeap = true ∧ s.wakeupTime = s.realWakeupTime ∨ 0 < s.queue ∨ s.alarm = true) ∧
    s.refcnt = s.others+(if s.inHeap then 1 else 0)+s.queue :=
  ⟨by decide +kernel,armed_timer_kept 1 sampleRun (by decide +kernel) (by decide +kernel)⟩

/-- Every `job_timer_check` that returned 1 did so when the time armed had come. -/
def Timely (s : State) : Prop := ∀ x ∈ s.returned, x.1 ≤ x.2

instance (s : State) : Decidable (Timely s) := inferInstanceAs (Decidable (∀ x ∈ s.returned, _))

def Holder.isCheck : Holder → Bool
  | .check _ => true
  | _ => false

/-- An alarm was given and its `job_timer_check` is not over. -/
def State.Alarmed (s : State) : Prop := s.alarm = true ∨ s.holder.isCheck = true

instance (s : State) : Decidable s.Alarmed := inferInstanceAs (Decidable (_ ∨ _))

/-- A time that is still to come is put in effect, by the holder on the manager's thread or by
the manager, only when no alarm is on its way. -/
def Settled (s : State) : Event → Prop
  | .insert t timeout =>
      s.alarm = true → (bind s.flags t).2 = true → s.realWakeupTime = timeout ∨ timeout ≤ s.now
  | .managerNext =>
      match s.manager with
      | .read r _ => s.Alarmed → effective r ≤ s.now
      | _ => True
  | _ => True

instance (s : State) : ∀ e, Decidable (Settled s e)
  | .insert t timeout =>
      inferInstanceAs (Decidable (s.alarm = true → (bind s.flags t).2 = true → _ ∨ _))
  | .managerNext =>
      match hm : s.manager with
      | .read r _ => decidable_of_iff (s.Alarmed → effective r ≤ s.now) (by simp [Settled,hm])
      | .idle => isTrue (by simp [Settled,hm])
      | .popped => isTrue (by simp [Settled,hm])
      | .written _ _ => isTrue (by simp [Settled,hm])
      | .placed _ _ => isTrue (by simp [Settled,hm])
      | .inserted => isTrue (by simp [Settled,hm])
      | .fired => isTrue (by simp [Settled,hm])
      | .equal => isTrue (by simp [Settled,hm])
      | .skipped => isTrue (by simp [Settled,hm])
  | .deliver _ => isTrue trivial
  | .holderNext => isTrue trivial
  | .pop => isTrue trivial
  | .expire => isTrue trivial
  | .clock _ => isTrue trivial
  | .retain => isTrue trivial
  | .release => isTrue trivial

/-- Behind an alarm that is on its way there is a time that has come. -/
structure Due (s : State) : Prop where
  clock : 0 ≤ s.now
  due : s.Alarmed ∨ s.manager = .fired ∨ s.manager = .equal → s.wakeupTime ≤ s.now
  timely : Timely s

theorem doImmediateTimerInsert_due {timeout : ℚ} {flags : ℕ} (h : Due s) (hm : s.manager = .idle)
    (hh : s.holder = .idle) (hsettled : s.alarm = true → timeout ≤ s.now) :
    Due (doImmediateTimerInsert {s with realWakeupTime := timeout, flags := flags}) := by
  unfold doImmediateTimerInsert
  by_cases hpos : 0 < timeout
  · rw [if_pos hpos]
    refine ⟨h.clock,?_,h.timely⟩
    intro hring
    simp only [State.Alarmed,hm,hh,Holder.isCheck,reduceCtorEq,Bool.false_eq_true,or_false] at hring
    exact hsettled hring
  · rw [if_neg hpos]
    exact ⟨h.clock,fun _ => h.clock,h.timely⟩

theorem jobTimerInsert_due (h : Due s) {t : Option Thread} (hfree : s.free t) {timeout : ℚ}
    (hsettled : s.alarm = true → (bind s.flags t).2 = true →
      s.realWakeupTime = timeout ∨ timeout ≤ s.now) : Due (jobTimerInsert t timeout s) := by
  unfold jobTimerInsert
  split_ifs with hsame
  · exact h
  · dsimp only
    split_ifs with hown
    · exact doImmediateTimerInsert_due h (hfree.2 hown) hfree.1
        fun ha => (hsettled ha hown).resolve_left hsame
    · refine ⟨h.clock,?_,h.timely⟩
      intro hring
      apply h.due
      simpa [State.Alarmed,Holder.isCheck,hfree.1] using hring

/-- A check that finds the two times equal records a time that has come. -/
theorem record_timely (h : Due s) (halarmed : s.Alarmed) (hagrees : s.agrees = true) :
    Timely s.record := by
  intro x hx
  rcases List.mem_cons.mp hx with rfl | hold
  · have heq : s.realWakeupTime = s.wakeupTime := by
      simp only [State.agrees,Bool.not_eq_true',Bool.or_eq_false_iff] at hagrees
      simpa using hagrees.2
    rw [heq]
    exact h.due (Or.inl halarmed)
  · exact h.timely x hold

theorem deliver_due (h : Due s) (t : Option Thread) : Due (step s (.deliver t)) := by
  rw [step]
  split_ifs with hfree hown
  · have halarmed : s.Alarmed := Or.inl hfree.1
    have hm := hfree.2.2 hown
    have hquiet : Due {s with alarm := false} := by
      refine ⟨h.clock,?_,h.timely⟩
      simp [State.Alarmed,Holder.isCheck,hm,hfree.2.1]
    unfold jobTimerCheck
    split_ifs with hagrees
    · have htimely : Timely s.record := record_timely h halarmed hagrees
      have hrecorded : Due (State.record {s with alarm := false}) :=
        ⟨h.clock,hquiet.due,htimely⟩
      exact jobTimerInsert_due hrecorded ⟨hfree.2.1,fun _ => hm⟩ (by simp [State.record])
    · exact hquiet
  · exact ⟨h.clock,fun _ => h.due (Or.inl (Or.inl hfree.1)),h.timely⟩
  · exact h

theorem holderNext_due (h : Due s) (hs : Sound s) : Due (holderNext s) := by
  unfold holderNext
  cases hh : s.holder with
  | idle => exact h
  | check t =>
      have halarmed : s.Alarmed := Or.inr (by rw [hh]; rfl)
      have hdue : s.wakeupTime ≤ s.now := h.due (Or.inl halarmed)
      dsimp only
      split_ifs with hagrees
      · exact ⟨h.clock,fun _ => hdue,record_timely h halarmed hagrees⟩
      · exact ⟨h.clock,fun _ => hdue,h.timely⟩
  | passed t =>
      have hforeign := hs.foreign t (Or.inr hh)
      have hidle : Due {s with holder := .idle} := by
        refine ⟨h.clock,?_,h.timely⟩
        intro hring
        apply h.due
        simpa [State.Alarmed,Holder.isCheck,hh] using hring
      exact jobTimerInsert_due hidle ⟨rfl,by simp [hforeign]⟩ (by simp [hforeign])
  | stored =>
      refine ⟨h.clock,?_,h.timely⟩
      intro hring
      apply h.due
      simpa [State.Alarmed,Holder.isCheck,hh] using hring
  | referenced =>
      refine ⟨h.clock,?_,h.timely⟩
      intro hring
      apply h.due
      simpa [State.Alarmed,Holder.isCheck,hh] using hring

theorem managerNext_due (h : Due s)
    (hsettled : ∀ r active, s.manager = .read r active → s.Alarmed → effective r ≤ s.now) :
    Due (managerNext s) := by
  -- a step that leaves the time in effect as it is
  have hcalm : ∀ x, x ≠ .fired → x ≠ .equal → ∀ s' : State, s'.manager = x → s'.alarm = s.alarm →
      s'.holder = s.holder → s'.wakeupTime = s.wakeupTime → s'.now = s.now →
      s'.returned = s.returned → Due s' := by
    intro x hfired hequal s' hm ha hh hw hnow hreturned
    refine ⟨by rw [hnow]; exact h.clock,?_,?_⟩
    · intro hring
      rw [hw,hnow]
      apply h.due
      rw [hm,or_iff_left (by simp [hfired,hequal])] at hring
      exact Or.inl (by simpa [State.Alarmed,ha,hh] using hring)
    · rw [Timely,hreturned]
      exact h.timely
  unfold managerNext
  cases hm : s.manager with
  | idle => exact h
  | popped => exact hcalm _ (by simp) (by simp) _ rfl rfl rfl rfl rfl rfl
  | read r active =>
      refine ⟨h.clock,?_,h.timely⟩
      intro hring
      simp only [reduceCtorEq,or_false] at hring
      exact hsettled r active hm hring
  | written r active => exact hcalm _ (by simp) (by simp) _ rfl rfl rfl rfl rfl rfl
  | placed r active => exact hcalm _ (by simp) (by simp) _ rfl rfl rfl rfl rfl rfl
  | inserted => exact hcalm .idle (by simp) (by simp) _ rfl rfl rfl rfl rfl rfl
  | fired => exact ⟨h.clock,fun _ => h.due (Or.inr (Or.inl hm)),h.timely⟩
  | equal => exact ⟨h.clock,fun _ => h.due (Or.inr (Or.inr hm)),h.timely⟩
  | skipped => exact hcalm .idle (by simp) (by simp) _ rfl rfl rfl rfl rfl rfl

theorem step_due (h : Due s) (hs : Sound s) (e : Event) (he : Settled s e) : Due (step s e) := by
  cases e with
  | insert t timeout =>
      rw [step]
      split_ifs with hfree
      · exact jobTimerInsert_due h hfree he
      · exact h
  | deliver t => exact deliver_due h t
  | holderNext => exact holderNext_due h hs
  | pop =>
      rw [step]
      split_ifs with hpop
      · refine ⟨h.clock,?_,h.timely⟩
        intro hring
        apply h.due
        simpa [State.Alarmed,hpop.1] using hring
      · exact h
  | expire =>
      rw [step]
      split_ifs with hfire
      · exact ⟨h.clock,fun _ => hfire.2.2,h.timely⟩
      · exact h
  | managerNext => exact managerNext_due h fun r active hr => by simpa [Settled,hr] using he
  | clock t =>
      exact ⟨h.clock.trans (le_max_left _ _),fun hring => (h.due hring).trans (le_max_left _ _),
        h.timely⟩
  | retain => exact ⟨h.clock,h.due,h.timely⟩
  | release =>
      rw [step]
      split_ifs
      · exact ⟨h.clock,h.due,h.timely⟩
      · exact h

/-- In a run in which no time still to come is put in effect behind an alarm, every check that
returns 1 does so when the time armed has come. -/
theorem checks_timely (n : ℕ) (es : List Event) (hes : Meets step Settled (start n) es) :
    Throughout step Timely (start n) es := by
  have hstart : Due (start n) ∧ Sound (start n) :=
    ⟨⟨le_refl 0,by simp [start,State.Alarmed,Holder.isCheck],by simp [Timely,start]⟩,start_sound n⟩
  exact throughout_of_invariant (P := fun s => Due s ∧ Sound s)
    (fun s e h he => ⟨step_due h.1 h.2 e he,step_sound h.2 e⟩) (fun _ h => h.1.timely) hstart hes

def mainThread : Option Thread := some ⟨1,true⟩

/-- The timer fires, and only its handler arms it again. -/
def timelyRun : List Event :=
  [.insert mainThread 5,.clock 5,.expire,.managerNext,.managerNext,.deliver mainThread,
    .insert mainThread 9]

theorem timelyRun_timely :
    (run step (start 1) timelyRun).returned = [(5,5)] ∧
    Throughout step Timely (start 1) timelyRun :=
  ⟨by decide +kernel,checks_timely 1 timelyRun (by decide +kernel)⟩

def netCpu : Option Thread := some ⟨3,false⟩

/-- The handlers run on the NET-CPU thread. The timer fires while one of them is at work; this
one arms it for a later time, and the manager takes the message up before the handler returns
and the alarm is delivered. -/
def staleRun : List Event :=
  [.insert mainThread 5,.clock 5,.expire,.managerNext,.managerNext,
    .insert netCpu 9,.holderNext,.holderNext,
    .pop,.managerNext,.managerNext,.managerNext,.managerNext,.managerNext,
    .deliver netCpu,.holderNext]

theorem staleRun_early :
    (run step (start 1) staleRun).returned = [(9,5)] ∧
      ¬ Throughout step Timely (start 1) staleRun := by
  have hreturned : (run step (start 1) staleRun).returned = [(9,5)] := by decide +kernel
  refine ⟨hreturned,fun h => ?_⟩
  have hlast := h.last
  rw [Timely,hreturned] at hlast
  exact absurd (hlast (9,5) (by simp)) (by decide +kernel)

end Teleproxy.JobTimer
