import Mathlib.Data.Finset.Max
import Mathlib.Order.Fin.Basic
import Mathlib.Data.List.Perm.Basic
import Mathlib.Algebra.BigOperators.Group.List.Basic
import Mathlib.Algebra.GroupWithZero.Nat
import Teleproxy.Lib.StepSystem

/-!
# Signals and references of a job

Several threads send signals to a job, drop references to it and take it from
class queues. One word of flags holds the lock bit, a bit for each class the job
is queued in and a bit for each pending signal. Whoever gets the lock runs the
signals that are allowed and can be run on its thread; for another one it puts
the job into the queue of the signal's class. Each call of `job_send_signals`
and `job_decref` and each queue entry owns one reference.

A call in progress is an `Act`. Its steps are the single accesses to the flags,
the count and the queues; a compare-and-swap that fails is tried again with what
it then finds, so only the successful one is a step. A handler may make calls of
its own, which are acts like those of other threads.
-/
namespace Teleproxy.JobSignals
open StepSystem

abbrev Signal := Fin 8
abbrev Class := Fin 16

scoped instance neZero_signals : NeZero 8 := ⟨by decide⟩

scoped instance neZero_classes : NeZero 16 := ⟨by decide⟩

/-- `JS_FINISH` -/
abbrev jsFinish : Signal := 7

def jcMain : Class := 3

/-- Where a call is. -/
inductive Pc where
  /-- `job_send_signals`: the first test, the attempt to lock, the write of the bits and the
  second attempt. -/
  | send (sigset : Finset Signal)
  | sendLock (sigset : Finset Signal)
  | sendSet (sigset : Finset Signal)
  | sendRetry
  /-- `process_one_job`: the bits are to be read, then to be cleared with the lock or without. -/
  | popped
  | popLock (queued : Finset Class)
  | popClear (queued : Finset Class)
  | popRetry
  /-- `unlock_job`, with the lock: the head of the loop, before and in the handler. -/
  | unlock
  | begin (signo : Signal)
  | handler (signo : Signal)
  /-- The job is marked as queued and is still to be put into the queue. -/
  | push (c : Class)
  /-- The reference is dropped, at the end of `unlock_job` or by `job_decref`: the test of the
  count, the subtraction, the repair of a count that was 1, and the last reference. -/
  | drop (unlocking : Bool)
  | dropSub (unlocking : Bool)
  | dropRepair (unlocking : Bool)
  | dropLast (unlocking : Bool)
  deriving DecidableEq

/-- A call in progress with what it reads of its thread: the classes the thread may run, whether
it runs another job, and the subclass of the job when it was locked. -/
structure Act where
  pc : Pc
  mask : Finset Class
  busy : Bool
  subclass : ℤ := 0
  deriving DecidableEq

structure Job where
  locked : Bool
  queued : Finset Class := ∅
  pending : Finset Signal := ∅
  /-- `j_status` and `j_sigclass` -/
  allow : Finset Signal
  fast : Finset Signal := ∅
  sigclass : Signal → Class
  subclass : ℤ := 0
  refcnt : ℤ
  /-- References that are neither a queue's nor a call's. -/
  held : ℕ := 0
  /-- The class queues: for each entry the class it was made for. -/
  entries : List Class := []
  acts : List Act := []
  /-- How often the handler of `JS_FINISH` was started. -/
  finished : ℕ := 0
  destroyed : Bool := false

/-- What a handler leaves behind: the signals it returns and the signals it allows from now on. -/
structure Result where
  signals : Finset Signal := ∅
  allow : Finset Signal
  fast : Finset Signal := ∅
  sigclass : Signal → Class
  subclass : ℤ := 0

def Job.todo (j : Job) : Finset Signal := j.pending ∩ j.allow

/-- The call goes on at `pc`. -/
def Job.goOn (j : Job) (a : Act) (pc : Pc) : Job :=
  {j with acts := {a with pc := pc}::j.acts.erase a}

/-- The call returns. -/
def Job.leave (j : Job) (a : Act) : Job := {j with acts := j.acts.erase a}

/-- `try_lock_job` has succeeded. -/
def Job.lock (j : Job) (a : Act) : Job :=
  {j with locked := true, acts := {a with pc := .unlock, subclass := j.subclass}::j.acts.erase a}

/-- One round of `unlock_job` for the signal `signo`: run it here, or queue the job. -/
def Job.serve (j : Job) (a : Act) (signo : Signal) : Job :=
  let c := j.sigclass signo
  if c ∈ a.mask ∧ (signo ∈ j.fast ∨ a.busy = false) ∧ j.subclass = a.subclass then
    j.goOn a (.begin signo)
  else
    let c := if c = 0 then jcMain else c
    if c ∈ j.queued then {j with locked := false}.goOn a (.drop false)
    else {j with locked := false, queued := insert c j.queued}.goOn a (.push c)

/-- The next step of a call; a handler ends by an event of its own. -/
def Job.advance (j : Job) (a : Act) : Job :=
  match a.pc with
  | .send sigset =>
      if sigset ⊆ j.pending then j.goOn a (.drop false) else j.goOn a (.sendLock sigset)
  | .sendLock sigset =>
      if j.locked then j.goOn a (.sendSet sigset)
      else {j with pending := j.pending ∪ sigset}.lock a
  | .sendSet sigset => {j with pending := j.pending ∪ sigset}.goOn a .sendRetry
  | .sendRetry => if j.locked then j.goOn a (.drop false) else j.lock a
  | .popped => j.goOn a (.popLock (j.queued ∩ a.mask))
  | .popLock queued =>
      if j.locked then j.goOn a (.popClear queued)
      else {j with queued := j.queued \ queued}.lock a
  | .popClear queued => {j with queued := j.queued \ queued}.goOn a .popRetry
  | .popRetry => if j.locked then j.goOn a (.drop false) else j.lock a
  | .unlock =>
      if h : j.todo.Nonempty then j.serve a (j.todo.max' h)
      else {j with locked := false}.goOn a (.drop true)
  | .begin signo =>
      {j with
        pending := j.pending.erase signo
        finished := if signo = jsFinish then j.finished+1 else j.finished}.goOn a (.handler signo)
  | .handler _ => j
  | .push c => {j with entries := c::j.entries}.leave a
  | .drop unlocking =>
      if 2 ≤ j.refcnt then j.goOn a (.dropSub unlocking) else j.goOn a (.dropLast unlocking)
  | .dropSub unlocking =>
      if j.refcnt = 1 then {j with refcnt := 0}.goOn a (.dropRepair unlocking)
      else {j with refcnt := j.refcnt-1}.leave a
  | .dropRepair unlocking => {j with refcnt := 1}.goOn a (.dropLast unlocking)
  | .dropLast true =>
      -- without a handler for `JS_FINISH` the program stops here
      if jsFinish ∈ j.allow then
        {j with pending := insert jsFinish j.pending, locked := true}.goOn a .unlock
      else j
  | .dropLast false => j.goOn a (.send {jsFinish})

inductive Event where
  /-- A holder of a reference takes another one. -/
  | incref
  /-- A holder of a reference gives it to `job_send_signals` or to `job_decref`. -/
  | send (sigset : Finset Signal) (mask : Finset Class) (busy : Bool)
  | decref (mask : Finset Class) (busy : Bool)
  /-- A thread that may run class `c` takes an entry of that class from a queue. -/
  | pop (c : Class) (mask : Finset Class) (busy : Bool)
  | advance (a : Act)
  /-- The handler returns, or has destroyed the job. -/
  | returns (a : Act) (r : Option Result)

def Act.handles (a : Act) : Option Signal :=
  match a.pc with
  | .handler signo => some signo
  | _ => none

def Job.finishHandler (j : Job) (a : Act) : Option Result → Job
  | none => {j with destroyed := true}.leave a
  | some r =>
      {j with pending := j.pending ∪ r.signals, allow := r.allow, fast := r.fast,
              sigclass := r.sigclass, subclass := r.subclass}.goOn a .unlock

def step (j : Job) : Event → Job
  | .incref =>
      if 0 < j.held ∨ ∃ a ∈ j.acts, a.handles.isSome then
        {j with refcnt := j.refcnt+1, held := j.held+1}
      else j
  | .send sigset mask busy =>
      if 0 < j.held then
        {j with held := j.held-1, acts := ⟨.send sigset,mask,busy,0⟩::j.acts}
      else j
  | .decref mask busy =>
      if 0 < j.held then
        {j with held := j.held-1, acts := ⟨.drop false,mask,busy,0⟩::j.acts}
      else j
  | .pop c mask busy =>
      if c ∈ j.entries ∧ c ∈ mask then
        {j with entries := j.entries.erase c, acts := ⟨.popped,mask,busy,0⟩::j.acts}
      else j
  | .advance a => if a ∈ j.acts then j.advance a else j
  | .returns a r => if a ∈ j.acts ∧ a.handles.isSome then j.finishHandler a r else j

/-- A job as its creator has it: locked, with signals to be run and references for others. -/
structure Creation where
  allow : Finset Signal
  fast : Finset Signal := ∅
  sigclass : Signal → Class
  subclass : ℤ := 0
  signals : Finset Signal := ∅
  held : ℕ := 0
  mask : Finset Class
  busy : Bool := false

def start (x : Creation) : Job :=
  {locked := true, pending := x.signals, allow := x.allow, fast := x.fast, sigclass := x.sigclass,
   subclass := x.subclass, refcnt := x.held+1, held := x.held,
   acts := [⟨.unlock,x.mask,x.busy,x.subclass⟩]}

/-- The references a call still owns: none while it repairs a count that it took to 0. -/
def Pc.refs : Pc → ℕ
  | .dropRepair _ => 0
  | _ => 1

/-- The call has the lock. -/
def Pc.owns : Pc → Bool
  | .unlock | .begin _ | .handler _ => true
  | _ => false

/-- The call will try to take the lock, or puts the job into a queue. -/
def Pc.wakes : Pc → Bool
  | .sendRetry | .popped | .popLock _ | .popClear _ | .popRetry | .push _ => true
  | _ => false

/-- The call has seen that no other reference is left. -/
def Pc.alone : Pc → Bool
  | .dropRepair _ | .dropLast _ => true
  | _ => false

/-- The call answers for the queue bit of class `c`. -/
def Act.Backs (a : Act) (c : Class) : Prop :=
  match a.pc with
  | .popped => c ∈ a.mask
  | .popLock queued | .popClear queued => c ∈ queued
  | .push d => c = d
  | _ => False

theorem Act.Backs.wakes {a : Act} {c : Class} (h : a.Backs c) : a.pc.wakes := by
  obtain ⟨pc,mask,busy,subclass⟩ := a
  cases pc with
  | popped | popLock _ | popClear _ | push _ => rfl
  | _ => exact h.elim

/-- The number of references: held ones, queue entries and calls. -/
def Job.references (j : Job) : ℕ :=
  j.held+j.entries.length+(j.acts.map fun a => a.pc.refs).sum

/-- What holds in every state of a job that is not destroyed. -/
structure Alive (j : Job) : Prop where
  counted : j.refcnt = j.references
  owner : j.acts.countP (fun a => a.pc.owns) = j.locked.toNat
  backed : ∀ c ∈ j.queued, c ∈ j.entries ∨ ∃ a ∈ j.acts, a.Backs c
  awake : j.locked = false → j.todo.Nonempty → j.entries ≠ [] ∨ ∃ a ∈ j.acts, a.pc.wakes
  alone : ∀ a ∈ j.acts, a.pc.alone → j.held = 0 ∧ j.entries = [] ∧ j.acts = [a]

section Calls
variable {j j' : Job} {a a' : Act}

theorem references_of_mem (ha : a ∈ j.acts) :
    j.references = j.held+j.entries.length+a.pc.refs+
      ((j.acts.erase a).map fun b => b.pc.refs).sum := by
  have hsum := ((List.perm_cons_erase ha).map fun b => b.pc.refs).sum_eq
  rw [Job.references,hsum,List.map_cons,List.sum_cons]
  omega

theorem countP_of_mem (ha : a ∈ j.acts) :
    j.acts.countP (fun b => b.pc.owns) =
      (j.acts.erase a).countP (fun b => b.pc.owns)+a.pc.owns.toNat := by
  rw [(List.perm_cons_erase ha).countP_eq,List.countP_cons]
  cases a.pc.owns <;> rfl

theorem Alive.locked_of_owns (h : Alive j) (ha : a ∈ j.acts) (ho : a.pc.owns = true) :
    j.locked = true := by
  have hc := h.owner
  rw [countP_of_mem ha,ho] at hc
  cases hl : j.locked with
  | true => rfl
  | false => simp [hl] at hc

theorem erase_eq_nil_of_alone (h : Alive j) (ha : a ∈ j.acts) {b : Act} (hb : b ∈ j.acts.erase a)
    (hl : b.pc.alone = true) : False := by
  have hacts := (h.alone b (List.mem_of_mem_erase hb) hl).2.2
  rw [hacts] at ha hb
  simp only [List.mem_singleton] at ha
  simp [ha] at hb

/-- A step of one call, from `a` to `a'`. The rest of the job may change as far as the two answer
for it. -/
theorem Alive.goOn (h : Alive j) (ha : a ∈ j.acts) (hacts : j'.acts = a'::j.acts.erase a)
    (hheld : j'.held = j.held) (hentries : j'.entries = j.entries)
    (hrefs : j'.refcnt+a.pc.refs = j.refcnt+a'.pc.refs)
    (howner : j'.locked.toNat+a.pc.owns.toNat = j.locked.toNat+a'.pc.owns.toNat)
    (hback : ∀ c ∈ j'.queued, a'.Backs c ∨ c ∈ j.queued ∧ ¬ a.Backs c)
    (hawake : j'.locked = false → j'.todo.Nonempty → a'.pc.wakes ∨
      (j.locked = false ∧ j.todo.Nonempty ∧ ¬ a.pc.wakes) ∨ j.entries ≠ [] ∨
        ∃ b ∈ j.acts.erase a, b.pc.wakes)
    (halone : a'.pc.alone → j.held = 0 ∧ j.entries = [] ∧ j.acts.erase a = []) : Alive j' := by
  have hmem : ∀ {b : Act}, b ∈ j.acts → b = a ∨ b ∈ j.acts.erase a := fun hb => by
    simpa using (List.perm_cons_erase ha).subset hb
  have hfirst : a' ∈ j'.acts := by simp [hacts]
  have hrest : ∀ {b : Act}, b ∈ j.acts.erase a → b ∈ j'.acts := fun hb => by simp [hacts,hb]
  constructor
  · have hcounted := h.counted
    rw [references_of_mem ha] at hcounted
    simp only [Job.references,hacts,hheld,hentries,List.map_cons,List.sum_cons]
    push_cast at hcounted ⊢
    omega
  · have hown := h.owner
    rw [countP_of_mem ha] at hown
    rw [hacts,List.countP_cons]
    cases ho : a'.pc.owns <;> simp only [ho,Bool.toNat_true,Bool.toNat_false] at howner ⊢ <;>
      simp only [if_true,Bool.false_eq_true,if_false] <;> omega
  · intro c hc
    cases hback c hc with
    | inl hb => exact .inr ⟨a',hfirst,hb⟩
    | inr hold =>
        rw [hentries]
        cases h.backed c hold.1 with
        | inl he => exact .inl he
        | inr hb =>
            obtain ⟨b,hb,hc⟩ := hb
            cases hmem hb with
            | inl heq => exact (hold.2 (heq ▸ hc)).elim
            | inr hb => exact .inr ⟨b,hrest hb,hc⟩
  · intro hl ht
    rw [hentries]
    obtain hw | ⟨hl,ht,hn⟩ | he | ⟨b,hb,hw⟩ := hawake hl ht
    · exact .inr ⟨a',hfirst,hw⟩
    · cases h.awake hl ht with
      | inl he => exact .inl he
      | inr hb =>
          obtain ⟨b,hb,hw⟩ := hb
          cases hmem hb with
          | inl heq => exact (hn (heq ▸ hw)).elim
          | inr hb => exact .inr ⟨b,hrest hb,hw⟩
    · exact .inl he
    · exact .inr ⟨b,hrest hb,hw⟩
  · intro b hb hl
    rw [hacts,List.mem_cons] at hb
    cases hb with
    | inl heq =>
        obtain ⟨h0,he,hr⟩ := halone (heq ▸ hl)
        exact ⟨hheld.trans h0,hentries.trans he,by rw [hacts,hr,heq]⟩
    | inr hb => exact (erase_eq_nil_of_alone h ha hb hl).elim

/-- With a count of at most 1 a call that still owns its reference is the only one there is. -/
theorem Alive.alone_of_refcnt (h : Alive j) (ha : a ∈ j.acts) (hr : a.pc.refs = 1)
    (hle : j.refcnt ≤ 1) : j.held = 0 ∧ j.entries = [] ∧ j.acts.erase a = [] := by
  have hc := h.counted
  rw [references_of_mem ha,hr] at hc
  have hlen : j.entries.length = 0 := by omega
  have hsum : ((j.acts.erase a).map fun b => b.pc.refs).sum = 0 := by omega
  refine ⟨by omega,List.length_eq_zero_iff.mp hlen,?_⟩
  apply List.eq_nil_iff_forall_not_mem.mpr
  intro b hb
  have h0 : b.pc.refs = 0 := by
    apply List.sum_eq_zero_iff_forall_eq_nat.mp hsum
    exact List.mem_map_of_mem hb
  apply erase_eq_nil_of_alone h ha hb
  cases hpc : b.pc <;> simp [hpc,Pc.refs,Pc.alone] at h0 ⊢

theorem Alive.not_owns (h : Alive j) (ha : a ∈ j.acts) (hl : j.locked = false) :
    a.pc.owns = false := by
  cases ho : a.pc.owns with
  | false => rfl
  | true => simp [h.locked_of_owns ha ho] at hl

/-- A step that changes nothing but where the call is. -/
theorem Alive.move (h : Alive j) (ha : a ∈ j.acts) {pc : Pc} (hrefs : pc.refs = a.pc.refs)
    (howns : pc.owns = a.pc.owns)
    (hback : ∀ c ∈ j.queued, a.Backs c → {a with pc := pc}.Backs c)
    (hwakes : j.locked = false → a.pc.wakes → pc.wakes)
    (halone : pc.alone → j.held = 0 ∧ j.entries = [] ∧ j.acts.erase a = []) :
    Alive (j.goOn a pc) := by
  refine h.goOn ha rfl rfl rfl ?_ ?_ ?_ ?_ ?_
  · simp only [Job.goOn,hrefs]
  · simp only [Job.goOn,howns]
  · intro c hc
    by_cases hb : a.Backs c
    · exact .inl (hback c hc hb)
    · exact .inr ⟨hc,hb⟩
  · intro hl ht
    by_cases hw : a.pc.wakes = true
    · exact .inl (hwakes hl hw)
    · exact .inr (.inl ⟨hl,ht,hw⟩)
  · exact halone

/-- `try_lock_job` succeeds, with some signals set and some queue bits cleared. -/
theorem Alive.lock (h : Alive j) (ha : a ∈ j.acts) (hl : j.locked = false) (hrefs : a.pc.refs = 1)
    (pending : Finset Signal) {queued : Finset Class}
    (hq : ∀ c ∈ queued, c ∈ j.queued ∧ ¬ a.Backs c) :
    Alive ({j with pending := pending, queued := queued}.lock a) := by
  refine h.goOn ha rfl rfl rfl ?_ ?_ ?_ ?_ ?_
  · rw [hrefs]
    rfl
  · rw [hl,h.not_owns ha hl]
    rfl
  · exact fun c hc => .inr (hq c hc)
  · exact fun hf => Bool.noConfusion hf
  · exact fun hf => Bool.noConfusion hf

theorem Alive.advance_send (h : Alive j) {sigset : Finset Signal} {mask : Finset Class}
    {busy : Bool} {subclass : ℤ} (ha : ⟨.send sigset,mask,busy,subclass⟩ ∈ j.acts) :
    Alive (j.advance ⟨.send sigset,mask,busy,subclass⟩) := by
  dsimp only [Job.advance]
  split_ifs
  all_goals
    refine h.move ha rfl rfl ?_ ?_ ?_
    · simp [Act.Backs]
    · exact fun _ hw => Bool.noConfusion hw
    · simp [Pc.alone]

theorem Alive.advance_sendLock (h : Alive j) {sigset : Finset Signal} {mask : Finset Class}
    {busy : Bool} {subclass : ℤ} (ha : ⟨.sendLock sigset,mask,busy,subclass⟩ ∈ j.acts) :
    Alive (j.advance ⟨.sendLock sigset,mask,busy,subclass⟩) := by
  dsimp only [Job.advance]
  split_ifs with hl
  · refine h.move ha rfl rfl ?_ ?_ ?_
    · simp [Act.Backs]
    · exact fun _ hw => Bool.noConfusion hw
    · simp [Pc.alone]
  · apply h.lock ha (by simpa using hl) rfl
    exact fun c hc => ⟨hc,by simp [Act.Backs]⟩

theorem Alive.advance_sendSet (h : Alive j) {sigset : Finset Signal} {mask : Finset Class}
    {busy : Bool} {subclass : ℤ} (ha : ⟨.sendSet sigset,mask,busy,subclass⟩ ∈ j.acts) :
    Alive (j.advance ⟨.sendSet sigset,mask,busy,subclass⟩) := by
  refine h.goOn ha rfl rfl rfl rfl rfl ?_ ?_ ?_
  · exact fun c hc => .inr ⟨hc,by simp [Act.Backs]⟩
  · exact fun _ _ => .inl rfl
  · exact fun hf => Bool.noConfusion hf

/-- The second attempt to lock, of `job_send_signals` and of `process_one_job`. -/
theorem Alive.retry (h : Alive j) (ha : a ∈ j.acts) (hrefs : a.pc.refs = 1)
    (howns : a.pc.owns = false) (hback : ∀ c, ¬ a.Backs c) :
    Alive (if j.locked then j.goOn a (.drop false) else j.lock a) := by
  split_ifs with hl
  · refine h.move ha hrefs.symm howns.symm ?_ ?_ ?_
    · exact fun c _ hb => (hback c hb).elim
    · simp [hl]
    · simp [Pc.alone]
  · exact h.lock ha (by simpa using hl) hrefs j.pending fun c hc => ⟨hc,hback c⟩

theorem Alive.advance_popped (h : Alive j) {mask : Finset Class} {busy : Bool} {subclass : ℤ}
    (ha : ⟨.popped,mask,busy,subclass⟩ ∈ j.acts) :
    Alive (j.advance ⟨.popped,mask,busy,subclass⟩) := by
  refine h.move ha rfl rfl ?_ ?_ ?_
  · intro c hc hb
    simp only [Act.Backs] at hb ⊢
    exact Finset.mem_inter.mpr ⟨hc,hb⟩
  · exact fun _ _ => rfl
  · exact fun hf => Bool.noConfusion hf

theorem Alive.advance_popLock (h : Alive j) {queued mask : Finset Class} {busy : Bool}
    {subclass : ℤ} (ha : ⟨.popLock queued,mask,busy,subclass⟩ ∈ j.acts) :
    Alive (j.advance ⟨.popLock queued,mask,busy,subclass⟩) := by
  dsimp only [Job.advance]
  split_ifs with hl
  · refine h.move ha rfl rfl ?_ ?_ ?_
    · exact fun c _ hb => hb
    · exact fun _ _ => rfl
    · exact fun hf => Bool.noConfusion hf
  · apply h.lock ha (by simpa using hl) rfl
    intro c hc
    exact Finset.mem_sdiff.mp hc

theorem Alive.advance_popClear (h : Alive j) {queued mask : Finset Class} {busy : Bool}
    {subclass : ℤ} (ha : ⟨.popClear queued,mask,busy,subclass⟩ ∈ j.acts) :
    Alive (j.advance ⟨.popClear queued,mask,busy,subclass⟩) := by
  refine h.goOn ha rfl rfl rfl rfl rfl ?_ ?_ ?_
  · exact fun c hc => .inr (Finset.mem_sdiff.mp hc)
  · exact fun _ _ => .inl rfl
  · exact fun hf => Bool.noConfusion hf

/-- `unlock_job` gives the lock back, and the queue bits are as they were or the one that is new
is answered for. -/
theorem Alive.release (h : Alive j) {mask : Finset Class} {busy : Bool} {subclass : ℤ}
    (ha : ⟨.unlock,mask,busy,subclass⟩ ∈ j.acts) {pc : Pc} {queued : Finset Class}
    (hrefs : pc.refs = 1) (howns : pc.owns = false) (halone : pc.alone = false)
    (hq : ∀ c ∈ queued, Act.Backs ⟨pc,mask,busy,subclass⟩ c ∨ c ∈ j.queued)
    (hawake : j.todo.Nonempty → pc.wakes ∨ j.entries ≠ [] ∨
      ∃ b ∈ j.acts.erase ⟨.unlock,mask,busy,subclass⟩, b.pc.wakes) :
    Alive ({j with locked := false, queued := queued}.goOn ⟨.unlock,mask,busy,subclass⟩ pc) := by
  refine h.goOn ha rfl rfl rfl ?_ ?_ ?_ ?_ ?_
  · exact congrArg (fun n : ℕ => j.refcnt+n) hrefs.symm
  · rw [howns,h.locked_of_owns ha rfl]
    rfl
  · intro c hc
    exact (hq c hc).imp_right fun hq => ⟨hq,by simp [Act.Backs]⟩
  · intro _ ht
    exact (hawake ht).imp_right .inr
  · simp [halone]

/-- The signal cannot be run here: the job goes into the queue of class `c`, unless it is there. -/
theorem Alive.enqueue (h : Alive j) {mask : Finset Class} {busy : Bool} {subclass : ℤ}
    (ha : ⟨.unlock,mask,busy,subclass⟩ ∈ j.acts) (c : Class) :
    Alive (if c ∈ j.queued
      then {j with locked := false}.goOn ⟨.unlock,mask,busy,subclass⟩ (.drop false)
      else {j with locked := false, queued := insert c j.queued}.goOn
        ⟨.unlock,mask,busy,subclass⟩ (.push c)) := by
  split_ifs with hc
  · apply h.release ha rfl rfl rfl (fun d hd => .inr hd)
    intro _
    right
    cases h.backed c hc with
    | inl he => exact .inl (List.ne_nil_of_mem he)
    | inr hb =>
        -- the bit is answered for by another call: this one is at the head of its loop
        obtain ⟨b,hb,hbc⟩ := hb
        have hne : b ≠ ⟨.unlock,mask,busy,subclass⟩ := by
          intro heq
          simp [heq,Act.Backs] at hbc
        exact .inr ⟨b,(List.mem_erase_of_ne hne).mpr hb,hbc.wakes⟩
  · refine h.release ha rfl rfl rfl ?_ ?_
    · exact fun d hd => Finset.mem_insert.mp hd
    · exact fun _ => .inl rfl

theorem Alive.advance_unlock (h : Alive j) {mask : Finset Class} {busy : Bool} {subclass : ℤ}
    (ha : ⟨.unlock,mask,busy,subclass⟩ ∈ j.acts) :
    Alive (j.advance ⟨.unlock,mask,busy,subclass⟩) := by
  dsimp only [Job.advance]
  split
  · rw [Job.serve]
    split
    · refine h.move ha rfl rfl ?_ ?_ ?_
      · simp [Act.Backs]
      · exact fun _ hw => Bool.noConfusion hw
      · simp [Pc.alone]
    · exact h.enqueue ha _
  · next ht =>
      apply h.release ha rfl rfl rfl (fun d hd => .inr hd)
      exact fun hne => (ht hne).elim

theorem Alive.advance_begin (h : Alive j) {signo : Signal} {mask : Finset Class} {busy : Bool}
    {subclass : ℤ} (ha : ⟨.begin signo,mask,busy,subclass⟩ ∈ j.acts) :
    Alive (j.advance ⟨.begin signo,mask,busy,subclass⟩) := by
  refine h.goOn ha rfl rfl rfl rfl rfl ?_ ?_ ?_
  · exact fun c hc => .inr ⟨hc,by simp [Act.Backs]⟩
  · intro hl
    have : j.locked = false := hl
    simp [h.locked_of_owns ha rfl] at this
  · exact fun hf => Bool.noConfusion hf

/-- A call returns: its reference goes to a queue entry or out of the count. -/
theorem Alive.leave (h : Alive j) (ha : a ∈ j.acts) (hrefs : a.pc.refs = 1)
    (howns : a.pc.owns = false) (hacts : j'.acts = j.acts.erase a) (hheld : j'.held = j.held)
    (hlocked : j'.locked = j.locked) (hqueued : j'.queued = j.queued) (htodo : j'.todo = j.todo)
    (hcount : j'.refcnt+j.entries.length+1 = j.refcnt+j'.entries.length)
    (hsub : j.entries ⊆ j'.entries) (hback : ∀ c, a.Backs c → c ∈ j'.entries)
    (hwakes : a.pc.wakes → j'.entries ≠ []) : Alive j' := by
  have hmem : ∀ {b : Act}, b ∈ j.acts → b = a ∨ b ∈ j'.acts := fun hb => by
    simpa [hacts] using (List.perm_cons_erase ha).subset hb
  constructor
  · have hcounted := h.counted
    rw [references_of_mem ha] at hcounted
    simp only [Job.references,hacts,hheld]
    push_cast at hcounted ⊢
    omega
  · have hown := h.owner
    rw [countP_of_mem ha,howns] at hown
    rw [hacts,hlocked]
    exact hown
  · intro c hc
    rw [hqueued] at hc
    cases h.backed c hc with
    | inl he => exact .inl (hsub he)
    | inr hb =>
        obtain ⟨b,hb,hbc⟩ := hb
        cases hmem hb with
        | inl heq => exact .inl (hback c (heq ▸ hbc))
        | inr hb => exact .inr ⟨b,hb,hbc⟩
  · intro hl ht
    rw [hlocked] at hl
    rw [htodo] at ht
    cases h.awake hl ht with
    | inl he => exact .inl fun hnil => he (List.subset_nil.mp (hnil ▸ hsub))
    | inr hb =>
        obtain ⟨b,hb,hw⟩ := hb
        cases hmem hb with
        | inl heq => exact .inl (hwakes (heq ▸ hw))
        | inr hb => exact .inr ⟨b,hb,hw⟩
  · intro b hb hl
    rw [hacts] at hb
    exact (erase_eq_nil_of_alone h ha hb hl).elim

theorem Alive.advance_push (h : Alive j) {c : Class} {mask : Finset Class} {busy : Bool}
    {subclass : ℤ} (ha : ⟨.push c,mask,busy,subclass⟩ ∈ j.acts) :
    Alive (j.advance ⟨.push c,mask,busy,subclass⟩) := by
  refine h.leave ha rfl rfl rfl rfl rfl rfl rfl ?_ ?_ ?_ ?_
  · simp only [Job.advance,Job.leave,List.length_cons]
    push_cast
    omega
  · exact List.subset_cons_self c j.entries
  · intro d hd
    simp only [Act.Backs] at hd
    simp [Job.advance,Job.leave,hd]
  · simp [Job.advance,Job.leave]

theorem Alive.advance_drop (h : Alive j) {unlocking : Bool} {mask : Finset Class} {busy : Bool}
    {subclass : ℤ} (ha : ⟨.drop unlocking,mask,busy,subclass⟩ ∈ j.acts) :
    Alive (j.advance ⟨.drop unlocking,mask,busy,subclass⟩) := by
  dsimp only [Job.advance]
  split_ifs with hr
  · refine h.move ha rfl rfl ?_ ?_ ?_
    · simp [Act.Backs]
    · exact fun _ hw => Bool.noConfusion hw
    · simp [Pc.alone]
  · refine h.move ha rfl rfl ?_ ?_ ?_
    · simp [Act.Backs]
    · exact fun _ hw => Bool.noConfusion hw
    · exact fun _ => h.alone_of_refcnt ha rfl (by omega)

theorem Alive.advance_dropSub (h : Alive j) {unlocking : Bool} {mask : Finset Class} {busy : Bool}
    {subclass : ℤ} (ha : ⟨.dropSub unlocking,mask,busy,subclass⟩ ∈ j.acts) :
    Alive (j.advance ⟨.dropSub unlocking,mask,busy,subclass⟩) := by
  dsimp only [Job.advance]
  split_ifs with hr
  · refine h.goOn ha rfl rfl rfl ?_ rfl ?_ ?_ ?_
    · simp [Job.goOn,hr,Pc.refs]
    · exact fun c hc => .inr ⟨hc,by simp [Act.Backs]⟩
    · exact fun hl ht => .inr (.inl ⟨hl,ht,Bool.false_ne_true⟩)
    · exact fun _ => h.alone_of_refcnt ha rfl (by omega)
  · refine h.leave ha rfl rfl rfl rfl rfl rfl rfl ?_ ?_ ?_ ?_
    · simp only [Job.leave]
      omega
    · exact fun c hc => hc
    · simp [Act.Backs]
    · exact fun hw => Bool.noConfusion hw

theorem Alive.advance_dropRepair (h : Alive j) {unlocking : Bool} {mask : Finset Class}
    {busy : Bool} {subclass : ℤ} (ha : ⟨.dropRepair unlocking,mask,busy,subclass⟩ ∈ j.acts) :
    Alive (j.advance ⟨.dropRepair unlocking,mask,busy,subclass⟩) := by
  obtain ⟨hheld,hentries,hacts⟩ := h.alone _ ha rfl
  have hr : j.refcnt = 0 := by
    rw [h.counted,Job.references,hheld,hentries,hacts]
    rfl
  refine h.goOn ha rfl rfl rfl ?_ rfl ?_ ?_ ?_
  · simp [Job.advance,Job.goOn,hr,Pc.refs]
  · exact fun c hc => .inr ⟨hc,by simp [Act.Backs]⟩
  · exact fun hl ht => .inr (.inl ⟨hl,ht,Bool.false_ne_true⟩)
  · exact fun _ => ⟨hheld,hentries,by simp [hacts]⟩

theorem Alive.advance_dropLast (h : Alive j) {unlocking : Bool} {mask : Finset Class}
    {busy : Bool} {subclass : ℤ} (ha : ⟨.dropLast unlocking,mask,busy,subclass⟩ ∈ j.acts) :
    Alive (j.advance ⟨.dropLast unlocking,mask,busy,subclass⟩) := by
  obtain ⟨hheld,hentries,hacts⟩ := h.alone _ ha rfl
  have hl : j.locked = false := by
    have hown := h.owner
    rw [hacts] at hown
    cases hlocked : j.locked with
    | false => rfl
    | true => simp [hlocked,Pc.owns] at hown
  cases unlocking with
  | false =>
      refine h.move ha rfl rfl ?_ ?_ ?_
      · simp [Act.Backs]
      · exact fun _ hw => Bool.noConfusion hw
      · simp [Pc.alone]
  | true =>
      dsimp only [Job.advance]
      split_ifs
      · refine h.goOn ha rfl rfl rfl rfl ?_ ?_ ?_ ?_
        · rw [hl]
          rfl
        · exact fun c hc => .inr ⟨hc,by simp [Act.Backs]⟩
        · exact fun hf => Bool.noConfusion hf
        · exact fun hf => Bool.noConfusion hf
      · exact h

/-- Every step of a call keeps the invariant. -/
theorem Alive.advance (h : Alive j) (ha : a ∈ j.acts) : Alive (j.advance a) := by
  obtain ⟨pc,mask,busy,subclass⟩ := a
  cases pc with
  | send sigset => exact h.advance_send ha
  | sendLock sigset => exact h.advance_sendLock ha
  | sendSet sigset => exact h.advance_sendSet ha
  | sendRetry => exact h.retry ha rfl rfl fun c => by simp [Act.Backs]
  | popped => exact h.advance_popped ha
  | popLock queued => exact h.advance_popLock ha
  | popClear queued => exact h.advance_popClear ha
  | popRetry => exact h.retry ha rfl rfl fun c => by simp [Act.Backs]
  | unlock => exact h.advance_unlock ha
  | begin signo => exact h.advance_begin ha
  | handler signo => exact h
  | push c => exact h.advance_push ha
  | drop unlocking => exact h.advance_drop ha
  | dropSub unlocking => exact h.advance_dropSub ha
  | dropRepair unlocking => exact h.advance_dropRepair ha
  | dropLast unlocking => exact h.advance_dropLast ha

/-- A call begins, with a reference that was held or in a queue. -/
theorem Alive.enter (h : Alive j) (hrefs : a.pc.refs = 1) (howns : a.pc.owns = false)
    (hlast : a.pc.alone = false) (hacts : j'.acts = a::j.acts) (hrefcnt : j'.refcnt = j.refcnt)
    (hcount : j'.held+j'.entries.length+1 = j.held+j.entries.length)
    (hlocked : j'.locked = j.locked) (hqueued : j'.queued = j.queued) (htodo : j'.todo = j.todo)
    (hback : ∀ c ∈ j.entries, c ∈ j'.entries ∨ a.Backs c) : Alive j' := by
  constructor
  · have hcounted := h.counted
    simp only [Job.references] at hcounted
    simp only [Job.references,hacts,List.map_cons,List.sum_cons,hrefs]
    push_cast at hcounted ⊢
    omega
  · rw [hacts,List.countP_cons,h.owner,hlocked,howns]
    rfl
  · intro c hc
    rw [hqueued] at hc
    cases h.backed c hc with
    | inl he => exact (hback c he).imp_right fun hb => ⟨a,by simp [hacts],hb⟩
    | inr hb =>
        obtain ⟨b,hb,hbc⟩ := hb
        exact .inr ⟨b,by simp [hacts,hb],hbc⟩
  · intro hl ht
    rw [hlocked] at hl
    rw [htodo] at ht
    cases h.awake hl ht with
    | inl he =>
        obtain ⟨c,hc⟩ := List.exists_mem_of_ne_nil _ he
        cases hback c hc with
        | inl hc => exact .inl (List.ne_nil_of_mem hc)
        | inr hb => exact .inr ⟨a,by simp [hacts],hb.wakes⟩
    | inr hb =>
        obtain ⟨b,hb,hw⟩ := hb
        exact .inr ⟨b,by simp [hacts,hb],hw⟩
  · intro b hb hl
    rw [hacts,List.mem_cons] at hb
    cases hb with
    | inl heq => simp [heq,hlast] at hl
    | inr hb =>
        -- a call that has seen the last reference leaves none to begin with
        obtain ⟨hheld,hentries,_⟩ := h.alone b hb hl
        simp [hheld,hentries] at hcount

theorem Alive.incref (h : Alive j) (hg : 0 < j.held ∨ ∃ a ∈ j.acts, a.handles.isSome) :
    Alive {j with refcnt := j.refcnt+1, held := j.held+1} := by
  refine ⟨?_,h.owner,h.backed,h.awake,?_⟩
  · have hcounted := h.counted
    simp only [Job.references] at hcounted ⊢
    push_cast at hcounted ⊢
    omega
  · intro b hb hl
    obtain ⟨hheld,_,hacts⟩ := h.alone b hb hl
    cases hg with
    | inl hg => omega
    | inr hg =>
        obtain ⟨c,hc,hh⟩ := hg
        rw [hacts,List.mem_singleton] at hc
        cases hpc : b.pc <;> simp [hc,hpc,Act.handles,Pc.alone] at hh hl

theorem Act.owns_of_handles (hh : a.handles.isSome) : a.pc.owns = true := by
  cases hpc : a.pc <;> simp [hpc,Act.handles,Pc.owns] at hh ⊢

theorem Act.refs_of_owns (ho : a.pc.owns = true) : a.pc.refs = 1 := by
  cases hpc : a.pc <;> simp [hpc,Pc.owns,Pc.refs] at ho ⊢

theorem Alive.returns (h : Alive j) (ha : a ∈ j.acts) (hh : a.handles.isSome) (r : Result) :
    Alive (j.finishHandler a (some r)) := by
  have howns := Act.owns_of_handles hh
  refine h.goOn ha rfl rfl rfl ?_ ?_ ?_ ?_ ?_
  · rw [Act.refs_of_owns howns]
    rfl
  · rw [howns]
    rfl
  · refine fun c hc => .inr ⟨hc,?_⟩
    cases hpc : a.pc <;> simp [hpc,Act.handles,Act.Backs] at hh ⊢
  · intro hl
    have : j.locked = false := hl
    simp [h.locked_of_owns ha howns] at this
  · exact fun hf => Bool.noConfusion hf

end Calls

/-- Nobody is left to use a destroyed job. -/
structure Gone (j : Job) : Prop where
  destroyed : j.destroyed = true
  held : j.held = 0
  entries : j.entries = []
  acts : j.acts = []

theorem Gone.step {j : Job} (h : Gone j) (e : Event) : step j e = j := by
  cases e <;> simp [JobSignals.step,h.held,h.entries,h.acts]

/-- A handler destroys the job only with the last reference. -/
def Careful (j : Job) : Event → Prop
  | .returns a none => a ∈ j.acts → a.handles.isSome → j.refcnt = 1
  | _ => True

def Invariant (j : Job) : Prop := Gone j ∨ j.destroyed = false ∧ Alive j

section Steps
variable {j : Job} {a : Act}

@[simp] theorem advance_destroyed (j : Job) (a : Act) : (j.advance a).destroyed = j.destroyed := by
  obtain ⟨pc,mask,busy,subclass⟩ := a
  cases pc with
  | dropLast unlocking =>
      cases unlocking
      · rfl
      · dsimp only [Job.advance]
        split_ifs <;> rfl
  | unlock =>
      dsimp only [Job.advance,Job.serve]
      split_ifs <;> rfl
  | _ =>
      dsimp only [Job.advance]
      try split_ifs
      all_goals rfl

theorem Alive.gone (h : Alive j) (ha : a ∈ j.acts) (hh : a.handles.isSome) (hr : j.refcnt = 1) :
    Gone (j.finishHandler a none) := by
  obtain ⟨hheld,hentries,hacts⟩ :=
    h.alone_of_refcnt ha (Act.refs_of_owns (Act.owns_of_handles hh)) hr.le
  exact ⟨rfl,hheld,hentries,hacts⟩

/-- Every event keeps a job alive, unless a handler destroys it. -/
theorem Alive.step (h : Alive j) (hd : j.destroyed = false) (e : Event) (hok : Careful j e) :
    Invariant (step j e) := by
  cases e with
  | incref =>
      rw [JobSignals.step]
      split_ifs with hg
      · exact .inr ⟨hd,h.incref hg⟩
      · exact .inr ⟨hd,h⟩
  | send sigset mask busy =>
      rw [JobSignals.step]
      split_ifs with hg
      · refine .inr ⟨hd,h.enter rfl rfl rfl rfl rfl ?_ rfl rfl rfl fun c hc => .inl hc⟩
        dsimp only
        omega
      · exact .inr ⟨hd,h⟩
  | decref mask busy =>
      rw [JobSignals.step]
      split_ifs with hg
      · refine .inr ⟨hd,h.enter rfl rfl rfl rfl rfl ?_ rfl rfl rfl fun c hc => .inl hc⟩
        dsimp only
        omega
      · exact .inr ⟨hd,h⟩
  | pop c mask busy =>
      rw [JobSignals.step]
      split_ifs with hg
      · refine .inr ⟨hd,h.enter rfl rfl rfl rfl rfl ?_ rfl rfl rfl ?_⟩
        · have := List.length_erase_add_one hg.1
          dsimp only
          omega
        · intro d hdm
          by_cases heq : d = c
          · exact .inr (heq ▸ hg.2)
          · exact .inl ((List.mem_erase_of_ne heq).mpr hdm)
      · exact .inr ⟨hd,h⟩
  | advance a =>
      rw [JobSignals.step]
      split_ifs with ha
      · exact .inr ⟨by simpa using hd,h.advance ha⟩
      · exact .inr ⟨hd,h⟩
  | returns a r =>
      rw [JobSignals.step]
      split_ifs with ha
      · cases r with
        | none => exact .inl (h.gone ha.1 ha.2 (hok ha.1 ha.2))
        | some r => exact .inr ⟨hd,h.returns ha.1 ha.2 r⟩
      · exact .inr ⟨hd,h⟩

theorem invariant_step (j : Job) (e : Event) (h : Invariant j) (hok : Careful j e) :
    Invariant (step j e) := by
  cases h with
  | inl h =>
      rw [h.step e]
      exact .inl h
  | inr h => exact h.2.step h.1 e hok

theorem alive_start (x : Creation) : Alive (start x) := by
  constructor
  · simp [start,Job.references,Pc.refs]
  · simp [start,Pc.owns]
  · simp [start]
  · simp [start]
  · simp [start,Pc.alone]

end Steps

/-- The first three guarantees: one handler at a time, no signal forgotten, and the right count. -/
structure Sound (j : Job) : Prop where
  exclusive : (j.acts.filter fun a => a.handles.isSome).length ≤ 1
  awake : j.acts = [] → j.destroyed = false → j.todo.Nonempty → j.entries ≠ []
  counted : j.destroyed = false → j.refcnt = j.references

theorem Invariant.sound {j : Job} (h : Invariant j) : Sound j := by
  cases h with
  | inl h => exact ⟨by simp [h.acts],fun _ hd => by simp [h.destroyed] at hd,
      fun hd => by simp [h.destroyed] at hd⟩
  | inr h =>
      refine ⟨?_,?_,fun _ => h.2.counted⟩
      · calc (j.acts.filter fun a => a.handles.isSome).length
            = j.acts.countP (fun a => a.handles.isSome) := List.countP_eq_length_filter.symm
          _ ≤ j.acts.countP (fun a => a.pc.owns) :=
              List.countP_mono_left fun a _ hh => Act.owns_of_handles hh
          _ = j.locked.toNat := h.2.owner
          _ ≤ 1 := Bool.toNat_le j.locked
      · intro hacts _ ht
        have hl : j.locked = false := by
          have hown := h.2.owner
          rw [hacts] at hown
          cases hlocked : j.locked with
          | false => rfl
          | true => simp [hlocked] at hown
        have hawake := h.2.awake hl ht
        simpa [hacts] using hawake

end Teleproxy.JobSignals
