import Mathlib.Algebra.BigOperators.Ring.Finset
import Mathlib.Algebra.Order.BigOperators.Group.Finset
import Mathlib.Tactic.Ring
import Teleproxy.MpqFifo

/-!
# Queues with a semaphore

`mpq_push_w` puts a value and then posts the semaphore of the queue; `mpq_pop_w` and
`mpq_pop_nw` wait for the semaphore, the second only a bounded number of times, and then take
a value that they expect to be there. How long a thread sleeps on the futex is left to the
scheduler: it may be woken at any time, and reads the value again.
-/
namespace Teleproxy.MpqSemaphore
open MpqBlock MpqSlots MpqOrder MpqList MpqChain MpqFifo
open StepSystem (run)

variable {ι V : Type*}

/-- Where a thread is in a call. In `mp_sem_trywait`, `n` attempts are left, this one
included, and `waits` tells `mpq_pop_w` from `mpq_pop_nw`; in `mp_sem_wait`, `q` counts how
often a negative value was read. -/
inductive WPc
  | rest
  | tryRead (n : ℕ) (waits : Bool)
  | tryTake (n : ℕ) (waits : Bool)
  | tryBack (n : ℕ) (waits : Bool)
  | waitRead (q : ℕ)
  | waitTake (q : ℕ)
  | waitBack (q : ℕ)
  | waitEnter
  | waitFutex
  | waitLeave
  | pop
  | push
  | post
  | wake
  | isEmpty
  | failed
deriving DecidableEq

/-- A queue with its semaphore, and the calls of all threads on it. -/
structure MpQueueW (ι V : Type*) where
  queue : MpQueue ι V
  value : ℤ
  waiting : ℤ
  wpcs : ι → WPc

def initMpQueueW : MpQueueW ι V where
  queue := initMpQueue
  value := 0
  waiting := 0
  wpcs _ := .rest

/-- The next attempt of `n`, or what follows the last one. -/
def tries (n : ℕ) (waits : Bool) : WPc :=
  if 0 < n then .tryRead n waits else if waits then .waitRead 0 else .rest

/-- The head of the loop of `mp_sem_wait`, after a value was read. -/
def waitNext (v : ℤ) (q : ℕ) : WPc :=
  if 0 < v then .waitTake q else if v < 0 ∧ q < 10 then .waitRead (q+1) else .waitEnter

/-- What follows an access inside `mpq_pop`: the pointer it returns must not be null. -/
def popEnd : Pc V → WPc
  | .popped (some _) => .rest
  | .popped none => .failed
  | _ => .pop

def pushEnd : Pc V → WPc
  | .pushed => .post
  | _ => .push

def emptyEnd : Pc V → WPc
  | .answered _ => .rest
  | _ => .isEmpty

inductive Action (ι V : Type*)
  | pushW (i : ι) (val : V)
  | popW (i : ι) (iterations : ℕ)
  | popNw (i : ι) (iterations : ℕ)
  | isEmpty (i : ι)
  | step (i : ι)

variable [DecidableEq ι] [DecidableEq V]

namespace MpQueueW

def goto (w : MpQueueW ι V) (i : ι) (pc : WPc) : MpQueueW ι V :=
  {w with wpcs := Function.update w.wpcs i pc}

/-- An access inside a call on the queue. -/
def access (w : MpQueueW ι V) (i : ι) (a : MpqList.Action ι V) (next : Pc V → WPc) :
    MpQueueW ι V where
  queue := MpqList.step w.queue a
  value := w.value
  waiting := w.waiting
  wpcs := Function.update w.wpcs i (next ((MpqList.step w.queue a).pcs i))

/-- `fetch_and_add` of the value. -/
def add (w : MpQueueW ι V) (d : ℤ) : MpQueueW ι V := {w with value := w.value+d}

/-- One access of a thread, in `mpq_pop_w`, `mpq_pop_nw`, `mpq_push_w` and the functions for
the semaphore. -/
def perform (w : MpQueueW ι V) (i : ι) : MpQueueW ι V :=
  match w.wpcs i with
  | .rest | .failed => w
  | .tryRead n waits => w.goto i (if 0 < w.value then .tryTake n waits else tries (n-1) waits)
  | .tryTake n waits =>
      if 0 < w.value then (w.add (-1)).access i (.pop i) popEnd
      else (w.add (-1)).goto i (.tryBack n waits)
  | .tryBack n waits => (w.add 1).goto i (tries (n-1) waits)
  | .waitRead q => w.goto i (waitNext w.value q)
  | .waitTake q =>
      if 0 < w.value then (w.add (-1)).access i (.pop i) popEnd
      else (w.add (-1)).goto i (.waitBack q)
  | .waitBack q => (w.add 1).goto i (waitNext (w.value+1) q)
  | .waitEnter => {w with waiting := w.waiting+1}.goto i .waitFutex
  | .waitFutex => w.goto i .waitLeave
  | .waitLeave => {w with waiting := w.waiting-1}.goto i (.waitRead 0)
  | .pop => w.access i (.step i) popEnd
  | .push => w.access i (.step i) pushEnd
  | .post => (w.add 1).goto i .wake
  -- a thread that sleeps is woken when `waiting` is positive; it may wake up in any case
  | .wake => w.goto i .rest
  | .isEmpty => w.access i (.step i) emptyEnd

end MpQueueW

def step (w : MpQueueW ι V) : Action ι V → MpQueueW ι V
  | .pushW i val => if w.wpcs i = .rest then w.access i (.push i val) pushEnd else w
  | .popW i n => if w.wpcs i = .rest then w.goto i (tries n true) else w
  | .popNw i n => if w.wpcs i = .rest then w.goto i (tries n false) else w
  | .isEmpty i => if w.wpcs i = .rest then w.access i (.isEmpty i) emptyEnd else w
  | .step i => w.perform i

end Teleproxy.MpqSemaphore
