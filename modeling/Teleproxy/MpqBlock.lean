import Mathlib.Data.Nat.Bitwise
import Teleproxy.Lib.StepSystem
import Teleproxy.Lib.Tickets

/-!
# One block of a multi-thread queue

A block is a ring of nodes between two counters that only grow. A push takes a number from
`mqb_tail` and a pop one from `mqb_head`; both then work on the node of that number, with
compare-and-swap of the whole node. Many threads run these calls at once: here every access
to the block is a step of its own, and any thread may take the next one. The accesses are
taken to be sequentially consistent, and the counters do not reach `2 ^ 63`.
-/
namespace Teleproxy.MpqBlock
open StepSystem (run)
open Tickets (Issued)

variable {ι V : Type*}

def mpqSmallBlockSize : ℕ := 64
def mpqBlockSize : ℕ := 4096

/-- A node; `safe` is the bit `MQN_SAFE` of its index, `val` is `none` for a null pointer. -/
structure MpqNode (V : Type*) where
  safe : Bool
  idx : ℕ
  val : Option V
deriving DecidableEq

/-- A block; `closed` is the bit `MQN_SAFE` of `mqb_tail`. -/
structure MpQueueBlock (V : Type*) where
  head : ℕ
  tail : ℕ
  closed : Bool
  size : ℕ
  nodes : ℕ → MpqNode V

namespace MpQueueBlock

def slot (b : MpQueueBlock V) (t : ℕ) : ℕ := t &&& (b.size-1)

def node (b : MpQueueBlock V) (t : ℕ) : MpqNode V := b.nodes (b.slot t)

def setNode (b : MpQueueBlock V) (t : ℕ) (n : MpqNode V) : MpQueueBlock V :=
  {b with nodes := Function.update b.nodes (b.slot t) n}

variable {b : MpQueueBlock V} {t u : ℕ} {n : MpqNode V}

@[simp] theorem setNode_head : (b.setNode t n).head = b.head := rfl
@[simp] theorem setNode_tail : (b.setNode t n).tail = b.tail := rfl
@[simp] theorem setNode_closed : (b.setNode t n).closed = b.closed := rfl
@[simp] theorem setNode_size : (b.setNode t n).size = b.size := rfl
@[simp] theorem setNode_slot : (b.setNode t n).slot u = b.slot u := rfl

theorem node_congr (h : b.slot t = b.slot u) : b.node t = b.node u := congrArg b.nodes h

theorem setNode_same (h : b.slot u = b.slot t) : (b.setNode t n).node u = n := by
  rw [node,setNode_slot,h]
  exact Function.update_self ..

theorem setNode_other (h : b.slot u ≠ b.slot t) : (b.setNode t n).node u = b.node u :=
  Function.update_of_ne h ..

/-- Numbers a whole ring apart have the same node. -/
theorem slot_add_size (h : ∃ k, b.size = 2^k) : b.slot (t+b.size) = b.slot t := by
  obtain ⟨k,hk⟩ := h
  rw [slot,slot,hk,Nat.and_two_pow_sub_one_eq_mod,Nat.and_two_pow_sub_one_eq_mod,
    Nat.add_mod_right]

end MpQueueBlock

/-- A new block, whose first value is there from the beginning. -/
def allocMpqBlock (firstVal : Option V) (isSmall : Bool) : MpQueueBlock V where
  head := 0
  tail := if firstVal.isSome then 1 else 0
  closed := false
  size := if isSmall then mpqSmallBlockSize else mpqBlockSize
  nodes i := ⟨true,i,if i = 0 then firstVal else none⟩

/-- What a thread does next in its call. -/
inductive Op (V : Type*)
  | idle
  | popAdd
  | popVal (h : ℕ)
  | popIdx (h : ℕ) (val : Option V)
  | popSwap (h : ℕ) (d : MpqNode V)
  | popTail (h : ℕ)
  | fixTail
  | fixHead (closed : Bool) (t : ℕ)
  | fixAgain (t h : ℕ)
  | fixSwap (t h : ℕ)
  | popped (val : Option V)
  | pushAdd (val : V) (iterations : ℕ)
  | pushVal (val : V) (iterations t : ℕ)
  | pushIdx (val : V) (iterations t : ℕ) (oldVal : Option V)
  | pushHead (val : V) (iterations t : ℕ) (d : MpqNode V)
  | pushSwap (val : V) (iterations t : ℕ) (d : MpqNode V)
  | pushCheck (val : V) (iterations t : ℕ)
  | pushClose
  | pushed (pos : Option ℕ)

/-- What is remembered of a call: a value put under a number, a value taken from one, or
that a pop has found the block empty. -/
inductive Event (V : Type*)
  | pushed (t : ℕ) (val : V)
  | popped (t : ℕ) (val : V)
  | empty

structure Outcome (V : Type*) where
  block : MpQueueBlock V
  op : Op V
  event : Option (Event V) := none

/-- The node that a pop wants to have in the place of `d`, and what follows. -/
def popNode (b : MpQueueBlock V) (h : ℕ) (d : MpqNode V) : Outcome V :=
  match d.val with
  | some v =>
      if d.idx = h then
        ⟨b.setNode h ⟨d.safe,d.idx+b.size,none⟩,.popped (some v),some (.popped h v)⟩
      else ⟨b.setNode h ⟨false,d.idx,some v⟩,.popTail h,none⟩
  | none => ⟨b.setNode h ⟨d.safe,h+b.size,none⟩,.popTail h,none⟩

/-- One access of a thread to the block, in `mpq_block_pop`, `mpq_fix_state` and
`mpq_block_push`. -/
def perform [DecidableEq V] (b : MpQueueBlock V) : Op V → Outcome V
  | .idle => ⟨b,.idle,none⟩
  | .popAdd => ⟨{b with head := b.head+1},.popVal b.head,none⟩
  | .popVal h => ⟨b,.popIdx h (b.node h).val,none⟩
  | .popIdx h val =>
      if h < (b.node h).idx then ⟨b,.popTail h,none⟩
      else ⟨b,.popSwap h ⟨(b.node h).safe,(b.node h).idx,val⟩,none⟩
  | .popSwap h d => if b.node h = d then popNode b h d else ⟨b,.popVal h,none⟩
  | .popTail h => if b.tail ≤ h+1 then ⟨b,.fixTail,some .empty⟩ else ⟨b,.popAdd,none⟩
  | .fixTail => ⟨b,.fixHead b.closed b.tail,none⟩
  | .fixHead closed t =>
      -- a closed tail is larger than every head
      if closed ∨ b.head ≤ t then ⟨b,.popped none,none⟩ else ⟨b,.fixAgain t b.head,none⟩
  | .fixAgain t h =>
      if b.closed = false ∧ b.tail = t then ⟨b,.fixSwap t h,none⟩ else ⟨b,.fixTail,none⟩
  | .fixSwap t h =>
      if b.closed = false ∧ b.tail = t then ⟨{b with tail := h},.popped none,none⟩
      else ⟨b,.fixTail,none⟩
  | .popped val => ⟨b,.popped val,none⟩
  | .pushAdd val iterations =>
      ⟨{b with tail := b.tail+1},
        if b.closed then .pushed none else .pushVal val iterations b.tail,none⟩
  | .pushVal val iterations t => ⟨b,.pushIdx val iterations t (b.node t).val,none⟩
  | .pushIdx val iterations t oldVal =>
      if oldVal.isNone ∧ (b.node t).idx ≤ t then
        if (b.node t).safe then ⟨b,.pushSwap val iterations t ⟨true,(b.node t).idx,none⟩,none⟩
        else ⟨b,.pushHead val iterations t ⟨false,(b.node t).idx,none⟩,none⟩
      else ⟨b,.pushCheck val iterations t,none⟩
  | .pushHead val iterations t d =>
      if b.head ≤ t then ⟨b,.pushSwap val iterations t d,none⟩
      else ⟨b,.pushCheck val iterations t,none⟩
  | .pushSwap val iterations t d =>
      if b.node t = d then
        ⟨b.setNode t ⟨true,t,some val⟩,.pushed (some t),some (.pushed t val)⟩
      else ⟨b,.pushCheck val iterations t,none⟩
  | .pushCheck val iterations t =>
      if b.size+b.head ≤ t ∨ 10 < iterations+1 then ⟨b,.pushClose,none⟩
      else ⟨b,.pushAdd val (iterations+1),none⟩
  | .pushClose => ⟨{b with closed := true},.pushed none,none⟩
  | .pushed pos => ⟨b,.pushed pos,none⟩

/-- A thread that is not in a call. -/
def Op.Rests : Op V → Prop
  | .idle | .popped _ | .pushed _ => True
  | _ => False

instance : DecidablePred (Op.Rests (V := V)) := fun o => by
  cases o <;> unfold Op.Rests <;> infer_instance

/-- The number a pop has taken, while it has not finished with its node. -/
def Op.popTicket : Op V → Option ℕ
  | .popVal h | .popIdx h _ | .popSwap h _ => some h
  | _ => none

/-- The number a push has taken, while it may still write its value. -/
def Op.pushTicket : Op V → Option ℕ
  | .pushVal _ _ t | .pushIdx _ _ t _ | .pushHead _ _ t _ | .pushSwap _ _ t _ => some t
  | _ => none

def Event.push? : Event V → Option (ℕ × V)
  | .pushed t v => some (t,v)
  | _ => none

def Event.pop? : Event V → Option (ℕ × V)
  | .popped t v => some (t,v)
  | _ => none

/-- A block, the calls of all threads on it, and what has happened. -/
structure State (ι V : Type*) where
  block : MpQueueBlock V
  ops : ι → Op V
  log : List (ι × Event V)

/-- A new block, with its first value and the thread that has put it there. -/
def start (firstVal : Option (ι × V)) (isSmall : Bool) : State ι V where
  block := allocMpqBlock (firstVal.map Prod.snd) isSmall
  ops _ := .idle
  log := (firstVal.map fun p => (p.1,.pushed 0 p.2)).toList

inductive Action (ι V : Type*)
  | push (i : ι) (val : V)
  | pop (i : ι)
  | step (i : ι)

variable [DecidableEq ι]

def State.call (s : State ι V) (i : ι) (o : Op V) : State ι V :=
  {s with ops := Function.update s.ops i o}

/-- The access of one thread to the block, and what it is remembered by. -/
def State.settle (s : State ι V) (i : ι) (r : Outcome V) : State ι V where
  block := r.block
  ops := Function.update s.ops i r.op
  log := s.log++(r.event.map fun e => (i,e)).toList

def step [DecidableEq V] (s : State ι V) : Action ι V → State ι V
  | .push i val => if (s.ops i).Rests then s.call i (.pushAdd val 0) else s
  | .pop i => if (s.ops i).Rests then s.call i .popAdd else s
  | .step i => s.settle i (perform s.block (s.ops i))

def State.pushes (s : State ι V) : List (ℕ × V) := s.log.filterMap fun p => p.2.push?
def State.pops (s : State ι V) : List (ℕ × V) := s.log.filterMap fun p => p.2.pop?

end Teleproxy.MpqBlock
