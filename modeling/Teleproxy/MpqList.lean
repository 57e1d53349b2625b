import Teleproxy.MpqBlock

/-!
# A multi-thread queue: a list of blocks

A queue is a chain of blocks with two pointers into it. A push works on the block at the
tail; when the block refuses its value, a new block that begins with the value is linked
behind it. A pop works on the block at the head, and moves the head when the block is closed,
empty and not the last. A block is named by its place in the chain, so `mqb_next` is null
for the last one. Blocks are not reused: the hazard pointers, which decide when the memory of
a block may be given back, are not part of the model.
-/
namespace Teleproxy.MpqList
open MpqBlock

variable {ι V : Type*}

/-- Where a thread is in `mpq_pop`, `mpq_push` or `mpq_is_empty`; `q` is its `QB`. -/
inductive Pc (V : Type*)
  | idle
  | popHead
  | popCheck (q : ℕ)
  | popFirst (q : ℕ)
  | popNext (q : ℕ)
  | popSecond (q : ℕ)
  | popMove (q : ℕ)
  | popped (val : Option V)
  | pushTail (val : V)
  | pushCheck (val : V) (q : ℕ)
  | pushNext (val : V) (q : ℕ)
  | pushMove (val : V) (q : ℕ)
  | pushBlock (val : V) (q : ℕ)
  | pushSize (val : V) (q : ℕ)
  | pushLink (val : V) (q : ℕ) (isSmall : Bool)
  | pushMoved (q : ℕ)
  | pushed
  | emptyHead
  | emptyCheck (q : ℕ)
  | emptyFirst (q : ℕ)
  | emptyTail (q h : ℕ)
  | emptyNext (q : ℕ)
  | emptyMove (q : ℕ)
  | answered (empty : Bool)

/-- A queue of `count` blocks and the calls of all threads on it. -/
structure MpQueue (ι V : Type*) where
  head : ℕ
  tail : ℕ
  count : ℕ
  blocks : ℕ → State ι V
  pcs : ι → Pc V

/-- A queue after `init_mp_queue`. -/
def initMpQueue : MpQueue ι V where
  head := 0
  tail := 0
  count := 1
  blocks _ := start none true
  pcs _ := .idle

def Pc.Rests : Pc V → Prop
  | .idle | .popped _ | .pushed | .answered _ => True
  | _ => False

instance : DecidablePred (Pc.Rests (V := V)) := fun pc => by
  cases pc <;> unfold Pc.Rests <;> infer_instance

/-- Where a call of `mpq_block_pop` leads to; `next` follows when it has found nothing. -/
def popResult (pc next : Pc V) : Op V → Pc V
  | .popped (some v) => .popped (some v)
  | .popped none => next
  | _ => pc

/-- Where a call of `mpq_block_push` leads to. -/
def pushResult (pc next : Pc V) : Op V → Pc V
  | .pushed (some _) => .pushed
  | .pushed none => next
  | _ => pc

inductive Action (ι V : Type*)
  | push (i : ι) (val : V)
  | pop (i : ι)
  | isEmpty (i : ι)
  | step (i : ι)

variable [DecidableEq ι]

namespace MpQueue

def goto (w : MpQueue ι V) (i : ι) (pc : Pc V) : MpQueue ι V :=
  {w with pcs := Function.update w.pcs i pc}

def setBlock (w : MpQueue ι V) (q : ℕ) (s : State ι V) : MpQueue ι V :=
  {w with blocks := Function.update w.blocks q s}

/-- Compare-and-swap of `mq_head` from a block to the next one. -/
def moveHead (w : MpQueue ι V) (q : ℕ) : MpQueue ι V :=
  {w with head := if w.head = q then q+1 else w.head}

/-- Compare-and-swap of `mq_tail` from a block to the next one. -/
def moveTail (w : MpQueue ι V) (q : ℕ) : MpQueue ι V :=
  {w with tail := if w.tail = q then q+1 else w.tail}

/-- A new block behind the last one. -/
def link (w : MpQueue ι V) (i : ι) (val : V) (isSmall : Bool) : MpQueue ι V :=
  {w with
    count := w.count+1
    blocks := Function.update w.blocks w.count (start (some (i,val)) isSmall)}

variable [DecidableEq V]

/-- One access inside a call on the block `q`; `next` says where its result leads to. -/
def access (w : MpQueue ι V) (i : ι) (q : ℕ) (next : Op V → Pc V) : MpQueue ι V :=
  (w.setBlock q (MpqBlock.step (w.blocks q) (.step i))).goto i
    (next ((MpqBlock.step (w.blocks q) (.step i)).ops i))

/-- The beginning of a call on the block `q`. -/
def enter (w : MpQueue ι V) (i : ι) (q : ℕ) (a : MpqBlock.Action ι V) (pc : Pc V) : MpQueue ι V :=
  (w.setBlock q (MpqBlock.step (w.blocks q) a)).goto i pc

/-- One access of a thread, in `mpq_pop`, `mpq_push` and `mpq_is_empty`. -/
def perform (w : MpQueue ι V) (i : ι) : MpQueue ι V :=
  match w.pcs i with
  | .idle | .popped _ | .pushed | .answered _ => w
  | .popHead => w.goto i (.popCheck w.head)
  | .popCheck q => if w.head = q then w.enter i q (.pop i) (.popFirst q) else w.goto i .popHead
  | .popFirst q => w.access i q (popResult (.popFirst q) (.popNext q))
  | .popNext q =>
      if q+1 < w.count then w.enter i q (.pop i) (.popSecond q) else w.goto i (.popped none)
  | .popSecond q => w.access i q (popResult (.popSecond q) (.popMove q))
  | .popMove q => (w.moveHead q).goto i .popHead
  | .pushTail val => w.goto i (.pushCheck val w.tail)
  | .pushCheck val q => w.goto i (if w.tail = q then .pushNext val q else .pushTail val)
  | .pushNext val q =>
      if q+1 < w.count then w.goto i (.pushMove val q)
      else w.enter i q (.push i val) (.pushBlock val q)
  | .pushMove val q => (w.moveTail q).goto i (.pushTail val)
  | .pushBlock val q => w.access i q (pushResult (.pushBlock val q) (.pushSize val q))
  | .pushSize val q => w.goto i (.pushLink val q (w.head = q))
  | .pushLink val q isSmall =>
      if q+1 = w.count then (w.link i val isSmall).goto i (.pushMoved q)
      else w.goto i (.pushTail val)
  | .pushMoved q => (w.moveTail q).goto i .pushed
  | .emptyHead => w.goto i (.emptyCheck w.head)
  | .emptyCheck q => w.goto i (if w.head = q then .emptyFirst q else .emptyHead)
  | .emptyFirst q => w.goto i (.emptyTail q (w.blocks q).block.head)
  | .emptyTail q h =>
      if (w.blocks q).block.closed = false then
        w.goto i (.answered ((w.blocks q).block.tail ≤ h))
      else if h < (w.blocks q).block.tail then w.goto i (.answered false)
      else w.goto i (.emptyNext q)
  | .emptyNext q => w.goto i (if q+1 < w.count then .emptyMove q else .answered true)
  | .emptyMove q => (w.moveHead q).goto i .emptyHead

end MpQueue

def step [DecidableEq V] (w : MpQueue ι V) : Action ι V → MpQueue ι V
  | .push i val => if (w.pcs i).Rests then w.goto i (.pushTail val) else w
  | .pop i => if (w.pcs i).Rests then w.goto i .popHead else w
  | .isEmpty i => if (w.pcs i).Rests then w.goto i .emptyHead else w
  | .step i => w.perform i

end Teleproxy.MpqList
