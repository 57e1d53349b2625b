import Teleproxy.MpqList
import Teleproxy.MpqOrder

/-!
# The chain of blocks of a queue

A block that is not the last one is closed, and a block before the head is drained: nothing
can be put into it any more except for a pop that waits for it. Each thread is inside at
most one block, and what it has seen of the chain stays true.
-/
namespace Teleproxy.MpqChain
open MpqBlock MpqSlots MpqOrder MpqList

variable {ι V : Type*} {b : MpQueueBlock V} {o : Op V} {r : Outcome V}

/-- A call of `mpq_block_pop` under way. -/
def InPop : Op V → Prop
  | .popAdd | .popVal _ | .popIdx _ _ | .popSwap _ _ | .popTail _ | .fixTail | .fixHead _ _
  | .fixAgain _ _ | .fixSwap _ _ => True
  | _ => False

/-- A call of `mpq_block_push` under way. -/
def InPush : Op V → Prop
  | .pushAdd _ _ | .pushVal _ _ _ | .pushIdx _ _ _ _ | .pushHead _ _ _ _ | .pushSwap _ _ _ _
  | .pushCheck _ _ _ | .pushClose => True
  | _ => False

theorem InPush.busy (h : InPush o) : ¬o.Rests ∧ ¬InPop o := by
  cases o <;> first | exact ⟨id,id⟩ | cases h

/-- A pop that has found the block empty. -/
def SawEmpty : Op V → Prop
  | .fixTail | .fixHead _ _ | .fixAgain _ _ | .fixSwap _ _ | .popped none => True
  | _ => False

theorem InPop.busy (h : InPop o) : ¬o.Rests := by
  cases o <;> first | exact id | cases h

theorem perform_inPop [DecidableEq V] (b : MpQueueBlock V) (h : InPop o) :
    InPop (perform b o).op ∨ ∃ val, (perform b o).op = .popped val := by
  cases o with
  | popIdx k val | popTail k | fixAgain t k =>
      dsimp only [perform]
      split <;> exact .inl trivial
  | fixHead closed t | fixSwap t k =>
      dsimp only [perform]
      split <;> first | exact .inr ⟨_,rfl⟩ | exact .inl trivial
  | popSwap k d =>
      dsimp only [perform,popNode]
      split
      · split
        · split
          · exact .inr ⟨_,rfl⟩
          · exact .inl trivial
        · exact .inl trivial
      · exact .inl trivial
  | popAdd | popVal k | fixTail => exact .inl trivial
  | idle | popped val | pushAdd val n | pushVal val n t | pushIdx val n t old | pushHead val n t d
  | pushSwap val n t d | pushCheck val n t | pushClose | pushed pos => cases h

theorem perform_inPush [DecidableEq V] (b : MpQueueBlock V) (h : InPush o) :
    InPush (perform b o).op ∨ ∃ pos, (perform b o).op = .pushed pos := by
  cases o with
  | pushAdd val n =>
      dsimp only [perform]
      split
      · exact .inr ⟨_,rfl⟩
      · exact .inl trivial
  | pushSwap val n t d =>
      dsimp only [perform]
      split
      · exact .inr ⟨_,rfl⟩
      · exact .inl trivial
  | pushIdx val n t old =>
      dsimp only [perform]
      split
      · split <;> exact .inl trivial
      · exact .inl trivial
  | pushHead val n t d | pushCheck val n t =>
      dsimp only [perform]
      split <;> exact .inl trivial
  | pushVal val n t => exact .inl trivial
  | pushClose => exact .inr ⟨_,rfl⟩
  | idle | popAdd | popVal k | popIdx k val | popSwap k d | popTail k | fixTail | fixHead closed t
  | fixAgain t k | fixSwap t k | popped val | pushed pos => cases h

/-- A pop learns that the block is empty when it reads the tail. -/
theorem perform_sawEmpty [DecidableEq V] (h : SawEmpty (perform b o).op) :
    SawEmpty o ∨ (perform b o).event = some .empty := by
  cases o with
  | popTail k =>
      dsimp only [perform] at h ⊢
      split at h
      next hshort => exact .inr (by rw [if_pos hshort])
      · cases h
  | popIdx k val =>
      dsimp only [perform] at h
      split at h <;> cases h
  | popSwap k d =>
      dsimp only [perform,popNode] at h
      split at h
      · split at h
        · split at h <;> cases h
        · cases h
      · cases h
  | pushIdx val n t old =>
      dsimp only [perform] at h
      split at h
      · split at h <;> cases h
      · cases h
  | pushHead val n t d | pushSwap val n t d | pushCheck val n t | pushAdd val n =>
      dsimp only [perform] at h
      split at h <;> cases h
  | idle | popAdd | popVal k | pushVal val n t | pushClose | pushed pos => cases h
  | fixTail | fixHead closed t | fixAgain t k | fixSwap t k => exact .inl trivial
  | popped val => exact .inl h

/-- A push is refused by a closed block only. -/
theorem perform_refused [DecidableEq V] (hop : ¬o.Rests) (h : (perform b o).op = .pushed none) :
    (perform b o).block.closed = true := by
  cases o with
  | pushAdd val n =>
      dsimp only [perform] at h ⊢
      split at h
      next hclosed => exact hclosed
      · cases h
  | pushClose => rfl
  | popIdx k val | fixHead closed t | fixAgain t k | popTail k | fixSwap t k
  | pushHead val n t d | pushSwap val n t d | pushCheck val n t =>
      dsimp only [perform] at h
      split at h <;> cases h
  | popSwap k d =>
      dsimp only [perform,popNode] at h
      split at h
      · split at h
        · split at h <;> cases h
        · cases h
      · cases h
  | pushIdx val n t old =>
      dsimp only [perform] at h
      split at h
      · split at h <;> cases h
      · cases h
  | popAdd | popVal k | fixTail | pushVal val n t => cases h
  | idle | popped val | pushed pos => exact absurd trivial hop

/-- A closed block whose numbers are all below its head. -/
structure Drained (s : State ι V) : Prop where
  closed : s.block.closed = true
  pushed : ∀ u ∈ pushed s, u < s.block.head
  held : ∀ i u, (s.ops i).pushTicket = some u → u < s.block.head

theorem empty_short [DecidableEq V] {s : State ι V} {i : ι} (hs : Inv s)
    (h : (perform s.block (s.ops i)).event = some .empty) : s.block.tail ≤ s.block.head := by
  obtain ⟨k,hop,hshort⟩ := move_empty_tail (perform_move _ _) h
  have hfit := hs.fits i
  rw [hop] at hfit
  exact hshort.trans hfit

section
variable {s : State ι V} {i : ι}

/-- What has been put into a drained block is taken, or reserved by a pop. -/
theorem Drained.served (h : Drained s) (hs : Inv s) {u : ℕ} (hu : u ∈ MpqSlots.pushed s) :
    u ∈ popped s ∨ Holds s u := by
  by_cases hin : u ∈ popped s
  · exact .inl hin
  · exact .inr (hs.served u hu hin (h.pushed u hu))

/-- All numbers of a block are below a counter that has reached its tail. -/
theorem drained_of_tail (hs : Inv s) (hclosed : s.block.closed = true)
    (hshort : s.block.tail ≤ s.block.head) : Drained s where
  closed := hclosed
  pushed u hu := (hs.pushes.usedBelow u hu).trans_le hshort
  held i u hu := (hs.pushes.below i u hu).trans_le hshort

variable [DecidableEq ι]

theorem Drained.call (h : Drained s) {o : Op V} (ho : o.pushTicket = none) :
    Drained (s.call i o) := by
  refine ⟨h.closed,h.pushed,fun j u hu => ?_⟩
  change (Function.update s.ops i o j).pushTicket = _ at hu
  by_cases hji : j = i
  · subst hji
    rw [Function.update_self,ho] at hu
    cases hu
  · rw [Function.update_of_ne hji] at hu
    exact h.held j u hu

theorem mem_pushed_settle {u : ℕ} (hm : Move s.block (s.ops i) r)
    (hu : u ∈ MpqSlots.pushed (s.settle i r)) :
    u ∈ MpqSlots.pushed s ∨ (s.ops i).pushTicket = some u := by
  rw [MpqSlots.pushed,pushes_settle,List.map_append] at hu
  rcases List.mem_append.mp hu with hu | hu
  · exact .inl hu
  · right
    obtain ⟨p,hp,rfl⟩ := List.mem_map.mp hu
    rw [Option.mem_toList,Option.bind_eq_some_iff] at hp
    obtain ⟨e,he,hpush⟩ := hp
    cases e with
    | pushed t v =>
        cases hpush
        exact move_pushed hm he
    | popped t v => cases hpush
    | empty => cases hpush

theorem Drained.settle (h : Drained s) (hs : Inv s) (hm : Move s.block (s.ops i) r) :
    Drained (s.settle i r) := by
  have hcounters := move_counters hm (hs.fits i)
  refine ⟨hcounters.2.2 h.closed,fun u hu => ?_,fun j u hu => ?_⟩
  · refine lt_of_lt_of_le ?_ hcounters.1
    rcases mem_pushed_settle hm hu with hu | hu
    · exact h.pushed u hu
    · exact h.held i u hu
  · refine lt_of_lt_of_le ?_ hcounters.1
    change (Function.update s.ops i r.op j).pushTicket = _ at hu
    by_cases hji : j = i
    · subst hji
      rw [Function.update_self] at hu
      rcases move_pushTicket hm hu with hold | ⟨-,hopen⟩
      · exact h.held j u hold
      · rw [h.closed] at hopen
        cases hopen
    · rw [Function.update_of_ne hji] at hu
      exact h.held j u hu

variable [DecidableEq V]

theorem Drained.step (h : Drained s) (hs : Inv s) (a : MpqBlock.Action ι V) :
    Drained (MpqBlock.step s a) := by
  cases a with
  | push j v =>
      dsimp only [MpqBlock.step]
      split
      · exact h.call rfl
      · exact h
  | pop j =>
      dsimp only [MpqBlock.step]
      split
      · exact h.call rfl
      · exact h
  | step j => exact h.settle hs (perform_move _ _)

/-- A pop that finds a closed block empty has drained it. -/
theorem drained_of_sawEmpty (hs : Inv s) (hclosed : s.block.closed = true)
    (hbefore : SawEmpty (s.ops i) → Drained s)
    (h : SawEmpty ((MpqBlock.step s (.step i)).ops i)) : Drained (MpqBlock.step s (.step i)) := by
  change SawEmpty (Function.update s.ops i _ i) at h
  rw [Function.update_self] at h
  rcases perform_sawEmpty h with hold | hevent
  · exact (hbefore hold).step hs _
  · exact (drained_of_tail hs hclosed (empty_short hs hevent)).step hs _

end

/-- The block a thread is inside of. -/
def current : Pc V → Option ℕ
  | .popFirst q | .popSecond q | .pushBlock _ q => some q
  | _ => none

structure Frame (w : MpQueue ι V) : Prop where
  inv : ∀ q, Inv (w.blocks q)
  head : w.head < w.count
  tail : w.tail < w.count
  closed : ∀ q, q+1 < w.count → (w.blocks q).block.closed = true
  drained : ∀ q < w.head, Drained (w.blocks q)
  fresh : ∀ q, w.count ≤ q → w.blocks q = start none true
  untouched : ∀ q, w.head < q → popped (w.blocks q) = []

/-- What a thread knows of the chain. -/
def Knows (w : MpQueue ι V) (i : ι) : Pc V → Prop
  | .popCheck q | .popNext q | .emptyCheck q | .emptyFirst q => q ≤ w.head
  | .popFirst q => q ≤ w.head ∧ InPop ((w.blocks q).ops i)
  | .popSecond q =>
      q ≤ w.head ∧ q+1 < w.count ∧ InPop ((w.blocks q).ops i) ∧
        (SawEmpty ((w.blocks q).ops i) → Drained (w.blocks q))
  | .popMove q | .emptyMove q => q+1 < w.count ∧ Drained (w.blocks q)
  | .pushCheck _ q | .pushNext _ q => q ≤ w.tail
  | .pushMove _ q => q+1 < w.count
  | .pushBlock _ q => q ≤ w.tail ∧ InPush ((w.blocks q).ops i)
  | .pushSize _ q | .pushLink _ q _ => q ≤ w.tail ∧ (w.blocks q).block.closed = true
  | .pushMoved q => q ≤ w.tail ∧ q+1 < w.count
  | .emptyTail q h => q ≤ w.head ∧ h ≤ (w.blocks q).block.head
  | .emptyNext q => q ≤ w.head ∧ Drained (w.blocks q)
  | _ => True

structure Linked (w : MpQueue ι V) : Prop extends Frame w where
  site : ∀ i q, ¬((w.blocks q).ops i).Rests → current (w.pcs i) = some q
  knows : ∀ i, Knows w i (w.pcs i)

/-- What only grows from one state of a queue to a later one. -/
structure Ahead (w w' : MpQueue ι V) : Prop where
  head : w.head ≤ w'.head
  tail : w.tail ≤ w'.tail
  count : w.count ≤ w'.count
  closed : ∀ q, (w.blocks q).block.closed = true → (w'.blocks q).block.closed = true
  drained : ∀ q, Drained (w.blocks q) → Drained (w'.blocks q)
  counter : ∀ q, (w.blocks q).block.head ≤ (w'.blocks q).block.head

variable {w w' : MpQueue ι V} {i : ι} {pc : Pc V} {q : ℕ}

theorem Ahead.of_blocks (hhead : w.head ≤ w'.head) (htail : w.tail ≤ w'.tail)
    (hcount : w.count ≤ w'.count) (hblocks : w'.blocks = w.blocks) : Ahead w w' :=
  ⟨hhead,htail,hcount,fun _ => hblocks ▸ id,fun _ => hblocks ▸ id,fun _ => hblocks ▸ Nat.le_refl _⟩

theorem Ahead.trans {w'' : MpQueue ι V} (h : Ahead w w') (h' : Ahead w' w'') : Ahead w w'' :=
  ⟨h.head.trans h'.head,h.tail.trans h'.tail,h.count.trans h'.count,
    fun q hq => h'.closed q (h.closed q hq),fun q hq => h'.drained q (h.drained q hq),
    fun q => (h.counter q).trans (h'.counter q)⟩

theorem Knows.ahead (h : Knows w i pc) (ha : Ahead w w')
    (hops : ∀ q, (w'.blocks q).ops i = (w.blocks q).ops i) : Knows w' i pc := by
  cases pc with
  | popCheck q | popNext q | emptyCheck q | emptyFirst q => exact h.trans ha.head
  | popFirst q => exact ⟨h.1.trans ha.head,(hops q).symm ▸ h.2⟩
  | popSecond q =>
      refine ⟨h.1.trans ha.head,h.2.1.trans_le ha.count,(hops q).symm ▸ h.2.2.1,fun hsaw => ?_⟩
      rw [hops] at hsaw
      exact ha.drained q (h.2.2.2 hsaw)
  | popMove q | emptyMove q => exact ⟨h.1.trans_le ha.count,ha.drained q h.2⟩
  | pushCheck v q | pushNext v q => exact h.trans ha.tail
  | pushMove v q => exact h.trans_le ha.count
  | pushBlock v q => exact ⟨h.1.trans ha.tail,(hops q).symm ▸ h.2⟩
  | pushSize v q | pushLink v q small => exact ⟨h.1.trans ha.tail,ha.closed q h.2⟩
  | pushMoved q => exact ⟨h.1.trans ha.tail,h.2.trans_le ha.count⟩
  | emptyTail q k => exact ⟨h.1.trans ha.head,h.2.trans (ha.counter q)⟩
  | emptyNext q => exact ⟨h.1.trans ha.head,ha.drained q h.2⟩
  | idle | popHead | popped val | pushTail val | pushed | emptyHead | answered empty => trivial

theorem init_linked : Linked (initMpQueue : MpQueue ι V) where
  inv _ := start_inv none true
  head := Nat.one_pos
  tail := Nat.one_pos
  closed q hq := absurd (Nat.lt_of_succ_lt_succ hq) (Nat.not_lt_zero q)
  drained q hq := absurd hq (Nat.not_lt_zero q)
  fresh _ _ := rfl
  untouched _ _ := rfl
  site _ _ hq := absurd trivial hq
  knows _ := trivial

/-- The thread of an action on a block. -/
def thread : MpqBlock.Action ι V → ι
  | .push i _ | .pop i | .step i => i

/-- A step of one thread. The others stay where they are; a block is as before, has made a
step of the thread, or is new. -/
structure Turn [DecidableEq ι] [DecidableEq V] (w w' : MpQueue ι V) (i : ι) : Prop where
  linked : Linked w'
  ahead : Ahead w w'
  pcs : ∀ j, j ≠ i → w'.pcs j = w.pcs j
  ops : ∀ j, j ≠ i → ∀ q, (w'.blocks q).ops j = (w.blocks q).ops j
  blocks : ∀ q, w'.blocks q = w.blocks q ∨
    (∃ a, thread a = i ∧ w'.blocks q = MpqBlock.step (w.blocks q) a) ∨ q = w.count

theorem popResult_cases (h : InPop o ∨ ∃ val, o = .popped val) (pc next : Pc V) :
    (∃ v, o = .popped (some v) ∧ popResult pc next o = .popped (some v)) ∨
      o = .popped none ∧ popResult pc next o = next ∨ InPop o ∧ popResult pc next o = pc := by
  rcases h with h | ⟨_ | v,rfl⟩
  · refine .inr (.inr ⟨h,?_⟩)
    cases o <;> first | rfl | cases h
  · exact .inr (.inl ⟨rfl,rfl⟩)
  · exact .inl ⟨v,rfl,rfl⟩

theorem pushResult_cases (h : InPush o ∨ ∃ pos, o = .pushed pos) (pc next : Pc V) :
    (∃ t, o = .pushed (some t) ∧ pushResult pc next o = .pushed) ∨
      o = .pushed none ∧ pushResult pc next o = next ∨ InPush o ∧ pushResult pc next o = pc := by
  rcases h with h | ⟨_ | t,rfl⟩
  · refine .inr (.inr ⟨h,?_⟩)
    cases o <;> first | rfl | cases h
  · exact .inr (.inl ⟨rfl,rfl⟩)
  · exact .inl ⟨t,rfl,rfl⟩

theorem current_popResult {pc next : Pc V} (h : ¬o.Rests) (hpc : current pc = some q) :
    current (popResult pc next o) = some q := by
  unfold popResult
  split
  · exact absurd trivial h
  · exact absurd trivial h
  · exact hpc

theorem current_pushResult {pc next : Pc V} (h : ¬o.Rests) (hpc : current pc = some q) :
    current (pushResult pc next o) = some q := by
  unfold pushResult
  split
  · exact absurd trivial h
  · exact absurd trivial h
  · exact hpc

theorem inPop_of_ticket {u : ℕ} (h : o.popTicket = some u) : InPop o := by
  cases o <;> first | exact trivial | cases h

/-- A thread outside of all blocks. -/
theorem Linked.rests (h : Linked w) (hout : current (w.pcs i) = none) (q : ℕ) :
    ((w.blocks q).ops i).Rests := by
  by_contra hin
  have hq := h.site i q hin
  rw [hout] at hq
  cases hq

section
variable [DecidableEq ι] [DecidableEq V]

theorem Linked.refl (h : Linked w) : Turn w w i :=
  ⟨h,.of_blocks (Nat.le_refl _) (Nat.le_refl _) (Nat.le_refl _) rfl,fun _ _ => rfl,
    fun _ _ _ => rfl,fun _ => .inl rfl⟩

/-- A thread that is outside of all blocks goes on. -/
theorem Turn.goto (h : Turn w w' i) (hout : current (w'.pcs i) = none) (hknows : Knows w' i pc) :
    Turn w (w'.goto i pc) i := by
  have hself : (w'.goto i pc).pcs i = pc := Function.update_self ..
  have hother : ∀ j, j ≠ i → (w'.goto i pc).pcs j = w'.pcs j :=
    fun j hj => Function.update_of_ne hj ..
  have hl := h.linked
  refine ⟨⟨⟨hl.inv,hl.head,hl.tail,hl.closed,hl.drained,hl.fresh,hl.untouched⟩,fun j q hq => ?_,
    fun j => ?_⟩,h.ahead.trans (.of_blocks (Nat.le_refl _) (Nat.le_refl _) (Nat.le_refl _) rfl),
    fun j hj => (hother j hj).trans (h.pcs j hj),h.ops,h.blocks⟩
  · by_cases hji : j = i
    · subst hji
      exact absurd (hl.rests hout q) hq
    · rw [hother j hji]
      exact hl.site j q hq
  · by_cases hji : j = i
    · subst hji
      rw [hself]
      exact hknows
    · rw [hother j hji]
      exact hl.knows j

theorem Linked.go (h : Linked w) (hout : current (w.pcs i) = none) (hknows : Knows w i pc) :
    Turn w (w.goto i pc) i := h.refl.goto hout hknows

theorem Linked.moveHead (h : Linked w) (hq : q+1 < w.count ∧ Drained (w.blocks q)) :
    Turn w (w.moveHead q) i := by
  have hle : w.head ≤ (w.moveHead q).head := by
    change w.head ≤ if w.head = q then q+1 else w.head
    split <;> omega
  have hframe : Frame (w.moveHead q) := by
    refine ⟨h.inv,?_,h.tail,h.closed,fun k hk => ?_,h.fresh,
      fun k hk => h.untouched k (hle.trans_lt hk)⟩
    · change (if w.head = q then q+1 else w.head) < w.count
      split
      · exact hq.1
      · exact h.head
    · change k < if w.head = q then q+1 else w.head at hk
      split at hk
      next heq =>
        rcases Nat.lt_succ_iff_lt_or_eq.mp hk with hlt | rfl
        · exact h.drained k (heq ▸ hlt)
        · exact hq.2
      · exact h.drained k hk
  have ha : Ahead w (w.moveHead q) := .of_blocks hle (Nat.le_refl _) (Nat.le_refl _) rfl
  exact ⟨{hframe with site := h.site, knows := fun j => (h.knows j).ahead ha fun _ => rfl},ha,
    fun _ _ => rfl,fun _ _ _ => rfl,fun _ => .inl rfl⟩

theorem Linked.moveTail (h : Linked w) (hq : q+1 < w.count) : Turn w (w.moveTail q) i := by
  have hle : w.tail ≤ (w.moveTail q).tail := by
    change w.tail ≤ if w.tail = q then q+1 else w.tail
    split <;> omega
  have hframe : Frame (w.moveTail q) := by
    refine ⟨h.inv,h.head,?_,h.closed,h.drained,h.fresh,h.untouched⟩
    change (if w.tail = q then q+1 else w.tail) < w.count
    split
    · exact hq
    · exact h.tail
  have ha : Ahead w (w.moveTail q) := .of_blocks (Nat.le_refl _) hle (Nat.le_refl _) rfl
  exact ⟨{hframe with site := h.site, knows := fun j => (h.knows j).ahead ha fun _ => rfl},ha,
    fun _ _ => rfl,fun _ _ _ => rfl,fun _ => .inl rfl⟩

theorem Linked.link (h : Linked w) {v : V} {small : Bool} (hq : q+1 = w.count)
    (hclosed : (w.blocks q).block.closed = true) : Turn w (w.link i v small) i := by
  have hother : ∀ k, k ≠ w.count → (w.link i v small).blocks k = w.blocks k :=
    fun k hk => Function.update_of_ne hk ..
  have hself : (w.link i v small).blocks w.count = start (some (i,v)) small :=
    Function.update_self ..
  have hfresh := h.fresh w.count (Nat.le_refl _)
  have hops : ∀ k j, ((w.link i v small).blocks k).ops j = (w.blocks k).ops j := by
    intro k j
    by_cases hk : k = w.count
    · subst hk
      rw [hself,hfresh]
      rfl
    · rw [hother k hk]
  have hframe : Frame (w.link i v small) := by
    refine ⟨fun k => ?_,h.head.trans (Nat.lt_succ_self _),h.tail.trans (Nat.lt_succ_self _),
      fun k hk => ?_,fun k hk => ?_,fun k hk => ?_,fun k hk => ?_⟩
    · by_cases hk : k = w.count
      · rw [hk,hself]
        exact start_inv _ _
      · rw [hother k hk]
        exact h.inv k
    · change k+1 < w.count+1 at hk
      rw [hother k (by omega)]
      by_cases hlast : k+1 = w.count
      · obtain rfl : k = q := by omega
        exact hclosed
      · exact h.closed k (by omega)
    · have hhead := h.head
      rw [hother k (by change k < w.head at hk; omega)]
      exact h.drained k hk
    · rw [hother k (Nat.ne_of_gt hk)]
      exact h.fresh k (Nat.le_of_succ_le hk)
    · by_cases hk' : k = w.count
      · rw [hk',hself]
        rfl
      · rw [hother k hk']
        exact h.untouched k hk
  have ha : Ahead w (w.link i v small) := by
    refine ⟨Nat.le_refl _,Nat.le_refl _,Nat.le_succ _,fun k hk => ?_,fun k hk => ?_,fun k => ?_⟩
    all_goals by_cases hk' : k = w.count
    · rw [hk',hfresh] at hk
      cases hk
    · rwa [hother k hk']
    · rw [hk',hfresh] at hk
      cases hk.closed
    · rwa [hother k hk']
    · rw [hk',hself,hfresh]
      exact Nat.le_refl _
    · rw [hother k hk']
  refine ⟨{hframe with site := fun j k hk => h.site j k (hops k j ▸ hk), knows := fun j => ?_},ha,
    fun _ _ => rfl,fun j _ k => hops k j,fun k => ?_⟩
  · exact (h.knows j).ahead ha fun k => hops k j
  · by_cases hk : k = w.count
    · exact .inr (.inr hk)
    · exact .inl (hother k hk)

theorem step_ops {s : State ι V} {a : MpqBlock.Action ι V} {j : ι} (hj : j ≠ thread a) :
    (MpqBlock.step s a).ops j = s.ops j := by
  cases a with
  | push i v | pop i =>
      dsimp only [MpqBlock.step]
      split
      · exact Function.update_of_ne hj ..
      · rfl
  | step i => exact Function.update_of_ne hj ..

theorem popped_step {s : State ι V} {a : MpqBlock.Action ι V}
    (ha : ∀ j, a = .step j → ¬InPop (s.ops j)) : popped (MpqBlock.step s a) = popped s := by
  cases a with
  | push i v | pop i =>
      dsimp only [MpqBlock.step]
      split <;> rfl
  | step i =>
      refine congrArg (List.map Prod.fst) ?_
      change (s.settle i _).pops = _
      rw [pops_settle]
      cases he : (perform s.block (s.ops i)).event.bind Event.pop? with
      | none => exact List.append_nil _
      | some p =>
          obtain ⟨e,hevent,hpop⟩ := Option.bind_eq_some_iff.mp he
          cases e with
          | popped t v =>
              exact absurd (inPop_of_ticket (move_popped (perform_move _ _) hevent)) (ha i rfl)
          | pushed t v => cases hpop
          | empty => cases hpop

theorem step_counters {s : State ι V} (hs : Inv s) (a : MpqBlock.Action ι V) :
    s.block.head ≤ (MpqBlock.step s a).block.head ∧
      (s.block.closed = true → (MpqBlock.step s a).block.closed = true) := by
  cases a with
  | push i v | pop i =>
      dsimp only [MpqBlock.step]
      split <;> exact ⟨Nat.le_refl _,id⟩
  | step i =>
      have hcounters := move_counters (perform_move s.block (s.ops i)) (hs.fits i)
      exact ⟨hcounters.1,hcounters.2.2⟩

/-- A step of a thread inside of a block. -/
theorem Linked.inside (h : Linked w) (hq : q < w.count) {a : MpqBlock.Action ι V}
    (ha : thread a = i) (hpop : w.head < q → ∀ j, a = .step j → ¬InPop ((w.blocks q).ops j))
    (hout : ∀ k, k ≠ q → ((w.blocks k).ops i).Rests)
    (hsite : ¬((MpqBlock.step (w.blocks q) a).ops i).Rests → current pc = some q)
    (hknows : Knows (w.setBlock q (MpqBlock.step (w.blocks q) a)) i pc) :
    Turn w ((w.setBlock q (MpqBlock.step (w.blocks q) a)).goto i pc) i := by
  obtain ⟨s,hs⟩ : ∃ s, s = MpqBlock.step (w.blocks q) a := ⟨_,rfl⟩
  rw [← hs] at hsite hknows ⊢
  have hother : ∀ k, k ≠ q → (w.setBlock q s).blocks k = w.blocks k :=
    fun k hk => Function.update_of_ne hk ..
  have hself : (w.setBlock q s).blocks q = s := Function.update_self ..
  have hcounters := step_counters (h.inv q) a
  rw [← hs] at hcounters
  have hcase : ∀ {P : ℕ → State ι V → Prop}, (∀ k, P k (w.blocks k)) → P q s →
      ∀ k, P k ((w.setBlock q s).blocks k) := by
    intro P hall hq k
    by_cases hkq : k = q
    · rw [hkq,hself]
      exact hq
    · rw [hother k hkq]
      exact hall k
  have hframe : Frame ((w.setBlock q s).goto i pc) := by
    refine ⟨hcase h.inv (hs ▸ step_inv (h.inv q) a),h.head,h.tail,?_,?_,?_,?_⟩
    · exact hcase (P := fun k t => k+1 < w.count → t.block.closed = true) h.closed
        fun hk => hcounters.2 (h.closed q hk)
    · exact hcase (P := fun k t => k < w.head → Drained t) h.drained
        fun hk => hs ▸ (h.drained q hk).step (h.inv q) a
    · exact hcase (P := fun k t => w.count ≤ k → t = start none true) h.fresh
        fun hk => absurd hq (Nat.not_lt.mpr hk)
    · exact hcase (P := fun k t => w.head < k → popped t = []) h.untouched
        fun hk => by rw [hs,popped_step (hpop hk)]; exact h.untouched q hk
  have hahead : Ahead w ((w.setBlock q s).goto i pc) := by
    refine ⟨Nat.le_refl _,Nat.le_refl _,Nat.le_refl _,?_,?_,?_⟩
    · exact hcase (P := fun k t => (w.blocks k).block.closed = true → t.block.closed = true)
        (fun _ => id) hcounters.2
    · exact hcase (P := fun k t => Drained (w.blocks k) → Drained t) (fun _ => id)
        fun hd => hs ▸ hd.step (h.inv q) a
    · exact hcase (P := fun k t => (w.blocks k).block.head ≤ t.block.head)
        (fun _ => Nat.le_refl _) hcounters.1
  have hops : ∀ j, j ≠ i → ∀ k, ((w.setBlock q s).blocks k).ops j = (w.blocks k).ops j :=
    fun j hj => hcase (P := fun k t => t.ops j = (w.blocks k).ops j) (fun _ => rfl)
      (hs ▸ step_ops (ha ▸ hj))
  have hpc : ((w.setBlock q s).goto i pc).pcs i = pc := Function.update_self ..
  have hpcs : ∀ j, j ≠ i → ((w.setBlock q s).goto i pc).pcs j = w.pcs j :=
    fun j hj => Function.update_of_ne hj ..
  refine ⟨{hframe with site := fun j k hk => ?_, knows := fun j => ?_},hahead,hpcs,hops,fun k => ?_⟩
  · by_cases hji : j = i
    · subst hji
      rw [hpc]
      by_cases hkq : k = q
      · subst hkq
        exact hsite (hself ▸ hk)
      · exact absurd (hother k hkq ▸ hout k hkq) hk
    · rw [hpcs j hji]
      exact h.site j k (hops j hji k ▸ hk)
  · by_cases hji : j = i
    · subst hji
      rw [hpc]
      exact hknows
    · rw [hpcs j hji]
      exact (h.knows j).ahead hahead (hops j hji)
  · by_cases hkq : k = q
    · subst hkq
      exact .inr (.inl ⟨a,ha,hself.trans hs⟩)
    · exact .inl (hother k hkq)

theorem step_self {s : State ι V} {i : ι} :
    (MpqBlock.step s (.step i)).ops i = (perform s.block (s.ops i)).op := Function.update_self ..

/-- The beginning of a call on a block. -/
theorem Linked.enter (h : Linked w) (hq : q < w.count) {a : MpqBlock.Action ι V}
    (ha : thread a = i) (hcall : ∀ j, a ≠ .step j) (hout : current (w.pcs i) = none)
    (hsite : current pc = some q)
    (hknows : Knows (w.setBlock q (MpqBlock.step (w.blocks q) a)) i pc) :
    Turn w (w.enter i q a pc) i :=
  h.inside hq ha (fun _ j hj => absurd hj (hcall j)) (fun k _ => h.rests hout k) (fun _ => hsite)
    hknows

/-- An access in a call on a block. -/
theorem Linked.access (h : Linked w) (hq : q < w.count) (hin : current (w.pcs i) = some q)
    (hpop : w.head < q → ¬InPop ((w.blocks q).ops i)) {next : Op V → Pc V}
    (hnext : ∀ o, ¬o.Rests → current (next o) = some q)
    (hknows : Knows (w.setBlock q (MpqBlock.step (w.blocks q) (.step i))) i
      (next ((MpqBlock.step (w.blocks q) (.step i)).ops i))) : Turn w (w.access i q next) i := by
  refine h.inside hq rfl (fun hlt j hj => ?_) (fun k hk => ?_) (hnext _) hknows
  · cases hj
    exact hpop hlt
  · by_contra hrest
    exact hk (Option.some.inj ((h.site i k hrest).symm.trans hin))

theorem call_op {s : State ι V} {i : ι} (hrest : (s.ops i).Rests) :
    (MpqBlock.step s (.pop i)).ops i = .popAdd ∧
      ∀ v, (MpqBlock.step s (.push i v)).ops i = .pushAdd v 0 := by
  constructor
  · dsimp only [MpqBlock.step]
    rw [if_pos hrest]
    exact Function.update_self ..
  · intro v
    dsimp only [MpqBlock.step]
    rw [if_pos hrest]
    exact Function.update_self ..

theorem Linked.perform (h : Linked w) (i : ι) : Turn w (w.perform i) i := by
  have hk := h.knows i
  have hself : ∀ {q : ℕ} {s : State ι V}, (w.setBlock q s).blocks q = s := by
    intro q s
    exact Function.update_self ..
  unfold MpQueue.perform
  split
  case h_1 | h_2 | h_3 | h_4 => exact h.refl
  case h_5 hpc => exact h.go (congrArg current hpc) (Nat.le_refl w.head)
  case h_6 q hpc =>
    rw [hpc] at hk
    split
    next heq =>
      refine h.enter (heq ▸ h.head) rfl (fun j hj => by cases hj) (congrArg current hpc) rfl ?_
      refine ⟨hk,?_⟩
      rw [hself,(call_op (h.rests (congrArg current hpc) q)).1]
      trivial
    · exact h.go (congrArg current hpc) trivial
  case h_7 q hpc =>
    rw [hpc] at hk
    refine h.access (hk.1.trans_lt h.head) (congrArg current hpc)
      (fun hlt => absurd hk.1 (Nat.not_le.mpr hlt)) (fun o ho => current_popResult ho rfl) ?_
    have hres := popResult_cases (perform_inPop (w.blocks q).block hk.2) (.popFirst q) (.popNext q)
    rw [← step_self] at hres
    rcases hres with ⟨v,-,hres⟩ | ⟨-,hres⟩ | ⟨hin,hres⟩ <;> rw [hres]
    · trivial
    · exact hk.1
    · exact ⟨hk.1,hself.symm ▸ hin⟩
  case h_8 q hpc =>
    rw [hpc] at hk
    split
    next hlast =>
      refine h.enter (hk.trans_lt h.head) rfl (fun j hj => by cases hj) (congrArg current hpc) rfl
        ?_
      refine ⟨hk,hlast,?_⟩
      rw [hself,(call_op (h.rests (congrArg current hpc) q)).1]
      exact ⟨trivial,fun hsaw => hsaw.elim⟩
    · exact h.go (congrArg current hpc) trivial
  case h_9 q hpc =>
    rw [hpc] at hk
    obtain ⟨hle,hlast,hin,hsaw⟩ := hk
    have hdrained := drained_of_sawEmpty (h.inv q) (h.closed q hlast) hsaw
    have hres := popResult_cases (perform_inPop (w.blocks q).block hin) (.popSecond q) (.popMove q)
    rw [← step_self] at hres
    refine h.access (hle.trans_lt h.head) (congrArg current hpc)
      (fun hlt => absurd hle (Nat.not_le.mpr hlt)) (fun o ho => current_popResult ho rfl) ?_
    rcases hres with ⟨v,-,hres⟩ | ⟨hop,hres⟩ | ⟨hin,hres⟩ <;> rw [hres]
    · trivial
    · refine ⟨hlast,?_⟩
      rw [hself]
      exact hdrained (hop ▸ trivial)
    · refine ⟨hle,hlast,?_⟩
      rw [hself]
      exact ⟨hin,hdrained⟩
  case h_10 q hpc =>
    rw [hpc] at hk
    exact (h.moveHead hk).goto (congrArg current hpc) trivial
  case h_11 v hpc => exact h.go (congrArg current hpc) (Nat.le_refl w.tail)
  case h_12 v q hpc =>
    rw [hpc] at hk
    refine h.go (congrArg current hpc) ?_
    split
    · exact hk
    · trivial
  case h_13 v q hpc =>
    rw [hpc] at hk
    split
    next hlast => exact h.go (congrArg current hpc) hlast
    · refine h.enter (hk.trans_lt h.tail) rfl (fun j hj => by cases hj) (congrArg current hpc) rfl
        ?_
      refine ⟨hk,?_⟩
      rw [hself,(call_op (h.rests (congrArg current hpc) q)).2 v]
      trivial
  case h_14 v q hpc =>
    rw [hpc] at hk
    exact (h.moveTail hk).goto (congrArg current hpc) trivial
  case h_15 v q hpc =>
    rw [hpc] at hk
    have hres := pushResult_cases (perform_inPush (w.blocks q).block hk.2) (.pushBlock v q)
      (.pushSize v q)
    refine h.access (hk.1.trans_lt h.tail) (congrArg current hpc) (fun _ => hk.2.busy.2)
      (fun o ho => current_pushResult ho rfl) ?_
    rw [step_self]
    rcases hres with ⟨t,-,hres⟩ | ⟨hop,hres⟩ | ⟨hin,hres⟩ <;> rw [hres]
    · trivial
    · refine ⟨hk.1,?_⟩
      rw [hself]
      exact perform_refused hk.2.busy.1 hop
    · refine ⟨hk.1,?_⟩
      rw [hself,step_self]
      exact hin
  case h_16 v q hpc =>
    rw [hpc] at hk
    exact h.go (congrArg current hpc) hk
  case h_17 v q small hpc =>
    rw [hpc] at hk
    split
    next hlast =>
      refine (h.link hlast hk.2).goto (congrArg current hpc) ⟨hk.1,?_⟩
      exact Nat.lt_succ_of_le hlast.le
    · exact h.go (congrArg current hpc) trivial
  case h_18 q hpc =>
    rw [hpc] at hk
    exact (h.moveTail hk.2).goto (congrArg current hpc) trivial
  case h_19 hpc => exact h.go (congrArg current hpc) (Nat.le_refl w.head)
  case h_20 q hpc =>
    rw [hpc] at hk
    refine h.go (congrArg current hpc) ?_
    split
    · exact hk
    · trivial
  case h_21 q hpc =>
    rw [hpc] at hk
    exact h.go (congrArg current hpc) ⟨hk,Nat.le_refl _⟩
  case h_22 q k hpc =>
    rw [hpc] at hk
    split
    · exact h.go (congrArg current hpc) trivial
    next hclosed =>
      split
      · exact h.go (congrArg current hpc) trivial
      next hshort =>
        exact h.go (congrArg current hpc) ⟨hk.1,drained_of_tail (h.inv q)
          (Bool.eq_true_of_not_eq_false hclosed) ((Nat.le_of_not_lt hshort).trans hk.2)⟩
  case h_23 q hpc =>
    rw [hpc] at hk
    refine h.go (congrArg current hpc) ?_
    split
    next hlast => exact ⟨hlast,hk.2⟩
    · trivial
  case h_24 q hpc =>
    rw [hpc] at hk
    exact (h.moveHead hk).goto (congrArg current hpc) trivial

/-- The thread of an action. -/
def actor : MpqList.Action ι V → ι
  | .push i _ | .pop i | .isEmpty i | .step i => i

theorem Linked.step (h : Linked w) (a : MpqList.Action ι V) :
    Turn w (MpqList.step w a) (actor a) := by
  have hout : ∀ j, (w.pcs j).Rests → current (w.pcs j) = none := by
    intro j hj
    cases hpc : w.pcs j <;> rw [hpc] at hj <;> first | rfl | cases hj
  cases a with
  | push j v | pop j | isEmpty j =>
      dsimp only [MpqList.step]
      split
      next hrest => exact h.go (hout j hrest) trivial
      · exact h.refl
  | step j => exact h.perform j

theorem run_linked (acts : List (MpqList.Action ι V)) :
    Linked (StepSystem.run MpqList.step initMpQueue acts) :=
  StepSystem.run_preserves (P := Linked) (fun _ a h => (h.step a).linked) acts init_linked

end

end Teleproxy.MpqChain
