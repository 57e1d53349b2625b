import Mathlib.Data.List.Basic
import Teleproxy.MpqBlock

/-!
# The slots of a queue block

What holds between two accesses to a block. A value that has been put is in its node until a
pop takes it under the same number. A number below the head whose pop has left its node
behind can not be used for a push any more: the index of the node has grown past it, or the
node is unsafe, and a push that has seen it so compares with an index that is gone.
-/
namespace Teleproxy.MpqSlots
open MpqBlock MpqBlock.MpQueueBlock
open Tickets (Issued)

variable {ι V : Type*} {b b' : MpQueueBlock V} {o o' : Op V} {t u h : ℕ} {v : V}

/-- What an access does to the block. -/
inductive Move (b : MpQueueBlock V) : Op V → Outcome V → Prop
  | look {o o' : Op V} (pop : o'.popTicket = o.popTicket)
      (push : ∀ t, o'.pushTicket = some t → o.pushTicket = some t) : Move b o ⟨b,o',none⟩
  | miss {h : ℕ} {val : Option V} (late : h < (b.node h).idx) :
      Move b (.popIdx h val) ⟨b,.popTail h,none⟩
  | empty {h : ℕ} (short : b.tail ≤ h+1) : Move b (.popTail h) ⟨b,.fixTail,some .empty⟩
  | claim : Move b .popAdd ⟨{b with head := b.head+1},.popVal b.head,none⟩
  | take {h : ℕ} {d : MpqNode V} {v : V} (same : b.node h = d) (val : d.val = some v)
      (own : d.idx = h) : Move b (.popSwap h d)
        ⟨b.setNode h ⟨d.safe,d.idx+b.size,none⟩,.popped (some v),some (.popped h v)⟩
  | mark {h : ℕ} {d : MpqNode V} {v : V} (same : b.node h = d) (val : d.val = some v)
      (own : d.idx ≠ h) :
      Move b (.popSwap h d) ⟨b.setNode h ⟨false,d.idx,some v⟩,.popTail h,none⟩
  | skip {h : ℕ} {d : MpqNode V} (same : b.node h = d) (val : d.val = none) :
      Move b (.popSwap h d) ⟨b.setNode h ⟨d.safe,h+b.size,none⟩,.popTail h,none⟩
  | fix {t h : ℕ} (same : b.tail = t) :
      Move b (.fixSwap t h) ⟨{b with tail := h},.popped none,none⟩
  | claimTail {v : V} {n : ℕ} (isOpen : b.closed = false) :
      Move b (.pushAdd v n) ⟨{b with tail := b.tail+1},.pushVal v n b.tail,none⟩
  | refuse {v : V} {n : ℕ} (shut : b.closed = true) :
      Move b (.pushAdd v n) ⟨{b with tail := b.tail+1},.pushed none,none⟩
  | put {v : V} {n t : ℕ} {d : MpqNode V} (same : b.node t = d) :
      Move b (.pushSwap v n t d)
        ⟨b.setNode t ⟨true,t,some v⟩,.pushed (some t),some (.pushed t v)⟩
  | close : Move b .pushClose ⟨{b with closed := true},.pushed none,none⟩

theorem popNode_move (h : ℕ) {d : MpqNode V} (same : b.node h = d) :
    Move b (.popSwap h d) (popNode b h d) := by
  unfold popNode
  split
  · split
    · exact .take same ‹_› ‹_›
    · exact .mark same ‹_› ‹_›
  · exact .skip same ‹_›

theorem perform_move [DecidableEq V] (b : MpQueueBlock V) (o : Op V) :
    Move b o (perform b o) := by
  have hlook : ∀ o o' : Op V, o'.popTicket = o.popTicket →
      (o'.pushTicket = o.pushTicket ∨ o'.pushTicket = none) → Move b o ⟨b,o',none⟩ := by
    intro o o' hpop hpush
    refine .look hpop fun t ht => ?_
    rcases hpush with h | h
    · rwa [← h]
    · rw [h] at ht
      cases ht
  cases o with
  | popAdd => exact .claim
  | popIdx h val =>
      dsimp only [perform]
      split
      · exact .miss ‹_›
      · exact hlook _ _ rfl (.inl rfl)
  | popSwap h d =>
      dsimp only [perform]
      split
      · exact popNode_move h ‹_›
      · exact hlook _ _ rfl (.inl rfl)
  | popTail h =>
      dsimp only [perform]
      split
      · exact .empty ‹_›
      · exact hlook _ _ rfl (.inl rfl)
  | fixSwap t h =>
      dsimp only [perform]
      split
      next hsame => exact .fix hsame.2
      · exact hlook _ _ rfl (.inl rfl)
  | pushAdd val n =>
      dsimp only [perform]
      split
      next hclosed => exact .refuse hclosed
      next hclosed => exact .claimTail (Bool.eq_false_of_not_eq_true hclosed)
  | pushSwap val n t d =>
      dsimp only [perform]
      split
      · exact .put ‹_›
      · exact hlook _ _ rfl (.inr rfl)
  | pushClose => exact .close
  | fixHead closed t | fixAgain t h | pushHead val n t d | pushCheck val n t =>
      dsimp only [perform]
      split <;> first | exact hlook _ _ rfl (.inl rfl) | exact hlook _ _ rfl (.inr rfl)
  | pushIdx val n t old =>
      dsimp only [perform]
      split
      · split <;> exact hlook _ _ rfl (.inl rfl)
      · exact hlook _ _ rfl (.inr rfl)
  | idle | popVal h | fixTail | popped val | pushVal val n t | pushed pos =>
      exact hlook _ _ rfl (.inl rfl)

/-- A thread that waits to write compares with a node it has read. `spent` are the numbers
whose pop is done with its node. -/
def Fits (b : MpQueueBlock V) (spent : ℕ → Prop) : Op V → Prop
  | .popSwap h d => d.idx ≤ h
  | .popTail h => h < b.head
  | .fixAgain t h | .fixSwap t h => t < h
  | .pushHead _ _ t d => d.val = none ∧ d.idx ≤ t ∧ d.idx ≤ (b.node t).idx
  | .pushSwap _ _ t d =>
      d.val = none ∧ d.idx ≤ t ∧ d.idx ≤ (b.node t).idx ∧
        (d.safe = false → ∀ u, t ≤ u → b.slot u = b.slot t → spent u →
          d.idx < (b.node t).idx ∨ (b.node t).val ≠ none)
  | _ => True

theorem perform_fits [DecidableEq V] {spent : ℕ → Prop} (hspent : ∀ u, spent u → u < b.head)
    (hbelow : ∀ u, o.popTicket = some u → u < b.head) (h : Fits b spent o) :
    Fits b spent (perform b o).op := by
  cases o with
  | popIdx k val =>
      dsimp only [perform]
      split
      · exact hbelow k rfl
      next hlate => exact Nat.le_of_not_lt hlate
  | popSwap k d =>
      dsimp only [perform,popNode]
      split
      · split
        · split
          · trivial
          · exact hbelow k rfl
        · exact hbelow k rfl
      · trivial
  | fixHead closed t =>
      dsimp only [perform]
      split
      · trivial
      next hlate => exact Nat.lt_of_not_le fun hle => hlate (.inr hle)
  | fixAgain t k =>
      dsimp only [perform]
      split
      · exact h
      · trivial
  | pushIdx val n t old =>
      dsimp only [perform]
      split
      next hok =>
        split
        · exact ⟨rfl,hok.2,Nat.le_refl _,fun hs => Bool.noConfusion (show true = false from hs)⟩
        · exact ⟨rfl,hok.2,Nat.le_refl _⟩
      · trivial
  | pushHead val n t d =>
      dsimp only [perform]
      split
      next hhead =>
        exact ⟨h.1,h.2.1,h.2.2,fun _ u htu _ hu => absurd (hspent u hu) (by omega)⟩
      · trivial
  | pushAdd val n =>
      dsimp only [perform]
      split <;> trivial
  | popTail k | fixSwap t k | pushSwap val n t d | pushCheck val n t =>
      dsimp only [perform]
      split <;> trivial
  | idle | popAdd | popVal k | fixTail | popped val | pushVal val n t | pushClose | pushed pos =>
      trivial

/-- A node that has changed: its index has grown, or it has kept its index and its value. -/
def Grown (n n' : MpqNode V) : Prop :=
  n.idx < n'.idx ∨ n'.idx = n.idx ∧ (n.val ≠ none → n'.val ≠ none)

theorem Grown.idx {n n' : MpqNode V} (h : Grown n n') : n.idx ≤ n'.idx := by
  rcases h with h | h
  · exact h.le
  · exact h.1.ge

theorem grown_setNode {n : MpqNode V} (hn : Grown (b.node t) n) (u : ℕ) :
    Grown (b.node u) ((b.setNode t n).node u) := by
  by_cases hu : b.slot u = b.slot t
  · rw [setNode_same hu,node_congr hu]
    exact hn
  · rw [setNode_other hu]
    exact .inr ⟨rfl,id⟩

/-- A number that no push can use: the node is ahead of it, or occupied. -/
def Past (b : MpQueueBlock V) (u : ℕ) : Prop := u < (b.node u).idx ∨ (b.node u).val ≠ none

theorem Fits.later {spent spent' : ℕ → Prop} (hsize : b'.size = b.size)
    (hhead : b.head ≤ b'.head) (hnode : ∀ u, Grown (b.node u) (b'.node u))
    (hspent : ∀ u, spent' u → spent u ∨ Past b' u) (h : Fits b spent o) : Fits b' spent' o := by
  have hslot : ∀ u, b'.slot u = b.slot u := fun u => by rw [slot,slot,hsize]
  cases o with
  | pushHead val n t d => exact ⟨h.1,h.2.1,h.2.2.trans (hnode t).idx⟩
  | pushSwap val n t d =>
      refine ⟨h.1,h.2.1,h.2.2.1.trans (hnode t).idx,fun hs u htu hut hu => ?_⟩
      have hsame : b'.node u = b'.node t := node_congr hut
      rcases hspent u hu with hold | hpast
      · rcases hnode t with hlt | ⟨heq,hval⟩
        · exact .inl (h.2.2.1.trans_lt hlt)
        · rw [heq]
          refine (h.2.2.2 hs u htu ?_ hold).imp id hval
          rw [← hslot,← hslot,hut]
      · rw [Past,hsame] at hpast
        exact hpast.imp (fun hlt => by have := h.2.1; omega) id
  | popTail k => exact Nat.lt_of_lt_of_le h hhead
  | popSwap k d => exact h
  | fixAgain t k | fixSwap t k => exact h
  | idle | popAdd | popVal k | popIdx k val | fixTail | fixHead closed t | popped val
  | pushAdd val n | pushVal val n t | pushIdx val n t old | pushCheck val n t | pushClose
  | pushed pos => trivial

def Holds (s : State ι V) (u : ℕ) : Prop := ∃ i, (s.ops i).popTicket = some u

/-- A number whose pop is done with its node. -/
def Spent (s : State ι V) (u : ℕ) : Prop := u < s.block.head ∧ ¬Holds s u

def popped (s : State ι V) : List ℕ := s.pops.map Prod.fst
def pushed (s : State ι V) : List ℕ := s.pushes.map Prod.fst

structure Inv (s : State ι V) : Prop where
  pow : ∃ k, s.block.size = 2^k
  place : ∀ u, s.block.slot (s.block.node u).idx = s.block.slot u
  pops : Issued s.block.head (Op.popTicket ∘ s.ops) (popped s)
  pushes : Issued s.block.tail (Op.pushTicket ∘ s.ops) (pushed s)
  sub : ∀ p ∈ s.pops, p ∈ s.pushes
  stored : ∀ u v, (u,v) ∈ s.pushes → u ∉ popped s →
    (s.block.node u).idx = u ∧ (s.block.node u).val = some v
  backed : ∀ u v, (s.block.node u).val = some v →
    ((s.block.node u).idx,v) ∈ s.pushes ∧ (s.block.node u).idx ∉ popped s
  gone : ∀ u, Spent s u → u < (s.block.node u).idx ∨ (s.block.node u).safe = false
  served : ∀ u ∈ pushed s, u ∉ popped s → u < s.block.head → Holds s u
  fits : ∀ i, Fits s.block (Spent s) (s.ops i)

theorem mem_pushed {s : State ι V} (h : u ∈ pushed s) : ∃ v, (u,v) ∈ s.pushes := by
  obtain ⟨p,hp,rfl⟩ := List.mem_map.mp h
  exact ⟨p.2,hp⟩

theorem Inv.popped_pushed {s : State ι V} (h : Inv s) (hu : u ∈ popped s) : u ∈ pushed s := by
  obtain ⟨p,hp,rfl⟩ := List.mem_map.mp hu
  exact List.mem_map_of_mem (h.sub p hp)

/-- The node of a push is free for its number, so no pop is done with the number. -/
theorem Inv.not_spent {s : State ι V} {i : ι} (h : Inv s) {w : V} {n : ℕ} {d : MpqNode V}
    (hop : s.ops i = .pushSwap w n t d) (hsame : s.block.node t = d) (htu : t ≤ u)
    (hslot : s.block.slot u = s.block.slot t) : ¬Spent s u := by
  intro hu
  have hfit := h.fits i
  rw [hop] at hfit
  obtain ⟨hval,hidx,-,hgone⟩ := hfit
  have hgap := h.gone u hu
  rw [node_congr hslot,hsame] at hgap
  rcases hgap with hlt | hunsafe
  · omega
  · rcases hgone hunsafe u htu hslot hu with hlt | hne
    · rw [hsame] at hlt
      exact absurd hlt (Nat.lt_irrefl _)
    · rw [hsame] at hne
      exact hne hval

theorem start_inv (first : Option (ι × V)) (isSmall : Bool) : Inv (start first isSmall) := by
  have hpow : ∃ k, (start first isSmall).block.size = 2^k := by
    cases isSmall
    · exact ⟨12,rfl⟩
    · exact ⟨6,rfl⟩
  have hslot : ∀ u, (start first isSmall).block.slot ((start first isSmall).block.slot u) =
      (start first isSmall).block.slot u := fun u => by
    rw [slot,slot,Nat.and_assoc,Nat.and_self]
  have hzero : (start first isSmall).block.slot 0 = 0 := Nat.zero_and _
  have hone : (start first isSmall).block.tail = (pushed (start first isSmall)).length := by
    cases first <;> rfl
  have hpops : (start first isSmall).pops = [] := by
    cases first <;> rfl
  have hused : ∀ u ∈ pushed (start first isSmall), u = 0 := by
    cases first with
    | none => exact fun u hu => absurd hu List.not_mem_nil
    | some p => exact fun u hu => List.mem_singleton.mp hu
  have hpopped : popped (start first isSmall) = [] := congrArg (List.map Prod.fst) hpops
  refine ⟨hpow,hslot,hpopped ▸ .start (fun _ => rfl) (fun _ h => absurd h List.not_mem_nil) .nil,
    .start (fun _ => rfl) ?_ ?_,hpops ▸ fun _ h => absurd h List.not_mem_nil,?_,?_,
    fun u hu => absurd hu.1 (Nat.not_lt_zero u),
    fun u _ _ hu => absurd hu (Nat.not_lt_zero u),fun _ => trivial⟩
  · intro u hu
    rw [hone,hused u hu]
    exact List.length_pos_of_mem hu
  · cases first with
    | none => exact .nil
    | some p => exact List.nodup_singleton 0
  · intro u v hu _
    obtain rfl := hused u (List.mem_map_of_mem hu)
    cases first with
    | none => cases hu
    | some p =>
        cases List.mem_singleton.mp hu
        refine ⟨hzero,?_⟩
        change (if (start (some p) isSmall).block.slot 0 = 0 then _ else _) = _
        rw [if_pos hzero]
        rfl
  · intro u v hval
    change (if (start first isSmall).block.slot u = 0 then first.map Prod.snd else none) =
      some v at hval
    split_ifs at hval with hu
    cases first with
    | none => cases hval
    | some p =>
        cases hval
        refine ⟨?_,hpopped ▸ List.not_mem_nil⟩
        change ((start (some p) isSmall).block.slot u,p.2) ∈ [(0,p.2)]
        rw [hu]
        exact List.mem_singleton_self _

section
variable [DecidableEq ι] {s : State ι V} {i : ι} {r : Outcome V}

theorem pushes_settle : (s.settle i r).pushes = s.pushes++(r.event.bind Event.push?).toList := by
  unfold State.pushes State.settle
  rw [List.filterMap_append]
  rcases r.event with _ | e
  · rfl
  · cases e <;> rfl

theorem pops_settle : (s.settle i r).pops = s.pops++(r.event.bind Event.pop?).toList := by
  unfold State.pops State.settle
  rw [List.filterMap_append]
  rcases r.event with _ | e
  · rfl
  · cases e <;> rfl

theorem holds_settle {u : ℕ} (h : Holds s u) :
    Holds (s.settle i r) u ∨ (s.ops i).popTicket = some u := by
  obtain ⟨j,hj⟩ := h
  by_cases hji : j = i
  · exact .inr (hji ▸ hj)
  · refine .inl ⟨j,?_⟩
    change (Function.update s.ops i r.op j).popTicket = _
    rwa [Function.update_of_ne hji]

theorem Inv.settle_fits (h : Inv s) (hfit : Fits s.block (Spent s) r.op)
    (hsize : r.block.size = s.block.size) (hhead : s.block.head ≤ r.block.head)
    (hnode : ∀ u, Grown (s.block.node u) (r.block.node u))
    (hspent : ∀ u, Spent (s.settle i r) u → Spent s u ∨ Past r.block u) (j : ι) :
    Fits (s.settle i r).block (Spent (s.settle i r)) ((s.settle i r).ops j) := by
  refine Fits.later hsize hhead hnode hspent ?_
  change Fits _ _ (Function.update s.ops i r.op j)
  by_cases hji : j = i
  · subst hji
    rwa [Function.update_self]
  · rw [Function.update_of_ne hji]
    exact h.fits j

/-- An access that leaves the nodes as they are. A number that loses its pop is behind the
index of its node. -/
theorem Inv.still (h : Inv s) (hnodes : r.block.nodes = s.block.nodes)
    (hsize : r.block.size = s.block.size) (hhead : s.block.head ≤ r.block.head)
    (hpush : r.event.bind Event.push? = none)
    (hpop : r.event.bind Event.pop? = none)
    (hpops : Issued r.block.head (Function.update (Op.popTicket ∘ s.ops) i r.op.popTicket)
      (popped s))
    (hpushes : Issued r.block.tail (Function.update (Op.pushTicket ∘ s.ops) i r.op.pushTicket)
      (pushed s))
    (hheld : ∀ u, u < r.block.head → (Holds s u ∨ s.block.head ≤ u) →
      Holds (s.settle i r) u ∨ u < (s.block.node u).idx)
    (hfit : Fits s.block (Spent s) r.op) : Inv (s.settle i r) := by
  have hslot : ∀ u, r.block.slot u = s.block.slot u := fun u => by rw [slot,slot,hsize]
  have hnode : ∀ u, r.block.node u = s.block.node u := fun u => by rw [node,node,hslot,hnodes]
  have hpushes' : (s.settle i r).pushes = s.pushes := by
    rw [pushes_settle,hpush]
    exact List.append_nil _
  have hpops' : (s.settle i r).pops = s.pops := by
    rw [pops_settle,hpop]
    exact List.append_nil _
  have hpushed : pushed (s.settle i r) = pushed s := congrArg (List.map Prod.fst) hpushes'
  have hpopped : popped (s.settle i r) = popped s := congrArg (List.map Prod.fst) hpops'
  have hlost : ∀ u, u < r.block.head → ¬Holds (s.settle i r) u → Spent s u ∨
      u < (s.block.node u).idx := by
    intro u hu hno
    by_cases hold : Holds s u ∨ s.block.head ≤ u
    · exact .inr ((hheld u hu hold).resolve_left hno)
    · exact .inl ⟨Nat.lt_of_not_le fun hle => hold (.inr hle),fun hh => hold (.inl hh)⟩
  constructor
  · exact hsize ▸ h.pow
  · intro u
    change r.block.slot (r.block.node u).idx = r.block.slot u
    rw [hnode,hslot,hslot]
    exact h.place u
  · rw [hpopped]
    exact (Function.comp_update Op.popTicket s.ops i r.op).symm ▸ hpops
  · rw [hpushed]
    exact (Function.comp_update Op.pushTicket s.ops i r.op).symm ▸ hpushes
  · rw [hpops',hpushes']
    exact h.sub
  · rw [hpushes',hpopped]
    intro u v
    change _ → _ → (r.block.node u).idx = u ∧ (r.block.node u).val = some v
    rw [hnode]
    exact h.stored u v
  · rw [hpushes',hpopped]
    intro u v
    change (r.block.node u).val = some v → ((r.block.node u).idx,v) ∈ _ ∧ (r.block.node u).idx ∉ _
    rw [hnode]
    exact h.backed u v
  · intro u hu
    change u < (r.block.node u).idx ∨ (r.block.node u).safe = false
    rw [hnode]
    rcases hlost u hu.1 hu.2 with hspent | hlt
    · exact h.gone u hspent
    · exact .inl hlt
  · rw [hpushed,hpopped]
    intro u hu hno hlt
    by_contra hfree
    obtain ⟨v,hv⟩ := mem_pushed hu
    rcases hlost u hlt hfree with hspent | hidx
    · exact hspent.2 (h.served u hu hno hspent.1)
    · exact absurd (h.stored u v hv hno).1 hidx.ne'
  · refine fun j => h.settle_fits hfit hsize hhead (fun u => ?_) (fun u hu => ?_) j
    · rw [hnode]
      exact .inr ⟨rfl,id⟩
    · rw [Past,hnode]
      exact (hlost u hu.1 hu.2).imp id .inl

/-- A pop that changes its node and is done with it. -/
theorem Inv.left (h : Inv s) {k : ℕ} {n : MpqNode V} (hpop : (s.ops i).popTicket = some k)
    (hblock : r.block = s.block.setNode k n)
    (hpop' : r.op.popTicket = none) (hpush' : r.op.pushTicket = none)
    (hgrown : Grown (s.block.node k) n) (hplace : s.block.slot n.idx = s.block.slot k)
    (hpast : k < n.idx ∨ n.idx ≠ k ∧ n.safe = false ∧ n.val ≠ none)
    (hsafe : (s.block.node k).safe = false → n.safe = false)
    (hval : n.val = none ∨ n.val = (s.block.node k).val ∧ n.idx = (s.block.node k).idx)
    (hevent : r.event = none ∧ (n.val = none → (s.block.node k).val = none) ∨
      ∃ v, r.event = some (.popped k v) ∧ s.block.node k = ⟨(s.block.node k).safe,k,some v⟩ ∧
        n.val = none)
    (hfit : Fits s.block (Spent s) r.op) : Inv (s.settle i r) := by
  have hsame : ∀ u, s.block.slot u = s.block.slot k → (s.settle i r).block.node u = n := by
    intro u hu
    change r.block.node u = n
    rw [hblock,setNode_same hu]
  have hother : ∀ u, s.block.slot u ≠ s.block.slot k →
      (s.settle i r).block.node u = s.block.node u := by
    intro u hu
    change r.block.node u = _
    rw [hblock,setNode_other hu]
  have hheld : ∀ u, Holds s u → Holds (s.settle i r) u ∨ u = k := fun u hu =>
    (holds_settle hu).imp id fun heq => Option.some.inj (heq.symm.trans hpop)
  have hhead : (s.settle i r).block.head = s.block.head := by
    change r.block.head = _
    rw [hblock]
    rfl
  have hspent : ∀ u, Spent (s.settle i r) u → Spent s u ∨ u = k := by
    intro u hu
    by_cases hold : Holds s u
    · exact .inr ((hheld u hold).resolve_left hu.2)
    · exact .inl ⟨hhead ▸ hu.1,hold⟩
  have hpushes : (s.settle i r).pushes = s.pushes := by
    rw [pushes_settle]
    rcases hevent with ⟨hev,-⟩ | ⟨v,hev,-⟩ <;> rw [hev] <;> exact List.append_nil _
  have hpopped : popped (s.settle i r) = popped s ∧ r.event = none ∨
      popped (s.settle i r) = popped s++[k] ∧ n.val = none := by
    rcases hevent with ⟨hev,-⟩ | ⟨v,hev,-,hnone⟩
    · refine .inl ⟨congrArg (List.map Prod.fst) (?_ : _ = s.pops),hev⟩
      rw [pops_settle,hev]
      exact List.append_nil _
    · refine .inr ⟨?_,hnone⟩
      rw [popped,pops_settle,hev]
      exact List.map_append
  have hless : ∀ u, u ∉ popped (s.settle i r) → u ∉ popped s := by
    intro u hu hin
    rcases hpopped with ⟨heq,-⟩ | ⟨heq,-⟩
    · exact hu (heq ▸ hin)
    · exact hu (heq ▸ List.mem_append_left _ hin)
  -- a value that was in the node is still there, or has been taken under its number
  have hkept : ∀ u v, (u,v) ∈ s.pushes → u ∉ popped (s.settle i r) →
      s.block.slot u = s.block.slot k → n.idx = u ∧ n.val = some v := by
    intro u v hu hno hslot
    have hin := h.stored u v hu (hless u hno)
    rw [node_congr hslot] at hin
    rcases hval with hnone | ⟨hval,hidx⟩
    · rcases hevent with ⟨-,hempty⟩ | ⟨w,hev,hnode,-⟩
      · rw [hempty hnone] at hin
        cases hin.2
      · refine absurd ?_ hno
        rw [hnode] at hin
        rw [popped,pops_settle,hev,List.map_append]
        exact List.mem_append_right _ (List.mem_singleton.mpr hin.1.symm)
    · exact ⟨hidx.trans hin.1,hval.trans hin.2⟩
  constructor
  · change ∃ e, r.block.size = _
    rw [hblock]
    exact h.pow
  · intro u
    change r.block.slot _ = r.block.slot u
    rw [hblock,setNode_slot,setNode_slot]
    by_cases hslot : s.block.slot u = s.block.slot k
    · rw [hsame u hslot,hplace,hslot]
    · rw [hother u hslot]
      exact h.place u
  · rw [hhead]
    refine (Function.comp_update Op.popTicket s.ops i r.op).symm ▸ ?_
    rw [hpop']
    rcases hpopped with ⟨heq,-⟩ | ⟨heq,-⟩ <;> rw [heq]
    · exact h.pops.drop i
    · exact h.pops.use hpop
  · refine (Function.comp_update Op.pushTicket s.ops i r.op).symm ▸ ?_
    change Issued r.block.tail _ _
    rw [hpush',hblock,pushed,hpushes]
    exact h.pushes.drop i
  · rw [hpushes]
    intro p hp
    rw [pops_settle] at hp
    rcases List.mem_append.mp hp with hp | hp
    · exact h.sub p hp
    · rcases hevent with ⟨hev,-⟩ | ⟨v,hev,hnode,-⟩ <;> rw [hev] at hp
      · cases hp
      · rw [List.mem_singleton.mp hp]
        have hin := (h.backed k v (by rw [hnode])).1
        rwa [hnode] at hin
  · intro u v hu hno
    rw [hpushes] at hu
    by_cases hslot : s.block.slot u = s.block.slot k
    · rw [hsame u hslot]
      exact hkept u v hu hno hslot
    · rw [hother u hslot]
      exact h.stored u v hu (hless u hno)
  · intro u v hv
    rw [hpushes]
    by_cases hslot : s.block.slot u = s.block.slot k
    · rw [hsame u hslot] at hv ⊢
      rcases hval with hnone | ⟨hold,hidx⟩
      · rw [hnone] at hv
        cases hv
      · rcases hpopped with ⟨heq,-⟩ | ⟨-,hnone⟩
        · rw [heq,hidx]
          exact h.backed k v (hold ▸ hv)
        · rw [hnone] at hv
          cases hv
    · rw [hother u hslot] at hv ⊢
      have hin := h.backed u v hv
      refine ⟨hin.1,?_⟩
      rcases hpopped with ⟨heq,-⟩ | ⟨heq,-⟩ <;> rw [heq]
      · exact hin.2
      · intro hmem
        rcases List.mem_append.mp hmem with hmem | hmem
        · exact hin.2 hmem
        · rw [← List.mem_singleton.mp hmem,h.place u] at hslot
          exact hslot rfl
  · intro u hu
    by_cases hslot : s.block.slot u = s.block.slot k
    · rw [hsame u hslot]
      rcases hspent u hu with hold | rfl
      · have hgone := h.gone u hold
        rw [node_congr hslot] at hgone
        exact hgone.imp (fun hlt => hlt.trans_le hgrown.idx) hsafe
      · exact hpast.imp id fun hp => hp.2.1
    · rw [hother u hslot]
      rcases hspent u hu with hold | rfl
      · exact h.gone u hold
      · exact absurd rfl hslot
  · intro u hu hno hlt
    rw [pushed,hpushes] at hu
    rw [hhead] at hlt
    rcases hheld u (h.served u hu (hless u hno) hlt) with hh | rfl
    · exact hh
    · obtain ⟨v,hv⟩ := mem_pushed hu
      have hin := hkept u v hv hno rfl
      rcases hpast with hlt | ⟨hne,-⟩
      · exact absurd hin.1 hlt.ne'
      · exact absurd hin.1 hne
  · refine fun j => h.settle_fits hfit (by rw [hblock]; rfl) hhead.ge (fun u => ?_)
      (fun u hu => ?_) j
    · rw [hblock]
      exact grown_setNode hgrown u
    · refine (hspent u hu).imp id fun heq => ?_
      subst heq
      have hn := hsame u rfl
      change r.block.node u = n at hn
      rw [Past,hn]
      exact hpast.imp id fun hp => hp.2.2

theorem Inv.put (h : Inv s) {w : V} {n : ℕ} {d : MpqNode V} (hop : s.ops i = .pushSwap w n t d)
    (hsame : s.block.node t = d) :
    Inv (s.settle i ⟨s.block.setNode t ⟨true,t,some w⟩,.pushed (some t),some (.pushed t w)⟩) := by
  obtain ⟨r,hr⟩ : ∃ r : Outcome V, r = ⟨s.block.setNode t ⟨true,t,some w⟩,.pushed (some t),
      some (.pushed t w)⟩ := ⟨_,rfl⟩
  rw [← hr]
  have hfit := h.fits i
  rw [hop] at hfit
  obtain ⟨hval,hidx,-⟩ := hfit
  have hheld : (s.ops i).pushTicket = some t := by rw [hop]; rfl
  have hnopop : (s.ops i).popTicket = none := by rw [hop]; rfl
  have hnode : ∀ u, s.block.slot u = s.block.slot t →
      (s.settle i r).block.node u = ⟨true,t,some w⟩ := by
    intro u hu
    rw [hr]
    exact setNode_same hu
  have hother : ∀ u, s.block.slot u ≠ s.block.slot t →
      (s.settle i r).block.node u = s.block.node u := by
    intro u hu
    rw [hr]
    exact setNode_other hu
  have hhead : (s.settle i r).block.head = s.block.head := by rw [hr]; rfl
  have hpushes : (s.settle i r).pushes = s.pushes++[(t,w)] := by
    rw [pushes_settle,hr]
    rfl
  have hpops : (s.settle i r).pops = s.pops := by
    rw [pops_settle,hr]
    exact List.append_nil _
  have hpopped : popped (s.settle i r) = popped s := congrArg (List.map Prod.fst) hpops
  have hholds : ∀ u, Holds s u → Holds (s.settle i r) u := fun u hu =>
    (holds_settle hu).resolve_right fun heq => by rw [hnopop] at heq; cases heq
  have hspent : ∀ u, Spent (s.settle i r) u → Spent s u := fun u hu =>
    ⟨hhead ▸ hu.1,fun hh => hu.2 (hholds u hh)⟩
  have hfresh : t ∉ popped s := fun hin => h.pushes.usedFree t (h.popped_pushed hin) i hheld
  constructor
  · change ∃ e, r.block.size = _
    rw [hr]
    exact h.pow
  · intro u
    change r.block.slot _ = r.block.slot u
    have hs : ∀ x, r.block.slot x = s.block.slot x := fun x => by rw [hr]; rfl
    rw [hs,hs]
    by_cases hslot : s.block.slot u = s.block.slot t
    · rw [hnode u hslot,hslot]
    · rw [hother u hslot]
      exact h.place u
  · rw [hhead,hpopped]
    refine (Function.comp_update Op.popTicket s.ops i r.op).symm ▸ ?_
    rw [hr]
    exact h.pops.drop i
  · refine (Function.comp_update Op.pushTicket s.ops i r.op).symm ▸ ?_
    change Issued r.block.tail _ _
    rw [pushed,hpushes,List.map_append,hr]
    exact h.pushes.use hheld
  · rw [hpops,hpushes]
    exact fun p hp => List.mem_append_left _ (h.sub p hp)
  · intro u v hu hno
    rw [hpushes] at hu
    rw [hpopped] at hno
    rcases List.mem_append.mp hu with hu | hu
    · have hin := h.stored u v hu hno
      by_cases hslot : s.block.slot u = s.block.slot t
      · rw [node_congr hslot,hsame,hval] at hin
        cases hin.2
      · rwa [hother u hslot]
    · cases List.mem_singleton.mp hu
      rw [hnode t rfl]
      exact ⟨rfl,rfl⟩
  · intro u v hv
    rw [hpushes,hpopped]
    by_cases hslot : s.block.slot u = s.block.slot t
    · rw [hnode u hslot] at hv ⊢
      cases hv
      exact ⟨List.mem_append_right _ (List.mem_singleton_self _),hfresh⟩
    · rw [hother u hslot] at hv ⊢
      exact (h.backed u v hv).imp (List.mem_append_left _) id
  · intro u hu
    by_cases hslot : s.block.slot u = s.block.slot t
    · rw [hnode u hslot]
      exact .inl (Nat.lt_of_not_le fun htu => h.not_spent hop hsame htu hslot (hspent u hu))
    · rw [hother u hslot]
      exact h.gone u (hspent u hu)
  · intro u hu hno hlt
    rw [pushed,hpushes,List.map_append] at hu
    rw [hpopped] at hno
    rw [hhead] at hlt
    rcases List.mem_append.mp hu with hu | hu
    · exact hholds u (h.served u hu hno hlt)
    · rw [List.mem_singleton.mp hu] at hlt ⊢
      by_contra hfree
      exact h.not_spent hop hsame (Nat.le_refl t) rfl ⟨hlt,fun hh => hfree (hholds t hh)⟩
  · refine fun j => h.settle_fits ?_ (by rw [hr]; rfl) hhead.ge (fun u => ?_)
      (fun u hu => .inl (hspent u hu)) j
    · rw [hr]
      trivial
    · rw [hr]
      refine grown_setNode ?_ u
      rw [hsame]
      rcases hidx.lt_or_eq with hlt | heq
      · exact .inl hlt
      · exact .inr ⟨heq.symm,fun hne => absurd hval hne⟩

theorem Inv.settle (h : Inv s) (hm : Move s.block (s.ops i) r)
    (hfit : Fits s.block (Spent s) r.op) : Inv (s.settle i r) := by
  have hsize : 0 < s.block.size := by
    obtain ⟨k,hk⟩ := h.pow
    rw [hk]
    exact Nat.two_pow_pos k
  have hold := h.fits i
  obtain ⟨o,ho⟩ : ∃ o, s.ops i = o := ⟨_,rfl⟩
  have hself : ∀ {r : Outcome V} {u : ℕ}, r.op.popTicket = some u → Holds (s.settle i r) u := by
    intro r u hu
    refine ⟨i,?_⟩
    change (Function.update s.ops i r.op i).popTicket = _
    rwa [Function.update_self]
  -- an access after which the thread has the same pop number, at an unchanged head
  have hsamepop : ∀ {r : Outcome V}, r.op.popTicket = (s.ops i).popTicket → ∀ u, u < s.block.head →
      (Holds s u ∨ s.block.head ≤ u) → Holds (s.settle i r) u ∨ u < (s.block.node u).idx := by
    intro r heq u hu hh
    rcases hh with hh | hle
    · exact .inl ((holds_settle hh).elim id fun hi => hself (heq.trans hi))
    · exact absurd hu (Nat.not_lt.mpr hle)
  rw [ho] at hm hold
  cases hm with
  | look pop push =>
      refine h.still rfl rfl (Nat.le_refl _) rfl rfl (h.pops.of_held fun j t hj => ?_)
        (h.pushes.of_held fun j t hj => ?_) (hsamepop (by rw [ho]; exact pop)) hfit
      · by_cases hji : j = i
        · subst hji
          rw [Function.update_self,pop,← ho] at hj
          exact hj
        · rwa [Function.update_of_ne hji] at hj
      · by_cases hji : j = i
        · subst hji
          rw [Function.update_self] at hj
          exact (congrArg Op.pushTicket ho).trans (push t hj)
        · rwa [Function.update_of_ne hji] at hj
  | @miss k val late =>
      refine h.still rfl rfl (Nat.le_refl _) rfl rfl (h.pops.drop i) (h.pushes.drop i)
        (fun u hu hh => ?_) hfit
      rcases hh with hh | hle
      · rcases holds_settle hh with hh | hi
        · exact .inl hh
        · rw [ho] at hi
          cases hi
          exact .inr late
      · exact absurd hu (Nat.not_lt.mpr hle)
  | empty short =>
      exact h.still rfl rfl (Nat.le_refl _) rfl rfl (h.pops.drop i) (h.pushes.drop i)
        (hsamepop (by rw [ho]; rfl)) hfit
  | claim =>
      refine h.still rfl rfl (Nat.le_succ _) rfl rfl (h.pops.take i) (h.pushes.drop i)
        (fun u hu hh => .inl ?_) hfit
      rcases hh with hh | hle
      · exact (holds_settle hh).resolve_right fun hi => by rw [ho] at hi; cases hi
      · exact hself (congrArg some (Nat.le_antisymm hle (Nat.lt_succ_iff.mp hu)))
  | fix same =>
      exact h.still rfl rfl (Nat.le_refl _) rfl rfl (h.pops.drop i)
        ((h.pushes.drop i).mono (same ▸ Nat.le_of_lt hold)) (hsamepop (by rw [ho]; rfl)) hfit
  | claimTail isOpen =>
      exact h.still rfl rfl (Nat.le_refl _) rfl rfl (h.pops.drop i) (h.pushes.take i)
        (hsamepop (by rw [ho]; rfl)) hfit
  | refuse shut =>
      exact h.still rfl rfl (Nat.le_refl _) rfl rfl (h.pops.drop i)
        ((h.pushes.drop i).mono (Nat.le_succ _)) (hsamepop (by rw [ho]; rfl)) hfit
  | close =>
      exact h.still rfl rfl (Nat.le_refl _) rfl rfl (h.pops.drop i) (h.pushes.drop i)
        (hsamepop (by rw [ho]; rfl)) hfit
  | @take k d v same val own =>
      refine h.left (by rw [ho]; rfl) rfl rfl rfl ?_ ?_ (.inl ?_) ?_ (.inl rfl)
        (.inr ⟨v,rfl,?_,rfl⟩) hfit
      · rw [same]
        exact .inl (Nat.lt_add_of_pos_right hsize)
      · rw [slot_add_size h.pow,own]
      · rw [own]
        exact Nat.lt_add_of_pos_right hsize
      · rw [same]
        exact id
      · rw [same,← own,← val]
  | @mark k d v same val own =>
      refine h.left (by rw [ho]; rfl) rfl rfl rfl ?_ ?_
        (.inr ⟨own,rfl,Option.some_ne_none v⟩) (fun _ => rfl) (.inr ?_)
        (.inl ⟨rfl,fun hv => absurd hv (Option.some_ne_none v)⟩) hfit
      · rw [same]
        exact .inr ⟨rfl,fun _ => Option.some_ne_none v⟩
      · rw [← same]
        exact h.place k
      · rw [same]
        exact ⟨val.symm,rfl⟩
  | @skip k d same val =>
      refine h.left (by rw [ho]; rfl) rfl rfl rfl ?_ ?_ (.inl ?_) ?_ (.inl rfl)
        (.inl ⟨rfl,fun _ => same ▸ val⟩) hfit
      · rw [same]
        exact .inl (Nat.lt_add_right_iff_pos.mpr hsize |>.trans_le' hold)
      · exact slot_add_size h.pow
      · exact Nat.lt_add_of_pos_right hsize
      · rw [same]
        exact id
  | put same => exact h.put ho same

theorem Inv.call (h : Inv s) (hrest : (s.ops i).Rests) {o : Op V} (hpop : o.popTicket = none)
    (hpush : o.pushTicket = none) (hfit : Fits s.block (Spent s) o) : Inv (s.call i o) := by
  have hnopop : (s.ops i).popTicket = none := by
    cases hi : s.ops i <;> rw [hi] at hrest <;> first | rfl | cases hrest
  have hcall : s.call i o = s.settle i ⟨s.block,o,none⟩ := by
    rw [State.settle]
    exact congrArg (State.mk _ _) (List.append_nil _).symm
  rw [hcall]
  refine h.still rfl rfl (Nat.le_refl _) rfl rfl ?_ ?_ (fun u hu hh => .inl ?_) hfit
  · rw [hpop]
    exact h.pops.drop i
  · rw [hpush]
    exact h.pushes.drop i
  · rcases hh with hh | hle
    · exact (holds_settle hh).resolve_right fun hi => by rw [hnopop] at hi; cases hi
    · exact absurd hu (Nat.not_lt.mpr hle)

theorem step_inv [DecidableEq V] (h : Inv s) (a : Action ι V) : Inv (step s a) := by
  cases a with
  | push i v =>
      dsimp only [step]
      split
      next hrest => exact h.call hrest rfl rfl trivial
      · exact h
  | pop i =>
      dsimp only [step]
      split
      next hrest => exact h.call hrest rfl rfl trivial
      · exact h
  | step i =>
      exact h.settle (perform_move _ _)
        (perform_fits (fun u hu => hu.1) (h.pops.below i) (h.fits i))

end

end Teleproxy.MpqSlots
