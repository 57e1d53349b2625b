import Mathlib.Data.Finset.Range
import Mathlib.Logic.Function.Basic
import Teleproxy.Lib.CountTree

/-!
# Free buffers of a chunk

A chunk of message buffers keeps the number of its free buffers in a binary tree
of counters of 16 bits, with one leaf for each buffer. A buffer is allocated next
to a neighbor, or the first free one behind it, or one of the first sixteen free
ones by a random draw; the three searches decrement the counters of the path to
the buffer at different moments. Freeing a buffer increments them.
-/
namespace Teleproxy.BufferChunk
open Function CountTree

/-- What stops the program, and a loop that does not end. -/
inductive Fault
  | assertion
  | endless
  deriving DecidableEq

/-- The fields of `struct msg_buffers_chunk` that the search uses. -/
structure Chunk where
  twoPower : ℕ
  totBuffers : ℕ
  freeCnt : ℕ → ℕ

/-- `--` of an `unsigned short`; as an `int` the result is never negative. -/
def decr (c : ℕ → ℕ) (i : ℕ) : ℕ → ℕ := update c i ((c i+65535)%65536)

/-- The loop that marks the first buffers as free. -/
def setLeaves (twoPower : ℕ) : ℕ → (ℕ → ℕ) → ℕ → ℕ
  | 0, c => c
  | i+1, c => update (setLeaves twoPower i c) (twoPower+i) 1

def clearLeaves (twoPower chunkBuffers : ℕ) (c : ℕ → ℕ) : ℕ → ℕ := fun k =>
  if twoPower+chunkBuffers ≤ k ∧ k < twoPower+twoPower then 0 else c k

/-- The loop over the inner nodes, from the last to the first. -/
def sumNodes : ℕ → (ℕ → ℕ) → ℕ → ℕ
  | 0, c => c
  | i+1, c => sumNodes i (update c (i+1) ((c (2*(i+1))+c (2*(i+1)+1))%65536))

/-- The tree of `alloc_new_msg_buffers_chunk` in memory that held anything. -/
def allocNewMsgBuffersChunk (memory : ℕ → ℕ) (twoPower chunkBuffers : ℕ) : Chunk where
  twoPower := twoPower
  totBuffers := chunkBuffers
  freeCnt := sumNodes (twoPower-1)
    (clearLeaves twoPower chunkBuffers (setLeaves twoPower chunkBuffers memory))

/-- The loop that decrements a node and what is above it. -/
def decrUp (c : ℕ → ℕ) (k : ℕ) : ℕ → ℕ :=
  if 0 < k then decrUp (decr c k) (k/2) else c
termination_by k

/-- The search from the node that was remembered: the first free buffer below it. -/
def restart (twoPower : ℕ) : ℕ → (ℕ → ℕ) → ℕ → Except Fault ((ℕ → ℕ) × ℕ)
  | 0, _, _ => .error .endless
  | fuel+1, c, i =>
      if i < twoPower then
        let child := if c (2*i) = 0 then 2*i+1 else 2*i
        restart twoPower fuel (decr c child) child
      else .ok (c,i)

/-- The search for the first free buffer behind `x`: the counters, the leaf, and
the node from which the counters are still to be decremented, if it is not the leaf. -/
def nearest (twoPower x : ℕ) (c : ℕ → ℕ) : ℕ → ℕ → ℕ → ℕ → ℕ → Except Fault ((ℕ → ℕ) × ℕ × ℕ)
  | 0, _, _, _, _ => .error .endless
  | fuel+1, i, l, r, j =>
      if i < twoPower then
        let m := (l+r)/2
        if x < m then
          if 0 < c (2*i) then nearest twoPower x c fuel (2*i) l m (if 0 < c (2*i+1) then 2*i+1 else j)
          else nearest twoPower x c fuel (2*i+1) m r j
        else if 0 < c (2*i+1) then nearest twoPower x c fuel (2*i+1) m r j
        else do
          let (c,leaf) ← restart twoPower twoPower c j
          .ok (c,leaf,j)
      else .ok (c,i,0)

def allocNeighbor (C : Chunk) (x : ℕ) : Except Fault ((ℕ → ℕ) × ℕ) := do
  let (c,i,k) ←
    if x+1 < C.twoPower ∧ C.freeCnt (C.twoPower+x+1) ≠ 0 then
      .ok (C.freeCnt,C.twoPower+x+1,0)
    else nearest C.twoPower x C.freeCnt C.twoPower 1 0 C.twoPower 1
  let k := if k = 0 then i else k
  .ok (decrUp c k,i)

/-- The search for the free buffer number `j`. -/
def kth (twoPower : ℕ) : ℕ → (ℕ → ℕ) → ℕ → ℕ → Except Fault ((ℕ → ℕ) × ℕ)
  | 0, _, _, _ => .error .endless
  | fuel+1, c, i, j =>
      if i < twoPower then
        let c := decr c i
        if c (2*i) ≤ j then kth twoPower fuel c (2*i+1) (j-c (2*i))
        else kth twoPower fuel c (2*i) j
      else
        let c := decr c i
        if c i = 0 then .ok (c,i) else .error .assertion

def allocRandom (C : Chunk) (draw : ℕ) : Except Fault ((ℕ → ℕ) × ℕ) :=
  let j := if C.freeCnt 1 < 16 then C.freeCnt 1 else 16
  let j := draw*j/2^31
  if j < C.freeCnt 1 then kth C.twoPower C.twoPower C.freeCnt 1 j else .error .assertion

/-- The leaf of the buffer: behind the buffer `neighbor` of the chunk, or by a draw
of `lrand48_j`. -/
def chooseLeaf (C : Chunk) (neighbor : Option ℕ) (draw : ℕ) : Except Fault ((ℕ → ℕ) × ℕ) :=
  match neighbor with
  | some x => allocNeighbor C x
  | none => allocRandom C draw

/-- The part of `alloc_msg_buffer_internal` that takes a buffer from the chunk. -/
def allocMsgBuffer (C : Chunk) (neighbor : Option ℕ) (draw : ℕ) : Except Fault (Chunk × ℕ) :=
  if C.freeCnt 1 = 0 then .error .assertion
  else do
    let (c,i) ← chooseLeaf C neighbor draw
    if C.twoPower ≤ i ∧ i-C.twoPower < C.totBuffers then .ok ({C with freeCnt := c},i-C.twoPower)
    else .error .assertion

/-- The loop of `free_std_msg_buffer`; a counter that wraps fails the assertion. -/
def incrUp (c : ℕ → ℕ) (x : ℕ) : Except Fault (ℕ → ℕ) :=
  if 0 < x then
    if (c x+1)%65536 = 0 then .error .assertion
    else incrUp (update c x ((c x+1)%65536)) (x/2)
  else .ok c
termination_by x

def freeStdMsgBuffer (C : Chunk) (x : ℕ) : Except Fault Chunk :=
  if C.freeCnt (C.twoPower+x) ≠ 0 then .error .assertion
  else do
    let c ← incrUp C.freeCnt (C.twoPower+x)
    .ok {C with freeCnt := c}

/-- Every counter is the number of free buffers below its node. -/
def Tree (c : ℕ → ℕ) (n : ℕ) (free : Finset ℕ) : Prop :=
  ∀ k, 0 < k → k < 2*n → c k = below n free k

section
variable {c c₀ : ℕ → ℕ} {n tot : ℕ} {free : Finset ℕ}

theorem Tree.inner (h : Tree c n free) {k : ℕ} (hk : 0 < k) (hkn : k < n) :
    c k = c (2*k)+c (2*k+1) := by
  rw [h k hk (by omega),h (2*k) (by omega) (by omega),h (2*k+1) (by omega) (by omega)]
  exact below_inner hk hkn

theorem Tree.leaf (h : Tree c n free) (hfree : ∀ i ∈ free, i < n) {j : ℕ} (hj : j < n) :
    c (n+j) = if j ∈ free then 1 else 0 := by
  rw [h (n+j) (by omega) (by omega)]
  exact below_leaf hfree hj

theorem Tree.lt (h : Tree c n free) (hcard : free.card < 2^15) {k : ℕ} (hk : 0 < k)
    (hkn : k < 2*n) : c k < 2^15 := by
  rw [h k hk hkn]
  exact (below_le_card n free k).trans_lt hcard

/-- A counter that is positive is decremented without wrapping. -/
theorem decr_value {v : ℕ} (h0 : 0 < v) (hv : v < 2^15) : (v+65535)%65536 = v-1 := by
  omega

theorem decrUp_pos (c : ℕ → ℕ) {k : ℕ} (hk : 0 < k) :
    decrUp c k = decrUp (decr c k) (k/2) := by
  conv_lhs => unfold decrUp
  rw [if_pos hk]

theorem decrUp_zero (c : ℕ → ℕ) : decrUp c 0 = c := by
  unfold decrUp
  rfl

theorem decrUp_spec (c : ℕ → ℕ) (k : ℕ) {x : ℕ} (hx : 0 < x) :
    (Above x k → decrUp c k x = (c x+65535)%65536) ∧ (¬ Above x k → decrUp c k x = c x) := by
  induction k using Nat.strongRecOn generalizing c with
  | ind k ih =>
      by_cases hk : 0 < k
      · rw [decrUp_pos c hk]
        have hrest := ih (k/2) (by omega) (decr c k)
        by_cases hxk : x = k
        · have hnot : ¬ Above x (k/2) := fun h => by
            have := h.le
            omega
          refine ⟨fun _ => ?_,fun h => absurd (hxk ▸ above_refl x) h⟩
          rw [hrest.2 hnot,hxk,decr,update_self]
        · rw [above_half_iff,or_iff_right hxk]
          rwa [decr,update_of_ne hxk] at hrest
      · have hnot : ¬ Above x k := fun h => by
          have := h.le
          omega
        obtain rfl : k = 0 := by omega
        exact ⟨fun h => absurd h hnot,fun _ => by rw [decrUp_zero]⟩

/-- The counters on the path to a leaf have been decremented. -/
def Taken (c₀ c : ℕ → ℕ) (n leaf : ℕ) : Prop :=
  n ≤ leaf ∧ leaf < 2*n ∧ 0 < c₀ leaf ∧
    ∀ x, 0 < x → x < 2*n → (Above x leaf → c x = c₀ x-1) ∧ (¬ Above x leaf → c x = c₀ x)

theorem Tree.pos_of_above (h : Tree c n free) {x k : ℕ} (hx : 0 < x) (hk : k < 2*n)
    (ha : Above x k) (hpos : 0 < c k) : 0 < c x := by
  classical
  have hk0 : 0 < k := hx.trans_le ha.le
  rw [h k hk0 hk] at hpos
  rw [h x hx (ha.le.trans_lt hk)]
  obtain ⟨i,hi⟩ := Finset.card_pos.mp hpos
  rw [Finset.mem_filter] at hi
  exact Finset.card_pos.mpr ⟨i,Finset.mem_filter.mpr ⟨hi.1,ha.trans hi.2⟩⟩

theorem Tree.erase (h : Tree c₀ n free) (hfree : ∀ i ∈ free, i < n) {b : ℕ}
    (htaken : Taken c₀ c n (n+b)) : b ∈ free ∧ Tree c n (free.erase b) := by
  obtain ⟨_,hlt,hpos,hc⟩ := htaken
  have hb : b ∈ free := by
    rw [h.leaf hfree (by omega)] at hpos
    by_contra hb
    simp [hb] at hpos
  refine ⟨hb,fun k hk hkn => ?_⟩
  rw [below_erase hb,← h k hk hkn]
  split
  · next ha => exact (hc k hk hkn).1 ha
  · next ha => exact (hc k hk hkn).2 ha

/-- The counters below `top` on the path to `i` have been decremented. -/
def PartTaken (c₀ c : ℕ → ℕ) (n top i : ℕ) : Prop :=
  ∀ x, 0 < x → x < 2*n → (Above x i ∧ ¬ Above x top → c x = c₀ x-1) ∧
    (¬ (Above x i ∧ ¬ Above x top) → c x = c₀ x)

theorem PartTaken.child {top i child : ℕ} (h : PartTaken c₀ c n top i) (htop : top ≤ i)
    (hchild : child/2 = i) (h0 : 0 < child) (hn : child < 2*n) (hpos : 0 < c₀ child)
    (hlt : c₀ child < 2^15) : PartTaken c₀ (decr c child) n top child := by
  have hnot : ∀ y, y ≤ i → ¬ Above child y := fun y hy ha => by
    have := ha.le
    omega
  intro x hx hxn
  by_cases hxc : x = child
  · subst hxc
    have hsame := (h x hx hxn).2 fun hc => hnot i le_rfl hc.1
    rw [decr,update_self,hsame,decr_value hpos hlt]
    exact ⟨fun _ => rfl,fun hc => absurd ⟨above_refl x,hnot top htop⟩ hc⟩
  · rw [decr,update_of_ne hxc,above_half_iff,or_iff_right hxc,hchild]
    exact h x hx hxn

theorem restart_spec {fuel top i : ℕ} (htree : Tree c₀ n free) (hcard : free.card < 2^15)
    (h : PartTaken c₀ c n top i) (htop : Above top i) (hi : 0 < i) (hin : i < 2*n)
    (hpos : 0 < c₀ i) (hfuel : n-i < fuel) :
    ∃ c' leaf, restart n fuel c i = .ok (c',leaf) ∧ PartTaken c₀ c' n top leaf ∧
      Above top leaf ∧ n ≤ leaf ∧ leaf < 2*n ∧ 0 < c₀ leaf := by
  induction fuel generalizing c i with
  | zero => omega
  | succ fuel ih =>
      rw [restart]
      by_cases hlt : i < n
      · rw [if_pos hlt]
        have hsum := htree.inner hi hlt
        have hleft : c (2*i) = c₀ (2*i) := (h (2*i) (by omega) (by omega)).2 fun hc => by
          have := hc.1.le
          omega
        have hstep : ∀ child, child/2 = i → child < 2*n → 0 < c₀ child →
            ∃ c' leaf, restart n fuel (decr c child) child = .ok (c',leaf) ∧
              PartTaken c₀ c' n top leaf ∧ Above top leaf ∧ n ≤ leaf ∧ leaf < 2*n ∧
                0 < c₀ leaf := by
          intro child hchild hn hcpos
          exact ih (h.child htop.le hchild (by omega) hn hcpos (htree.lt hcard (by omega) hn))
            (above_half_iff.mpr (.inr (hchild ▸ htop))) (by omega) hn hcpos (by omega)
        by_cases hzero : c (2*i) = 0
        · simp only [hzero,if_true]
          exact hstep (2*i+1) (by omega) (by omega) (by omega)
        · simp only [hzero,if_false]
          exact hstep (2*i) (by omega) (by omega) (by omega)
      · rw [if_neg hlt]
        exact ⟨c,i,rfl,h,htop,by omega,hin,hpos⟩

/-- Decrementing upwards from a free leaf takes it. -/
theorem decrUp_taken {leaf : ℕ} (htree : Tree c₀ n free) (hcard : free.card < 2^15)
    (hleaf : leaf < 2*n) (hpos : 0 < c₀ leaf) {y : ℕ} (hy : 0 < y) (hyn : y < 2*n) :
    (Above y leaf → decrUp c₀ leaf y = c₀ y-1) ∧ (¬ Above y leaf → decrUp c₀ leaf y = c₀ y) := by
  have hup := decrUp_spec c₀ leaf hy
  refine ⟨fun ha => ?_,hup.2⟩
  rw [hup.1 ha]
  exact decr_value (htree.pos_of_above hy hleaf ha hpos) (htree.lt hcard hy hyn)

/-- The search behind a buffer ends at a free leaf, and once the remaining
counters are decremented the leaf is taken. -/
theorem nearest_spec {fuel x i l r j : ℕ} (htree : Tree c₀ n free) (hcard : free.card < 2^15)
    (hi : 0 < i) (hin : i < 2*n) (hpos : 0 < c₀ i) (hj : 0 < j) (hjn : j < 2*n) (hjpos : 0 < c₀ j)
    (hfuel : n-i < fuel) :
    ∃ c leaf k, nearest n x c₀ fuel i l r j = .ok (c,leaf,k) ∧
      Taken c₀ (decrUp c (if k = 0 then leaf else k)) n leaf := by
  induction fuel generalizing i l r j with
  | zero => omega
  | succ fuel ih =>
      rw [nearest]
      by_cases hlt : i < n
      · rw [if_pos hlt]
        dsimp only
        have hsum := htree.inner hi hlt
        have hright : 0 < c₀ (2*i+1) → ∀ l r j, 0 < j → j < 2*n → 0 < c₀ j →
            ∃ c leaf k, nearest n x c₀ fuel (2*i+1) l r j = .ok (c,leaf,k) ∧
              Taken c₀ (decrUp c (if k = 0 then leaf else k)) n leaf :=
          fun hp l r j h1 h2 h3 => ih (by omega) (by omega) hp h1 h2 h3 (by omega)
        by_cases hx : x < (l+r)/2
        · rw [if_pos hx]
          by_cases hleft : 0 < c₀ (2*i)
          · rw [if_pos hleft]
            by_cases hsib : 0 < c₀ (2*i+1)
            · rw [if_pos hsib]
              exact ih (by omega) (by omega) hleft (by omega) (by omega) hsib (by omega)
            · rw [if_neg hsib]
              exact ih (by omega) (by omega) hleft hj hjn hjpos (by omega)
          · rw [if_neg hleft]
            exact hright (by omega) _ _ _ hj hjn hjpos
        · rw [if_neg hx]
          by_cases hsib : 0 < c₀ (2*i+1)
          · rw [if_pos hsib]
            exact hright hsib _ _ _ hj hjn hjpos
          · rw [if_neg hsib]
            have hstart : PartTaken c₀ c₀ n j j := fun y _ _ =>
              ⟨fun hc => absurd hc.1 hc.2,fun _ => rfl⟩
            obtain ⟨c,leaf,hrun,hpart,hjl,hleaf,hleafn,hleafpos⟩ :=
              restart_spec htree hcard hstart (above_refl j) hj hjn hjpos (show n-j < n by omega)
            refine ⟨c,leaf,j,by simp [hrun,bind,Except.bind],hleaf,hleafn,hleafpos,?_⟩
            rw [if_neg (by omega)]
            intro y hy hyn
            have hup := decrUp_spec c j hy
            by_cases hyj : Above y j
            · have hypos := htree.pos_of_above hy hjn hyj hjpos
              have hsame := (hpart y hy hyn).2 fun hc => hc.2 hyj
              refine ⟨fun _ => ?_,fun hc => absurd (hyj.trans hjl) hc⟩
              rw [hup.1 hyj,hsame,decr_value hypos (htree.lt hcard hy hyn)]
            · rw [hup.2 hyj]
              exact ⟨fun hc => (hpart y hy hyn).1 ⟨hc,hyj⟩,
                fun hc => (hpart y hy hyn).2 fun hb => hc hb.1⟩
      · rw [if_neg hlt]
        refine ⟨c₀,i,0,rfl,by omega,hin,hpos,?_⟩
        rw [if_pos rfl]
        exact fun y hy hyn => decrUp_taken htree hcard hin hpos hy hyn

theorem kth_spec {fuel i j : ℕ} (htree : Tree c₀ n free) (hfree : ∀ i ∈ free, i < n)
    (hcard : free.card < 2^15) (h : PartTaken c₀ c n 0 (i/2)) (hi : 0 < i) (hin : i < 2*n)
    (hj : j < c₀ i) (hfuel : n-i < fuel) :
    ∃ c' leaf, kth n fuel c i j = .ok (c',leaf) ∧ Taken c₀ c' n leaf := by
  induction fuel generalizing c i j with
  | zero => omega
  | succ fuel ih =>
      have hpos : 0 < c₀ i := by omega
      have hpart := h.child (Nat.zero_le _) rfl hi hin hpos (htree.lt hcard hi hin)
      have hzero : ∀ x, 0 < x → ¬ Above x 0 := fun x hx ha => by
        have := ha.le
        omega
      rw [kth]
      dsimp only
      by_cases hlt : i < n
      · rw [if_pos hlt]
        have hsum := htree.inner hi hlt
        have hleft : decr c i (2*i) = c₀ (2*i) :=
          (hpart (2*i) (by omega) (by omega)).2 fun hc => by
            have := hc.1.le
            omega
        rw [hleft]
        by_cases hle : c₀ (2*i) ≤ j
        · rw [if_pos hle]
          exact ih (by rwa [show (2*i+1)/2 = i by omega]) (by omega) (by omega) (by omega) (by omega)
        · rw [if_neg hle]
          exact ih (by rwa [show 2*i/2 = i by omega]) (by omega) (by omega) (by omega) (by omega)
      · rw [if_neg hlt]
        have hleaf := htree.leaf hfree (show i-n < n by omega)
        rw [show n+(i-n) = i by omega] at hleaf
        have hone : c₀ i = 1 := by
          split at hleaf <;> omega
        have hempty : decr c i i = 0 := by
          rw [(hpart i hi hin).1 ⟨above_refl i,hzero i hi⟩,hone]
        rw [if_pos hempty]
        refine ⟨_,i,rfl,by omega,hin,hpos,fun x hx hxn => ?_⟩
        exact ⟨fun ha => (hpart x hx hxn).1 ⟨ha,hzero x hx⟩,
          fun hna => (hpart x hx hxn).2 fun hc => hna hc.1⟩

theorem allocNeighbor_spec {C : Chunk} (htree : Tree C.freeCnt C.twoPower free)
    (hcard : free.card < 2^15) (hroot : 0 < C.freeCnt 1) (hn : 0 < C.twoPower) (x : ℕ) :
    ∃ c leaf, allocNeighbor C x = .ok (c,leaf) ∧ Taken C.freeCnt c C.twoPower leaf := by
  unfold allocNeighbor
  by_cases hnext : x+1 < C.twoPower ∧ C.freeCnt (C.twoPower+x+1) ≠ 0
  · have hpos : 0 < C.freeCnt (C.twoPower+x+1) := Nat.pos_of_ne_zero hnext.2
    refine ⟨decrUp C.freeCnt (C.twoPower+x+1),C.twoPower+x+1,by simp [hnext,bind,Except.bind],
      by omega,by omega,hpos,?_⟩
    exact fun y hy hyn => decrUp_taken htree hcard (by omega) hpos hy hyn
  · obtain ⟨c,leaf,k,hrun,htaken⟩ := nearest_spec (x := x) (l := 0) (r := C.twoPower) htree hcard
      (by omega) (show 1 < 2*C.twoPower by omega) hroot (by omega)
      (show 1 < 2*C.twoPower by omega) hroot (show C.twoPower-1 < C.twoPower by omega)
    exact ⟨_,leaf,by simp [hnext,hrun,bind,Except.bind],htaken⟩

theorem allocRandom_spec {C : Chunk} (htree : Tree C.freeCnt C.twoPower free)
    (hfree : ∀ i ∈ free, i < C.twoPower) (hcard : free.card < 2^15) (hroot : 0 < C.freeCnt 1)
    (hn : 0 < C.twoPower) {draw : ℕ} (hdraw : draw < 2^31) :
    ∃ c leaf, allocRandom C draw = .ok (c,leaf) ∧ Taken C.freeCnt c C.twoPower leaf := by
  unfold allocRandom
  have hnumber : ∀ j, 0 < j → draw*j/2^31 < j := by
    intro j hj
    rw [Nat.div_lt_iff_lt_mul (by omega),Nat.mul_comm]
    exact Nat.mul_lt_mul_of_pos_left hdraw hj
  have hsmall : ∀ j, j ≤ C.freeCnt 1 → 0 < j → draw*j/2^31 < C.freeCnt 1 :=
    fun j hle h0 => (hnumber j h0).trans_le hle
  have hj : draw*(if C.freeCnt 1 < 16 then C.freeCnt 1 else 16)/2^31 < C.freeCnt 1 := by
    split <;> apply hsmall <;> omega
  dsimp only
  rw [if_pos hj]
  refine kth_spec htree hfree hcard (fun x hx _ => ?_) (by omega) (by omega) hj (by omega)
  have hzero : ¬ Above x 0 := fun ha => by
    have := ha.le
    omega
  exact ⟨fun hc => absurd hc.1 hzero,fun _ => rfl⟩

/-- An allocation from a chunk with a free buffer takes one of the free buffers. -/
theorem allocMsgBuffer_spec {C : Chunk} (htree : Tree C.freeCnt C.twoPower free)
    (hfree : ∀ i ∈ free, i < C.totBuffers) (htot : C.totBuffers ≤ C.twoPower)
    (hcard : free.card < 2^15) (hroot : 0 < C.freeCnt 1) (hn : 0 < C.twoPower)
    (neighbor : Option ℕ) {draw : ℕ} (hdraw : draw < 2^31) :
    ∃ c b, allocMsgBuffer C neighbor draw = .ok ({C with freeCnt := c},b) ∧ b ∈ free ∧
      Tree c C.twoPower (free.erase b) := by
  have hlt : ∀ i ∈ free, i < C.twoPower := fun i hi => (hfree i hi).trans_le htot
  have hchosen : ∃ c leaf, chooseLeaf C neighbor draw = .ok (c,leaf) ∧
      Taken C.freeCnt c C.twoPower leaf := by
    cases neighbor with
    | some x => exact allocNeighbor_spec htree hcard hroot hn x
    | none => exact allocRandom_spec htree hlt hcard hroot hn hdraw
  obtain ⟨c,leaf,hrun,htaken⟩ := hchosen
  obtain ⟨b,rfl⟩ := Nat.exists_eq_add_of_le htaken.1
  obtain ⟨hb,htree'⟩ := htree.erase hlt htaken
  refine ⟨c,b,?_,hb,htree'⟩
  have hbtot := hfree b hb
  have hne : C.freeCnt 1 ≠ 0 := by omega
  unfold allocMsgBuffer
  rw [if_neg hne]
  simp [hrun,hbtot,bind,Except.bind]

theorem incrUp_spec (c : ℕ → ℕ) (k : ℕ) (hlt : ∀ x, 0 < x → Above x k → c x+1 < 65536) :
    ∃ c', incrUp c k = .ok c' ∧ ∀ x, 0 < x →
      (Above x k → c' x = c x+1) ∧ (¬ Above x k → c' x = c x) := by
  induction k using Nat.strongRecOn generalizing c with
  | ind k ih =>
      rw [incrUp]
      by_cases hk : 0 < k
      · have hself := hlt k hk (above_refl k)
        have hmod : (c k+1)%65536 = c k+1 := Nat.mod_eq_of_lt hself
        have hhalf : ∀ x, Above x (k/2) → x ≠ k := fun x hx hxk => by
          have := hx.le
          omega
        obtain ⟨c',hrun,hc'⟩ := ih (k/2) (by omega) (update c k (c k+1)) fun x hx ha => by
          rw [update_of_ne (hhalf x ha)]
          exact hlt x hx (above_half_iff.mpr (.inr ha))
        refine ⟨c',by simp [hk,hmod,hrun],fun x hx => ?_⟩
        by_cases hxk : x = k
        · have hrest := (hc' x hx).2 fun ha => hhalf x ha hxk
          rw [hrest,hxk,update_self]
          exact ⟨fun _ => rfl,fun hna => absurd (above_refl k) hna⟩
        · rw [above_half_iff,or_iff_right hxk]
          have hrest := hc' x hx
          rwa [update_of_ne hxk] at hrest
      · have hnot : ∀ x, 0 < x → ¬ Above x k := fun x hx ha => by
          have := ha.le
          omega
        exact ⟨c,by simp [hk],fun x hx => ⟨fun ha => absurd ha (hnot x hx),fun _ => rfl⟩⟩

/-- A buffer that is not free can be freed, and then it is. -/
theorem freeStdMsgBuffer_spec {C : Chunk} (htree : Tree C.freeCnt C.twoPower free)
    (hfree : ∀ i ∈ free, i < C.twoPower) (hcard : free.card < 2^15) {x : ℕ} (hx : x ∉ free)
    (hxn : x < C.twoPower) :
    ∃ c, freeStdMsgBuffer C x = .ok {C with freeCnt := c} ∧
      Tree c C.twoPower (insert x free) := by
  have hleaf := htree.leaf hfree hxn
  rw [if_neg hx] at hleaf
  obtain ⟨c,hrun,hc⟩ := incrUp_spec C.freeCnt (C.twoPower+x) fun y hy ha => by
    have := htree.lt hcard hy (ha.le.trans_lt (by omega))
    omega
  refine ⟨c,by simp [freeStdMsgBuffer,hleaf,hrun,bind,Except.bind],fun k hk hkn => ?_⟩
  rw [below_insert hx,← htree k hk hkn]
  split
  · next ha => exact (hc k hk).1 ha
  · next ha => exact (hc k hk).2 ha

theorem setLeaves_eq (twoPower : ℕ) (m : ℕ) (c : ℕ → ℕ) (k : ℕ) :
    setLeaves twoPower m c k = if twoPower ≤ k ∧ k < twoPower+m then 1 else c k := by
  induction m with
  | zero =>
      rw [setLeaves,if_neg]
      omega
  | succ m ih =>
      rw [setLeaves]
      by_cases hk : k = twoPower+m
      · rw [hk,update_self,if_pos (by omega)]
      · rw [update_of_ne hk,ih]
        congr 1
        exact propext (by omega)

/-- The loop over the inner nodes completes a tree whose nodes behind `m` are right. -/
theorem sumNodes_tree (hcard : free.card < 2^15) {m : ℕ} (hm : m < n)
    (h : ∀ k, m < k → k < 2*n → c k = below n free k) : Tree (sumNodes m c) n free := by
  induction m generalizing c with
  | zero => exact h
  | succ m ih =>
      rw [sumNodes]
      apply ih (by omega)
      intro k hk hkn
      by_cases hkm : k = m+1
      · have hsum : below n free (m+1) = _ := below_inner (by omega) hm
        have hle := (below_le_card n free (m+1)).trans_lt hcard
        rw [hkm,update_self,h _ (by omega) (by omega),h _ (by omega) (by omega),← hsum]
        exact Nat.mod_eq_of_lt (by omega)
      · rw [update_of_ne hkm]
        exact h k (by omega) hkn

theorem alloc_new_tree (memory : ℕ → ℕ) (htot : tot ≤ n) (hsmall : tot < 2^15) (hn : 0 < n) :
    Tree (allocNewMsgBuffersChunk memory n tot).freeCnt n (Finset.range tot) := by
  apply sumNodes_tree (by simpa using hsmall) (by omega)
  intro k hk hkn
  obtain ⟨j,rfl⟩ := Nat.exists_eq_add_of_le (show n ≤ k by omega)
  have hmarked : ∀ i ∈ Finset.range tot, i < n := fun i hi =>
    (Finset.mem_range.mp hi).trans_le htot
  rw [below_leaf hmarked (by omega),clearLeaves,setLeaves_eq]
  by_cases hj : j < tot
  · rw [if_neg (by omega),if_pos (by omega),if_pos (Finset.mem_range.mpr hj)]
  · rw [if_pos (by omega),if_neg (by simpa using hj)]

end

/-- The states of a chunk and the buffers that are allocated in them. -/
inductive Reachable (memory : ℕ → ℕ) (twoPower chunkBuffers : ℕ) : Chunk → Finset ℕ → Prop
  | start : Reachable memory twoPower chunkBuffers
      (allocNewMsgBuffersChunk memory twoPower chunkBuffers) ∅
  | alloc {C C' : Chunk} {used : Finset ℕ} {neighbor : Option ℕ} {draw i : ℕ} :
      Reachable memory twoPower chunkBuffers C used → 0 < C.freeCnt 1 → draw < 2^31 →
      allocMsgBuffer C neighbor draw = .ok (C',i) →
      Reachable memory twoPower chunkBuffers C' (insert i used)
  | free {C C' : Chunk} {used : Finset ℕ} {x : ℕ} :
      Reachable memory twoPower chunkBuffers C used → x ∈ used →
      freeStdMsgBuffer C x = .ok C' →
      Reachable memory twoPower chunkBuffers C' (used.erase x)

/-- The counters are sums and the leaves the free buffers, every allocation that
is allowed returns a free buffer, and every release of an allocated buffer makes
that buffer free and no other. -/
structure Sound (C : Chunk) (used : Finset ℕ) : Prop where
  inner : ∀ k, 0 < k → k < C.twoPower → C.freeCnt k = C.freeCnt (2*k)+C.freeCnt (2*k+1)
  leaf : ∀ i < C.twoPower,
    C.freeCnt (C.twoPower+i) = if i < C.totBuffers ∧ i ∉ used then 1 else 0
  alloc : 0 < C.freeCnt 1 → ∀ neighbor draw, draw < 2^31 →
    ∃ C' i, allocMsgBuffer C neighbor draw = .ok (C',i) ∧ i < C.totBuffers ∧ i ∉ used
  free : ∀ x ∈ used, ∃ C', freeStdMsgBuffer C x = .ok C' ∧ ∀ i < C.twoPower,
    C'.freeCnt (C.twoPower+i) = if i = x then 1 else C.freeCnt (C.twoPower+i)

/-- The tree counts the buffers that are not allocated. -/
structure Kept (twoPower chunkBuffers : ℕ) (C : Chunk) (used : Finset ℕ) : Prop where
  twoPower : C.twoPower = twoPower
  totBuffers : C.totBuffers = chunkBuffers
  used_lt : ∀ i ∈ used, i < chunkBuffers
  tree : Tree C.freeCnt C.twoPower (Finset.range chunkBuffers \ used)

section
variable {memory : ℕ → ℕ} {n tot : ℕ} {C : Chunk} {used : Finset ℕ}

theorem card_free (tot : ℕ) (used : Finset ℕ) (hsmall : tot < 2^15) :
    (Finset.range tot \ used).card < 2^15 :=
  (Finset.card_le_card Finset.sdiff_subset).trans_lt (by simpa using hsmall)

theorem free_lt {i : ℕ} (hi : i ∈ Finset.range tot \ used) : i < tot :=
  Finset.mem_range.mp (Finset.mem_sdiff.mp hi).1

theorem Kept.alloc (h : Kept n tot C used) (htot : tot ≤ n) (hsmall : tot < 2^15) (hn : 0 < n)
    (hroot : 0 < C.freeCnt 1) (neighbor : Option ℕ) {draw : ℕ} (hdraw : draw < 2^31) :
    ∃ C' i, allocMsgBuffer C neighbor draw = .ok (C',i) ∧ i < C.totBuffers ∧ i ∉ used ∧
      Kept n tot C' (insert i used) := by
  obtain ⟨c,b,hrun,hb,htree⟩ := allocMsgBuffer_spec h.tree
    (fun i hi => h.totBuffers ▸ free_lt hi) (by rw [h.totBuffers,h.twoPower]; exact htot)
    (card_free tot used hsmall) hroot (by rw [h.twoPower]; exact hn) neighbor hdraw
  obtain ⟨hbtot,hbused⟩ := Finset.mem_sdiff.mp hb
  have hset : Finset.range tot \ insert b used = (Finset.range tot \ used).erase b := by
    ext i
    simp only [Finset.mem_sdiff,Finset.mem_insert,Finset.mem_erase,not_or]
    tauto
  refine ⟨_,b,hrun,h.totBuffers ▸ Finset.mem_range.mp hbtot,hbused,h.twoPower,h.totBuffers,?_,?_⟩
  · intro i hi
    rcases Finset.mem_insert.mp hi with rfl | hi
    · exact Finset.mem_range.mp hbtot
    · exact h.used_lt i hi
  · rw [hset]
    exact htree

theorem Kept.free (h : Kept n tot C used) (htot : tot ≤ n) (hsmall : tot < 2^15) {x : ℕ}
    (hx : x ∈ used) : ∃ C', freeStdMsgBuffer C x = .ok C' ∧ Kept n tot C' (used.erase x) := by
  have hxtot := h.used_lt x hx
  have hfree : ∀ i ∈ Finset.range tot \ used, i < C.twoPower := fun i hi => by
    rw [h.twoPower]
    exact (free_lt hi).trans_le htot
  obtain ⟨c,hrun,htree⟩ := freeStdMsgBuffer_spec h.tree hfree (card_free tot used hsmall)
    (show x ∉ Finset.range tot \ used by simp [hx]) (by rw [h.twoPower]; omega)
  have hset : Finset.range tot \ used.erase x = insert x (Finset.range tot \ used) := by
    ext i
    by_cases hix : i = x
    · simp [hix,hxtot]
    · simp [hix]
  refine ⟨_,hrun,h.twoPower,h.totBuffers,fun i hi => h.used_lt i (Finset.mem_of_mem_erase hi),?_⟩
  rw [hset]
  exact htree

theorem Kept.leaf (h : Kept n tot C used) (htot : tot ≤ n) {i : ℕ} (hi : i < C.twoPower) :
    C.freeCnt (C.twoPower+i) = if i < C.totBuffers ∧ i ∉ used then 1 else 0 := by
  have hfree : ∀ i ∈ Finset.range tot \ used, i < C.twoPower := fun i hi => by
    rw [h.twoPower]
    exact (free_lt hi).trans_le htot
  rw [h.tree.leaf hfree hi,h.totBuffers]
  simp

theorem reachable_kept (htot : tot ≤ n) (hsmall : tot < 2^15) (hn : 0 < n)
    (h : Reachable memory n tot C used) : Kept n tot C used := by
  induction h with
  | start =>
      refine ⟨rfl,rfl,by simp,?_⟩
      rw [Finset.sdiff_empty]
      exact alloc_new_tree memory htot hsmall hn
  | @alloc C C' used neighbor draw i _ hroot hdraw hrun ih =>
      obtain ⟨C'',j,hrun',_,_,hkept⟩ := ih.alloc htot hsmall hn hroot neighbor hdraw
      rw [hrun] at hrun'
      cases hrun'
      exact hkept
  | @free C C' used x _ hx hrun ih =>
      obtain ⟨C'',hrun',hkept⟩ := ih.free htot hsmall hx
      rw [hrun] at hrun'
      cases hrun'
      exact hkept

/-- In every reachable state of a chunk the counters are right, allocations
return free buffers and releases free their buffer. -/
theorem chunk_sound (htot : tot ≤ n) (hsmall : tot < 2^15) (hn : 0 < n)
    (h : Reachable memory n tot C used) : Sound C used := by
  have hkept := reachable_kept htot hsmall hn h
  refine ⟨fun k hk hkn => hkept.tree.inner hk hkn,fun i hi => hkept.leaf htot hi,?_,?_⟩
  · intro hroot neighbor draw hdraw
    obtain ⟨C',i,hrun,hi,hused,_⟩ := hkept.alloc htot hsmall hn hroot neighbor hdraw
    exact ⟨C',i,hrun,hi,hused⟩
  · intro x hx
    obtain ⟨C',hrun,hkept'⟩ := hkept.free htot hsmall hx
    refine ⟨C',hrun,fun i hi => ?_⟩
    have hsame : C'.twoPower = C.twoPower := hkept'.twoPower.trans hkept.twoPower.symm
    have hleaf := hkept'.leaf htot (i := i) (by rw [hsame]; exact hi)
    rw [hsame,hkept'.totBuffers] at hleaf
    have hold := hkept.leaf htot hi
    rw [hkept.totBuffers] at hold
    by_cases hix : i = x
    · rw [hleaf,hix]
      simp [hkept.used_lt x hx]
    · rw [hleaf,hold]
      simp [hix]

end

/-- Of three buffers the first is allocated by a draw and another one as its neighbor, and the first
is released. -/
theorem three_buffers_sound : ∃ C i, i ≠ 0 ∧ Sound C {i} := by
  have hone : Reachable (fun _ => 0) 4 3 _ (insert 0 ∅) := Reachable.alloc .start
    (by decide) (by decide)
    (show allocMsgBuffer (allocNewMsgBuffersChunk (fun _ => 0) 4 3) none 0 = .ok (_,0) from rfl)
  obtain ⟨C,i,halloc,-,hi⟩ :=
    (chunk_sound (by decide) (by decide) (by decide) hone).alloc (by decide) (some 0) 0 (by decide)
  have htwo := Reachable.alloc hone (by decide) (by decide) halloc
  obtain ⟨C',hfree,-⟩ := (chunk_sound (by decide) (by decide) (by decide) htwo).free 0 (by simp)
  have hthree := Reachable.free htwo (by simp) hfree
  have hne : i ≠ 0 := by simpa using hi
  have hused : (insert i (insert 0 ∅) : Finset ℕ).erase 0 = {i} := by
    rw [Finset.erase_insert_of_ne hne]
    rfl
  rw [hused] at hthree
  exact ⟨C',i,hne,chunk_sound (by decide) (by decide) (by decide) hthree⟩

end Teleproxy.BufferChunk
