import Mathlib.Data.Finset.Card
import Mathlib.Data.Nat.Basic
import Mathlib.Algebra.Group.Nat.Defs

/-!
# Counts in an implicit binary tree

The nodes are the positive numbers, the children of `k` are `2*k` and `2*k+1`,
and the leaves of the tree of size `n` are the numbers from `n` to `2*n-1`.
`below` is the number of marked leaves below a node. It is determined by its
values at the leaves and by the sums at the inner nodes, and marking or unmarking
a leaf changes it by one exactly at the nodes above the leaf.
-/
namespace Teleproxy.CountTree

/-- The node `k` is `x` or an ancestor of it. -/
def Above (k x : ℕ) : Prop := ∃ m, x/2^m = k

variable {k x n i j : ℕ}

theorem above_refl (x : ℕ) : Above x x := ⟨0,by simp⟩

theorem above_half_iff : Above k x ↔ k = x ∨ Above k (x/2) := by
  constructor
  · rintro ⟨m,rfl⟩
    cases m with
    | zero => exact .inl (by simp)
    | succ m => exact .inr ⟨m,by rw [Nat.pow_succ',Nat.div_div_eq_div_mul]⟩
  · rintro (rfl | ⟨m,rfl⟩)
    · exact above_refl k
    · exact ⟨m+1,by rw [Nat.pow_succ',Nat.div_div_eq_div_mul]⟩

theorem Above.trans {y : ℕ} (h : Above k x) (hx : Above x y) : Above k y := by
  obtain ⟨m,rfl⟩ := h
  obtain ⟨l,rfl⟩ := hx
  exact ⟨l+m,by rw [Nat.pow_add,Nat.div_div_eq_div_mul]⟩

theorem Above.le (h : Above k x) : k ≤ x := by
  obtain ⟨m,rfl⟩ := h
  exact Nat.div_le_self x (2^m)

/-- Below a node that is not the node itself there is one of its children. -/
theorem above_iff_child (hne : k ≠ x) : Above k x ↔ Above (2*k) x ∨ Above (2*k+1) x := by
  constructor
  · rintro ⟨m,hm⟩
    cases m with
    | zero => exact absurd (by simpa using hm.symm) hne
    | succ m =>
        have hhalf : x/2^m/2 = k := by rw [← hm,Nat.pow_succ,Nat.div_div_eq_div_mul]
        have hchild : x/2^m = 2*k ∨ x/2^m = 2*k+1 := by omega
        exact hchild.imp (fun h => ⟨m,h⟩) fun h => ⟨m,h⟩
  · have hleft : Above k (2*k) := ⟨1,by omega⟩
    have hright : Above k (2*k+1) := ⟨1,by omega⟩
    exact fun h => h.elim hleft.trans hright.trans

/-- No node is below both children. -/
theorem not_above_both (hk : 0 < k) (hl : Above (2*k) x) : ¬ Above (2*k+1) x := by
  rintro ⟨m,hm⟩
  obtain ⟨l,hl⟩ := hl
  rcases Nat.lt_trichotomy l m with hlt | rfl | hlt
  · have hle : x/2^m ≤ x/2^l := Nat.div_le_div_left (Nat.pow_le_pow_right (by omega) hlt.le)
      (Nat.pow_pos (by omega))
    omega
  · omega
  · obtain ⟨d,rfl⟩ := Nat.exists_eq_add_of_lt hlt
    have hdiv : x/2^(m+d+1) = x/2^m/2^(d+1) := by
      rw [Nat.add_assoc,Nat.pow_add,Nat.div_div_eq_div_mul]
    have hle : x/2^m/2^(d+1) ≤ x/2^m/2^1 := Nat.div_le_div_left
      (Nat.pow_le_pow_right (by omega) (by omega)) (by omega)
    omega

theorem above_leaf_iff (hi : i < n) (hj : j < n) : Above (n+j) (n+i) ↔ i = j := by
  constructor
  · rintro ⟨m,hm⟩
    cases m with
    | zero => simpa using hm
    | succ m =>
        have hle : (n+i)/2^(m+1) ≤ (n+i)/2^1 := Nat.div_le_div_left
          (Nat.pow_le_pow_right (by omega) (by omega)) (by omega)
        omega
  · rintro rfl
    exact above_refl _

open Classical in
/-- The number of marked leaves below a node. -/
noncomputable def below (n : ℕ) (marked : Finset ℕ) (k : ℕ) : ℕ :=
  (marked.filter fun i => Above k (n+i)).card

variable {marked : Finset ℕ}

theorem below_leaf (hmarked : ∀ i ∈ marked, i < n) (hj : j < n) [Decidable (j ∈ marked)] :
    below n marked (n+j) = if j ∈ marked then 1 else 0 := by
  classical
  have hfilter : (marked.filter fun i => Above (n+j) (n+i)) = if j ∈ marked then {j} else ∅ := by
    ext i
    by_cases hi : i ∈ marked
    · have hiff := above_leaf_iff (hmarked i hi) hj
      by_cases hij : i = j
      · simp [← hij,hi,above_refl]
      · have hna : ¬ Above (n+j) (n+i) := fun h => hij (hiff.mp h)
        by_cases hjm : j ∈ marked <;> simp [hna,hjm,hij]
    · by_cases hjm : j ∈ marked
      · have hij : i ≠ j := by
          rintro rfl
          exact hi hjm
        simp [hi,hjm,hij]
      · simp [hi,hjm]
  rw [below,hfilter]
  split <;> simp

theorem below_inner (hk : 0 < k) (hkn : k < n) :
    below n marked k = below n marked (2*k)+below n marked (2*k+1) := by
  classical
  have hunion : (marked.filter fun i => Above k (n+i)) =
      (marked.filter fun i => Above (2*k) (n+i)) ∪ marked.filter fun i => Above (2*k+1) (n+i) := by
    ext i
    have hne : k ≠ n+i := by omega
    simp only [Finset.mem_filter,Finset.mem_union,above_iff_child hne,and_or_left]
  have hdisjoint : Disjoint (marked.filter fun i => Above (2*k) (n+i))
      (marked.filter fun i => Above (2*k+1) (n+i)) := by
    rw [Finset.disjoint_filter]
    exact fun i _ hl => not_above_both hk hl
  rw [below,hunion,Finset.card_union_of_disjoint hdisjoint]
  rfl

theorem below_le_card (n : ℕ) (marked : Finset ℕ) (k : ℕ) : below n marked k ≤ marked.card := by
  classical
  exact Finset.card_filter_le _ _

open Classical in
/-- Unmarking a leaf. -/
theorem below_erase (hi : i ∈ marked) :
    below n (marked.erase i) k = below n marked k-if Above k (n+i) then 1 else 0 := by
  rw [below,Finset.filter_erase]
  split
  · next ha => rw [Finset.card_erase_of_mem (Finset.mem_filter.mpr ⟨hi,ha⟩),below]
  · next ha =>
      have hnot : i ∉ marked.filter fun i => Above k (n+i) :=
        fun hm => ha (Finset.mem_filter.mp hm).2
      rw [Finset.erase_eq_of_notMem hnot]
      rfl

open Classical in
/-- Marking a leaf. -/
theorem below_insert (hi : i ∉ marked) :
    below n (insert i marked) k = below n marked k+if Above k (n+i) then 1 else 0 := by
  rw [below,Finset.filter_insert]
  split
  · rw [Finset.card_insert_of_notMem fun hm => hi (Finset.mem_filter.mp hm).1]
    rfl
  · rfl

end Teleproxy.CountTree
