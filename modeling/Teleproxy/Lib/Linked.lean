import Mathlib.Data.List.Perm.Subperm

/-!
# Singly linked lists in a heap

`next` reads the link of a cell and fails when the cell is not allocated; a
link is a pointer or null. `Follows next p is` says that the pointer `p` leads
through exactly the cells `is` and then to null. The lemmas are the ones that
list surgery needs: what does not touch the cells, a cell added behind the last
one, the last cell cut off, and a cell left out in the middle.
-/
namespace Teleproxy.Linked
variable {ι : Type*} {next next' : ι → Option (Option ι)} {p : Option ι} {i j : ι} {is : List ι}

def Follows (next : ι → Option (Option ι)) : Option ι → List ι → Prop
  | p, [] => p = none
  | p, i::is => p = some i ∧ ∃ q, next i = some q ∧ Follows next q is

theorem Follows.congr (h : Follows next p is) (heq : ∀ i ∈ is, next' i = next i) :
    Follows next' p is := by
  induction is generalizing p with
  | nil => exact h
  | cons i is ih =>
      obtain ⟨hp,q,hq,hr⟩ := h
      refine ⟨hp,q,?_,ih hr fun j hj => heq j (by simp [hj])⟩
      rw [heq i (by simp),hq]

/-- Every cell passed can be read. -/
theorem Follows.readable (h : Follows next p is) (hi : i ∈ is) : ∃ q, next i = some q := by
  induction is generalizing p with
  | nil => simp at hi
  | cons j is ih =>
      obtain ⟨-,q,hq,hr⟩ := h
      rcases List.mem_cons.mp hi with rfl | hm
      · exact ⟨q,hq⟩
      · exact ih hr hm

/-- The last cell holds the null link. -/
theorem Follows.next_last (h : Follows next p (is++[i])) : next i = some none := by
  induction is generalizing p with
  | nil =>
      obtain ⟨-,q,hq,hr⟩ := h
      rw [hq]
      exact congrArg some hr
  | cons j is ih =>
      obtain ⟨-,q,-,hr⟩ := h
      exact ih hr

/-- The link of the last cell is set to a new cell. -/
theorem Follows.concat (h : Follows next p (is++[i])) (heq : ∀ k ∈ is, next' k = next k)
    (hi : next' i = some (some j)) (hj : next' j = some none) :
    Follows next' p (is++[i]++[j]) := by
  induction is generalizing p with
  | nil =>
      obtain ⟨hp,-⟩ := h
      exact ⟨hp,some j,hi,rfl,none,hj,rfl⟩
  | cons k is ih =>
      obtain ⟨hp,q,hq,hr⟩ := h
      refine ⟨hp,q,?_,ih hr fun k' hk => heq k' (by simp [hk])⟩
      rw [heq k (by simp),hq]

/-- The link into the last cell is set to null. -/
theorem Follows.cut (h : Follows next p (is++[i]++[j])) (heq : ∀ k ∈ is, next' k = next k)
    (hi : next' i = some none) : Follows next' p (is++[i]) := by
  induction is generalizing p with
  | nil =>
      obtain ⟨hp,-⟩ := h
      exact ⟨hp,none,hi,rfl⟩
  | cons k is ih =>
      obtain ⟨hp,q,hq,hr⟩ := h
      refine ⟨hp,q,?_,ih hr fun k' hk => heq k' (by simp [hk])⟩
      rw [heq k (by simp),hq]

/-- The cell behind `i` is left out: `i` takes over its link. -/
theorem Follows.skip {js : List ι} (h : Follows next p (is++i::j::js))
    (heq : ∀ k ∈ is++js, next' k = next k) (hi : next' i = next j) :
    Follows next' p (is++i::js) := by
  induction is generalizing p with
  | nil =>
      obtain ⟨hp,q,-,hj,r,hr,hrest⟩ := h
      refine ⟨hp,r,hi.trans hr,hrest.congr ?_⟩
      exact fun k hk => heq k (List.mem_append_right _ hk)
  | cons k is ih =>
      obtain ⟨hp,q,hq,hrest⟩ := h
      refine ⟨hp,q,?_,ih hrest fun k' hk => heq k' (List.mem_cons_of_mem _ hk)⟩
      rw [heq k (by simp),hq]

/-- A list without repetition is no longer than the range its cells come from;
this bounds every walk along it. -/
theorem length_le_of_lt {n : ℕ} {is : List ℕ} (hd : is.Nodup) (h : ∀ i ∈ is, i < n) :
    is.length ≤ n := by
  have hsub : is ⊆ List.range n := fun i hi => List.mem_range.mpr (h i hi)
  simpa using (List.subperm_of_subset hd hsub).length_le

end Teleproxy.Linked
