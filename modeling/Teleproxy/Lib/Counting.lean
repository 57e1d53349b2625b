import Mathlib.Algebra.BigOperators.Fin
import Mathlib.Algebra.Order.BigOperators.Group.Finset
import Mathlib.Data.List.Nodup

/-!
# Counting after a change at one place

Counters of the program are compared with the number of entries of a table
that satisfy a predicate. One step of the program changes the predicate at one
entry of a duplicate-free list, replaces one entry of a list, or sets one of
finitely many bits.
-/
namespace Teleproxy.Counting
variable {α : Type*}

theorem countP_congr_of_notMem {p q : α → Bool} {s : α} {l : List α} (hs : s ∉ l)
    (h : ∀ t ∈ l, t ≠ s → q t = p t) : l.countP q = l.countP p := by
  refine List.countP_congr fun t ht => ?_
  rw [h t ht (fun he => hs (he ▸ ht))]

/-- One more entry satisfies the predicate. -/
theorem countP_add_one {p q : α → Bool} {s : α} {l : List α} (hl : l.Nodup) (hs : s ∈ l)
    (hp : p s = false) (hq : q s = true) (h : ∀ t ∈ l, t ≠ s → q t = p t) :
    l.countP q = l.countP p+1 := by
  obtain ⟨l₁,l₂,rfl⟩ := List.append_of_mem hs
  have hd := List.nodup_middle.mp hl
  rw [List.nodup_cons,List.mem_append,not_or] at hd
  have h₁ := countP_congr_of_notMem hd.1.1 (fun t ht => h t (by simp [ht]))
  have h₂ := countP_congr_of_notMem hd.1.2 (fun t ht => h t (by simp [ht]))
  rw [List.countP_append,List.countP_append,List.countP_cons,List.countP_cons,h₁,h₂]
  simp only [hp,hq]
  simp only [if_true,Bool.false_eq_true,if_false]
  omega

section trues
variable {n : ℕ}

/-- The number of bits that are set. -/
def trues (f : Fin n → Bool) : ℕ := ∑ i, (f i).toNat

theorem trues_le (f : Fin n → Bool) : trues f ≤ n := by
  calc trues f ≤ ∑ _i : Fin n, 1 := Finset.sum_le_sum fun i _ => Bool.toNat_le (f i)
    _ = n := by simp

theorem trues_update (f : Fin n → Bool) (i : Fin n) (b : Bool) :
    trues (Function.update f i b)+(f i).toNat = trues f+b.toNat := by
  have hrest : ∑ j ∈ Finset.univ.erase i, (Function.update f i b j).toNat =
      ∑ j ∈ Finset.univ.erase i, (f j).toNat := by
    refine Finset.sum_congr rfl fun j hj => ?_
    rw [Function.update_of_ne (Finset.ne_of_mem_erase hj)]
  have hnew := Finset.add_sum_erase Finset.univ (fun j => (Function.update f i b j).toNat)
    (Finset.mem_univ i)
  have hold := Finset.add_sum_erase Finset.univ (fun j => (f j).toNat) (Finset.mem_univ i)
  rw [hrest] at hnew
  simp only [Function.update_self] at hnew
  unfold trues
  omega

end trues

end Teleproxy.Counting
