import Mathlib.Data.List.Nodup
import Mathlib.Logic.Function.Basic

/-!
# Tickets

A counter hands out numbers, each of them once. A holder has at most one number at a
time; it throws the number away, or has it written on the list of those that were used.
So no number is used twice, and a number that is used has no holder any more.
-/
namespace Teleproxy.Tickets
variable {ι : Type*} {next m : ℕ} {held : ι → Option ℕ} {used : List ℕ} {i : ι} {t : ℕ}

/-- The numbers below `next` have been handed out; `held` has those that wait to be used. -/
structure Issued (next : ℕ) (held : ι → Option ℕ) (used : List ℕ) : Prop where
  below : ∀ i t, held i = some t → t < next
  single : ∀ i j t, held i = some t → held j = some t → i = j
  usedBelow : ∀ t ∈ used, t < next
  usedFree : ∀ t ∈ used, ∀ i, held i ≠ some t
  nodup : used.Nodup

theorem Issued.start (hheld : ∀ i, held i = none) (hbelow : ∀ t ∈ used, t < next)
    (hnodup : used.Nodup) : Issued next held used where
  below i t h := by rw [hheld] at h; cases h
  single i j t h := by rw [hheld] at h; cases h
  usedBelow := hbelow
  usedFree t _ i h := by rw [hheld] at h; cases h
  nodup := hnodup

theorem Issued.mono (h : Issued next held used) (hle : next ≤ m) : Issued m held used :=
  {h with
    below := fun i t ht => Nat.lt_of_lt_of_le (h.below i t ht) hle
    usedBelow := fun t ht => Nat.lt_of_lt_of_le (h.usedBelow t ht) hle}

/-- Holders only throw numbers away. -/
theorem Issued.of_held {held' : ι → Option ℕ} (h : Issued next held used)
    (hheld : ∀ i t, held' i = some t → held i = some t) : Issued next held' used where
  below i t ht := h.below i t (hheld i t ht)
  single i j t hi hj := h.single i j t (hheld i t hi) (hheld j t hj)
  usedBelow := h.usedBelow
  usedFree t ht i hi := h.usedFree t ht i (hheld i t hi)
  nodup := h.nodup

variable [DecidableEq ι]

theorem Issued.drop (h : Issued next held used) (i : ι) :
    Issued next (Function.update held i none) used := by
  apply h.of_held
  intro j t hj
  by_cases hji : j = i
  · subst hji
    rw [Function.update_self] at hj
    cases hj
  · rwa [Function.update_of_ne hji] at hj

/-- A holder gets the next number. -/
theorem Issued.take (h : Issued next held used) (i : ι) :
    Issued (next+1) (Function.update held i (some next)) used where
  below j t hj := by
    by_cases hji : j = i
    · subst hji
      rw [Function.update_self] at hj
      cases hj
      exact Nat.lt_succ_self _
    · rw [Function.update_of_ne hji] at hj
      exact Nat.lt_succ_of_lt (h.below j t hj)
  single j k t hj hk := by
    by_cases hji : j = i <;> by_cases hki : k = i
    · rw [hji,hki]
    · subst hji
      rw [Function.update_self] at hj
      rw [Function.update_of_ne hki] at hk
      cases hj
      exact absurd (h.below k _ hk) (Nat.lt_irrefl _)
    · subst hki
      rw [Function.update_self] at hk
      rw [Function.update_of_ne hji] at hj
      cases hk
      exact absurd (h.below j _ hj) (Nat.lt_irrefl _)
    · rw [Function.update_of_ne hji] at hj
      rw [Function.update_of_ne hki] at hk
      exact h.single j k t hj hk
  usedBelow t ht := Nat.lt_succ_of_lt (h.usedBelow t ht)
  usedFree t ht j hj := by
    by_cases hji : j = i
    · subst hji
      rw [Function.update_self] at hj
      cases hj
      exact absurd (h.usedBelow _ ht) (Nat.lt_irrefl _)
    · rw [Function.update_of_ne hji] at hj
      exact h.usedFree t ht j hj
  nodup := h.nodup

/-- A holder uses its number. -/
theorem Issued.use (h : Issued next held used) (hi : held i = some t) :
    Issued next (Function.update held i none) (used++[t]) := by
  have hnew : t ∉ used := fun ht => h.usedFree t ht i hi
  refine {h.drop i with usedBelow := ?_, usedFree := ?_, nodup := ?_}
  · intro u hu
    rcases List.mem_append.mp hu with hu | hu
    · exact h.usedBelow u hu
    · rw [List.mem_singleton.mp hu]
      exact h.below i t hi
  · intro u hu j hj
    by_cases hji : j = i
    · subst hji
      rw [Function.update_self] at hj
      cases hj
    · rw [Function.update_of_ne hji] at hj
      rcases List.mem_append.mp hu with hu | hu
      · exact h.usedFree u hu j hj
      · rw [List.mem_singleton.mp hu] at hj
        exact hji (h.single j i t hj hi)
  · exact List.nodup_append.mpr ⟨h.nodup,List.nodup_singleton t,fun u hu w hw huw => by
      rw [List.mem_singleton.mp hw] at huw
      exact hnew (huw ▸ hu)⟩

end Teleproxy.Tickets
