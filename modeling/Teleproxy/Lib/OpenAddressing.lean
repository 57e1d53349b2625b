import Mathlib.Data.Finset.Card
import Mathlib.Data.Finset.Range
import Mathlib.Data.Nat.Find
import Mathlib.Data.Nat.ModEq
import Mathlib.Data.Int.GCD

/-!
# Tables with open addressing

A table of `n` places holds keys with values. Each key has a first place and a
stride, and its walk goes on by the stride, modulo `n`, until it comes to a free
place or to the key. When the stride is coprime to `n` the walk sees every
place, so it ends as long as one place is free. `Kept` says that every key is
where its walk ends; it is kept when a key is stored where its walk ended at a
free place, and then the walk of a key decides whether it is in the table.
-/
namespace Teleproxy.OpenAddressing
variable {K V : Type*} {n : ℕ} {start stride : K → ℕ} {t : ℕ → Option (K × V)} {k : K} {v : V}

/-- The place that the walk of a key comes to after `j` strides. -/
def position (n : ℕ) (start stride : K → ℕ) (k : K) (j : ℕ) : ℕ := (start k+j*stride k)%n

theorem position_zero (h : start k < n) : position n start stride k 0 = start k := by
  rw [position,Nat.zero_mul,Nat.add_zero,Nat.mod_eq_of_lt h]

theorem position_lt (hn : 0 < n) (j : ℕ) : position n start stride k j < n := Nat.mod_lt _ hn

/-- A stride that is shorter than the table passes its end at most once. -/
theorem position_succ (h : stride k < n) (j : ℕ) :
    position n start stride k (j+1) =
      if n ≤ position n start stride k j+stride k then position n start stride k j+stride k-n
      else position n start stride k j+stride k := by
  have hlt : position n start stride k j < n := position_lt (by omega) j
  have hsum : position n start stride k (j+1) = (position n start stride k j+stride k)%n := by
    rw [position,position,Nat.mod_add_mod]
    congr 1
    rw [Nat.add_mul]
    omega
  rw [hsum]
  split
  · next hle => rw [Nat.mod_eq_sub_mod hle,Nat.mod_eq_of_lt (by omega)]
  · next hle => exact Nat.mod_eq_of_lt (by omega)

/-- The walk of a key sees every place. -/
theorem exists_position (hcoprime : (stride k).Coprime n) {i : ℕ} (hi : i < n) :
    ∃ j < n, position n start stride k j = i := by
  have hinj : Set.InjOn (position n start stride k) (Finset.range n) := by
    intro a ha b hb hab
    rw [Finset.coe_range,Set.mem_Iio] at ha hb
    have hmul : a*stride k ≡ b*stride k [MOD n] := Nat.ModEq.add_left_cancel' (start k) hab
    have hmod := Nat.ModEq.cancel_right_of_coprime hcoprime.symm hmul
    exact Nat.ModEq.eq_of_lt_of_lt hmod ha hb
  have hmaps : (Finset.range n).image (position n start stride k) ⊆ Finset.range n := by
    intro p hp
    have ⟨j,_,hj⟩ := Finset.mem_image.mp hp
    rw [← hj,Finset.mem_range]
    exact position_lt (by omega) j
  have hall := Finset.eq_of_subset_of_card_le hmaps (by rw [Finset.card_image_of_injOn hinj])
  have ⟨j,hj,hji⟩ := Finset.mem_image.mp (hall ▸ Finset.mem_range.mpr hi)
  exact ⟨j,Finset.mem_range.mp hj,hji⟩

/-- There is no other key at this place of the walk. -/
def Stops (n : ℕ) (start stride : K → ℕ) (t : ℕ → Option (K × V)) (k : K) (j : ℕ) : Prop :=
  ∀ e ∈ t (position n start stride k j), e.1 = k

structure FirstStop (n : ℕ) (start stride : K → ℕ) (t : ℕ → Option (K × V)) (k : K) (j : ℕ) :
    Prop where
  stops : Stops n start stride t k j
  first : ∀ i < j, ¬Stops n start stride t k i

theorem FirstStop.unique {i j : ℕ} (hi : FirstStop n start stride t k i)
    (hj : FirstStop n start stride t k j) : i = j := by
  rcases lt_trichotomy i j with h | h | h
  · exact absurd hi.stops (hj.first i h)
  · exact h
  · exact absurd hj.stops (hi.first j h)

/-- The walk of every key ends when a place is free. -/
theorem exists_firstStop (hcoprime : (stride k).Coprime n) (hfree : ∃ i < n, t i = none) :
    ∃ j < n, FirstStop n start stride t k j := by
  classical
  have ⟨i,hi,hnone⟩ := hfree
  have ⟨j,hj,hji⟩ : ∃ j < n, position n start stride k j = i := exists_position hcoprime hi
  have hstop : ∃ j, Stops n start stride t k j := ⟨j,fun e he => by simp [hji,hnone] at he⟩
  exact ⟨Nat.find hstop,(Nat.find_min' hstop fun e he => by simp [hji,hnone] at he).trans_lt hj,
    Nat.find_spec hstop,fun i hi => Nat.find_min hstop hi⟩

/-- Every key is where its walk ends. -/
def Kept (n : ℕ) (start stride : K → ℕ) (t : ℕ → Option (K × V)) : Prop :=
  ∀ i k v, t i = some (k,v) →
    ∃ j, position n start stride k j = i ∧ FirstStop n start stride t k j

theorem kept_empty : Kept n start stride (fun _ => (none : Option (K × V))) := by
  intro i k v h
  cases h

/-- The walk of a key comes to the key when it is in the table. -/
theorem Kept.stored_iff (h : Kept n start stride t) {j : ℕ}
    (hj : FirstStop n start stride t k j) :
    (∃ i, t i = some (k,v)) ↔ t (position n start stride k j) = some (k,v) := by
  constructor
  · intro ⟨i,hi⟩
    have ⟨j',hji,hj'⟩ := h i k v hi
    rw [hj.unique hj',hji,hi]
  · intro hat
    exact ⟨_,hat⟩

section store
variable {j : ℕ} (hj : FirstStop n start stride t k j)
  (hfree : t (position n start stride k j) = none)
include hj hfree

omit hj in
/-- A walk is not changed by what is stored at a place that was free. -/
theorem firstStop_update {k' : K} {j' : ℕ} (hj' : FirstStop n start stride t k' j')
    (hother : t (position n start stride k' j') ≠ none) :
    FirstStop n start stride
      (Function.update t (position n start stride k j) (some (k,v))) k' j' := by
  have hne : ∀ i ≤ j', position n start stride k' i ≠ position n start stride k j := by
    intro i hi he
    rcases hi.lt_or_eq with hlt | rfl
    · exact hj'.first i hlt fun e hmem => by simp [he,hfree] at hmem
    · exact hother (he ▸ hfree)
  constructor
  · intro e he
    rw [Function.update_of_ne (hne j' le_rfl)] at he
    exact hj'.stops e he
  · intro i hi hstop
    refine hj'.first i hi fun e he => hstop e ?_
    rw [Function.update_of_ne (hne i hi.le)]
    exact he

theorem Kept.store (h : Kept n start stride t) :
    Kept n start stride (Function.update t (position n start stride k j) (some (k,v))) := by
  intro i k' v' hat
  by_cases hi : i = position n start stride k j
  · rw [hi,Function.update_self] at hat
    cases hat
    refine ⟨j,hi.symm,fun e he => ?_,fun i' hi' hstop => ?_⟩
    · rw [Function.update_self] at he
      cases he
      rfl
    · have hne : position n start stride k i' ≠ position n start stride k j := by
        intro he
        exact hj.first i' hi' fun e hmem => by simp [he,hfree] at hmem
      refine hj.first i' hi' fun e he => hstop e ?_
      rw [Function.update_of_ne hne]
      exact he
  · rw [Function.update_of_ne hi] at hat
    have ⟨j',hji,hj'⟩ := h i k' v' hat
    exact ⟨j',hji,firstStop_update hfree hj' (by simp [hji,hat])⟩

omit hj in
/-- The table holds what it held and the new key. -/
theorem stored_update {k' : K} {v' : V} :
    (∃ i, Function.update t (position n start stride k j) (some (k,v)) i = some (k',v')) ↔
      (k' = k ∧ v' = v) ∨ ∃ i, t i = some (k',v') := by
  constructor
  · intro ⟨i,hi⟩
    by_cases he : i = position n start stride k j
    · rw [he,Function.update_self] at hi
      cases hi
      exact .inl ⟨rfl,rfl⟩
    · exact .inr ⟨i,by rwa [Function.update_of_ne he] at hi⟩
  · rintro (⟨rfl,rfl⟩ | ⟨i,hi⟩)
    · exact ⟨_,Function.update_self ..⟩
    · refine ⟨i,?_⟩
      rw [Function.update_of_ne]
      · exact hi
      · rintro rfl
        simp [hfree] at hi

end store

/-- The places that are taken. -/
def occupied (n : ℕ) (t : ℕ → Option (K × V)) : Finset ℕ :=
  (Finset.range n).filter fun i => (t i).isSome

theorem exists_free (h : (occupied n t).card < n) : ∃ i < n, t i = none := by
  by_contra hall
  push Not at hall
  have heq : occupied n t = Finset.range n := by
    refine Finset.filter_true_of_mem fun i hi => ?_
    exact Option.isSome_iff_ne_none.mpr (hall i (Finset.mem_range.mp hi))
  rw [heq,Finset.card_range] at h
  exact lt_irrefl n h

theorem card_occupied_update_le (i : ℕ) (e : K × V) :
    (occupied n (Function.update t i (some e))).card ≤ (occupied n t).card+1 := by
  have hsub : occupied n (Function.update t i (some e)) ⊆ insert i (occupied n t) := by
    intro p hp
    rw [occupied,Finset.mem_filter] at hp
    rw [Finset.mem_insert]
    by_cases he : p = i
    · exact .inl he
    · rw [Function.update_of_ne he] at hp
      exact .inr (Finset.mem_filter.mpr hp)
  exact (Finset.card_le_card hsub).trans (Finset.card_insert_le ..)

end Teleproxy.OpenAddressing
