import Mathlib.Order.Basic
import Mathlib.Logic.Function.Basic
import Mathlib.Order.Lattice

/-!
# Binary heaps with a hole

A heap is a family of keys at the indices from one to `n`; the parent of `c` is
`c/2`. `Ordered` is the heap order. While an element is moved, its old place is
a hole whose key counts for nothing: `Holed` says that every pair off the hole
is in order and that the children of the hole are at or after its parent. A
hole can be made in an ordered heap, moved to its parent or to its earliest
child, and filled where the new key fits.
-/
namespace Teleproxy.Heap
variable {K : Type*} [LinearOrder K] {key : ℕ → K} {n i : ℕ}

def Ordered (key : ℕ → K) (n : ℕ) : Prop := ∀ c, 2 ≤ c → c ≤ n → key (c/2) ≤ key c

structure Holed (key : ℕ → K) (n i : ℕ) : Prop where
  others : ∀ c, 2 ≤ c → c ≤ n → c ≠ i → c/2 ≠ i → key (c/2) ≤ key c
  across : 2 ≤ i → ∀ c, c ≤ n → c/2 = i → key (i/2) ≤ key c

/-- The first key of an ordered heap is a least one. -/
theorem Ordered.root_le (h : Ordered key n) (hi : 1 ≤ i) (hn : i ≤ n) : key 1 ≤ key i := by
  induction i using Nat.strongRecOn with
  | ind i ih =>
      by_cases h1 : i = 1
      · rw [h1]
      · exact (ih (i/2) (by omega) (by omega) (by omega)).trans (h i (by omega) hn)

theorem Ordered.hole (h : Ordered key n) (i : ℕ) : Holed key n i where
  others c hc hn _ _ := h c hc hn
  across hi c hn hci := by
    have hic : key i ≤ key c := hci ▸ h c (by omega) hn
    exact (h i hi (by omega)).trans hic

theorem Ordered.mono (h : Ordered key n) {m : ℕ} (hm : m ≤ n) : Ordered key m :=
  fun c hc hn => h c hc (Nat.le_trans hn hm)

/-- One place behind an ordered heap is a hole of the longer one. -/
theorem Ordered.grow (h : Ordered key n) : Holed key (n+1) (n+1) where
  others c hc hn hne _ := h c hc (by omega)
  across _ c hn hci := by omega

theorem Holed.congr (h : Holed key n i) {key' : ℕ → K}
    (hk : ∀ c, 1 ≤ c → c ≤ n → c ≠ i → key' c = key c) : Holed key' n i where
  others c hc hn hne hp := by
    rw [hk c (by omega) hn hne,hk (c/2) (by omega) (by omega) hp]
    exact h.others c hc hn hne hp
  across hi c hn hci := by
    rw [hk c (by omega) hn (by omega),hk (i/2) (by omega) (by omega) (by omega)]
    exact h.across hi c hn hci

/-- The parent moves down into the hole. -/
theorem Holed.up (h : Holed key n i) (hi : 2 ≤ i) (hn : i ≤ n) :
    Holed (Function.update key i (key (i/2))) n (i/2) := by
  have hpi : i/2 ≠ i := by omega
  constructor
  · intro c hc hcn hne hp
    have hci : c ≠ i := by rintro rfl; exact hp rfl
    rw [Function.update_of_ne hci]
    by_cases hpc : c/2 = i
    · rw [hpc,Function.update_self]
      exact h.across hi c hcn hpc
    · rw [Function.update_of_ne hpc]
      exact h.others c hc hcn hci hpc
  · intro hi2 c hcn hcp
    have hgrand : key (i/2/2) ≤ key (i/2) :=
      h.others (i/2) hi2 (by omega) hpi (by omega)
    rw [Function.update_of_ne (show i/2/2 ≠ i by omega)]
    by_cases hci : c = i
    · rw [hci,Function.update_self]
      exact hgrand
    · rw [Function.update_of_ne hci]
      have hpc := h.others c (by omega) hcn hci (by omega)
      rw [hcp] at hpc
      exact hgrand.trans hpc

/-- The earliest child moves up into the hole. -/
theorem Holed.down (h : Holed key n i) {c : ℕ} (hc : c/2 = i)
    (hmin : ∀ d, d ≤ n → d/2 = i → key c ≤ key d) (hcn : c ≤ n) :
    Holed (Function.update key i (key c)) n c := by
  constructor
  · intro d hd hdn hne hp
    by_cases hdi : d = i
    · rw [hdi,Function.update_self,Function.update_of_ne (show i/2 ≠ i by omega)]
      exact h.across (by omega) c hcn hc
    · rw [Function.update_of_ne hdi]
      by_cases hpd : d/2 = i
      · rw [hpd,Function.update_self]
        exact hmin d hdn hpd
      · rw [Function.update_of_ne hpd]
        exact h.others d hd hdn hdi hpd
  · intro hc2 d hdn hdc
    rw [hc,Function.update_self,Function.update_of_ne (show d ≠ i by omega)]
    have hdp := h.others d (by omega) hdn (by omega) (by omega)
    rwa [hdc] at hdp

/-- A key between the parent of the hole and its children fills it. -/
theorem Holed.fill (h : Holed key n i) {w : K} (hup : 2 ≤ i → key (i/2) ≤ w)
    (hdown : ∀ d, d ≤ n → d/2 = i → w ≤ key d) : Ordered (Function.update key i w) n := by
  intro c hc hn
  by_cases hci : c = i
  · rw [hci,Function.update_self,Function.update_of_ne (show i/2 ≠ i by omega)]
    exact hup (by omega)
  · rw [Function.update_of_ne hci]
    by_cases hp : c/2 = i
    · rw [hp,Function.update_self]
      exact hdown c hn hp
    · rw [Function.update_of_ne hp]
      exact h.others c hc hn hci hp

end Teleproxy.Heap
