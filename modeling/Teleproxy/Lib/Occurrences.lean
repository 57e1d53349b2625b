import Mathlib.Data.List.Infix
import Mathlib.Algebra.BigOperators.Group.Finset.Basic
import Mathlib.Order.Interval.Finset.Nat
import Mathlib.Algebra.GroupWithZero.Nat

/-!
# Words inside a text

A word stands in a text at a position. Two words are apart when neither can
begin inside the other, and then their places in any text are disjoint. A word
that is not in a text yet may have begun at its end; `overlap` is how much of it
can be there. Disjoint places between two positions are together no longer than
the distance.
-/
namespace Teleproxy.Occurrences
variable {α : Type*} {p q s t b : List α} {i j k n : ℕ}

/-- `p` stands in `s` at position `i`. -/
def At (p s : List α) (i : ℕ) : Prop := p <+: s.drop i

theorem At.le (h : At p s i) (hp : p ≠ []) : i+p.length ≤ s.length := by
  have hle := h.length_le
  have hpos := List.length_pos_of_ne_nil hp
  rw [List.length_drop] at hle
  omega

theorem At.get (h : At p s i) (hk : k < p.length) : s[i+k]? = p[k]? := by
  obtain ⟨r,hr⟩ := h
  rw [← List.getElem?_drop,← hr,List.getElem?_append_left hk]

theorem at_drop : At p (s.drop n) i ↔ At p s (n+i) := by
  rw [At,At,List.drop_drop]

theorem At.append (h : At p s i) (t : List α) : At p (s++t) i := by
  rw [At,List.drop_append]
  exact h.trans (List.prefix_append _ _)

theorem At.append_left (h : At p t i) (s : List α) : At p (s++t) (s.length+i) := by
  rw [← at_drop,List.drop_left]
  exact h

theorem at_append (s p r : List α) : At p (s++(p++r)) s.length := by
  rw [At,List.drop_left]
  exact List.prefix_append p r

/-- A word that ends within the first part of a text stands there. -/
theorem At.of_append (h : At p (s++t) i) (hle : i+p.length ≤ s.length) : At p s i := by
  rw [At,List.drop_append_of_le_length (by omega)] at h
  exact List.prefix_of_prefix_length_le h (List.prefix_append _ _)
    (by rw [List.length_drop]; omega)

theorem At.map {β : Type*} (h : At p s i) (f : α → β) : At (p.map f) (s.map f) i := by
  rw [At,← List.map_drop]
  exact List.IsPrefix.map f h

/-- Leading elements that cannot start the word may be dropped. -/
theorem At.dropWhile {a : α} {f : α → Bool} (h : At (a::p) s i) (ha : f a = false) :
    ∃ j, At (a::p) (s.dropWhile f) j := by
  induction s generalizing i with
  | nil => simp [At] at h
  | cons b s ih =>
      by_cases hb : f b = true
      · rw [List.dropWhile_cons_of_pos hb]
        cases i with
        | zero =>
            rw [At,List.drop_zero,List.cons_prefix_cons] at h
            rw [← h.1,ha] at hb
            exact Bool.noConfusion hb
        | succ i => exact ih h
      · rw [List.dropWhile_cons_of_neg hb]
        exact ⟨i,h⟩

/-- `q` cannot begin inside `p`. -/
def Apart (p q : List α) : Prop :=
  ∀ d < p.length, ∃ k < q.length, d+k < p.length ∧ p[d+k]? ≠ q[k]?

instance [DecidableEq α] (p q : List α) : Decidable (Apart p q) :=
  inferInstanceAs (Decidable (∀ d < p.length, ∃ k < q.length, d+k < p.length ∧ p[d+k]? ≠ q[k]?))

theorem Apart.not_inside (h : Apart p q) (hp : At p s i) (hq : At q s j) (hij : i ≤ j) :
    i+p.length ≤ j := by
  by_contra hlt
  obtain ⟨k,hk,hdk,hne⟩ := h (j-i) (by omega)
  apply hne
  rw [← hp.get hdk,← hq.get hk,show i+(j-i+k) = j+k by omega]

theorem Apart.disjoint (h : Apart p q) (h' : Apart q p) (hp : At p s i) (hq : At q s j) :
    i+p.length ≤ j ∨ j+q.length ≤ i := by
  rcases Nat.le_total i j with hij | hij
  · exact Or.inl (h.not_inside hp hq hij)
  · exact Or.inr (h'.not_inside hq hp hij)

/-- The lengths of disjoint places between `lo` and `hi`. -/
theorem sum_length_le (l : List (ℕ × ℕ)) (lo hi : ℕ)
    (hp : l.Pairwise fun x y => x.1+x.2 ≤ y.1 ∨ y.1+y.2 ≤ x.1)
    (hin : ∀ x ∈ l, lo ≤ x.1 ∧ x.1+x.2 ≤ hi) : (l.map Prod.snd).sum ≤ hi-lo := by
  let places (l : List (ℕ × ℕ)) : Finset ℕ :=
    l.foldr (fun x u => Finset.Ico x.1 (x.1+x.2) ∪ u) ∅
  have hmem : ∀ (l : List (ℕ × ℕ)) n, n ∈ places l → ∃ x ∈ l, x.1 ≤ n ∧ n < x.1+x.2 := by
    intro l n hn
    induction l with
    | nil => simp [places] at hn
    | cons x l ih =>
        rcases Finset.mem_union.mp hn with hn | hn
        · exact ⟨x,by simp,Finset.mem_Ico.mp hn⟩
        · obtain ⟨y,hy,hyn⟩ := ih hn
          exact ⟨y,List.mem_cons_of_mem x hy,hyn⟩
  have hcard : (places l).card = (l.map Prod.snd).sum := by
    clear hin
    induction l with
    | nil => rfl
    | cons x l ih =>
        obtain ⟨hx,hl⟩ := List.pairwise_cons.mp hp
        have hdisj : Disjoint (Finset.Ico x.1 (x.1+x.2)) (places l) := by
          apply Finset.disjoint_left.mpr
          intro n hn hnl
          obtain ⟨y,hy,hyn⟩ := hmem l n hnl
          have := hx y hy
          have := Finset.mem_Ico.mp hn
          omega
        have hcons : places (x::l) = Finset.Ico x.1 (x.1+x.2) ∪ places l := rfl
        rw [hcons,Finset.card_union_of_disjoint hdisj,ih hl,Nat.card_Ico,List.map_cons,
          List.sum_cons]
        omega
  have hsub : places l ⊆ Finset.Ico lo hi := by
    intro n hn
    obtain ⟨x,hx,hxn⟩ := hmem l n hn
    have := hin x hx
    exact Finset.mem_Ico.mpr (by omega)
  rw [← hcard,← Nat.card_Ico]
  exact Finset.card_le_card hsub

variable [DecidableEq α]

/-- How much of `p` can stand at the end of `b`. -/
def overlap (p b : List α) : ℕ := Nat.findGreatest (fun n => p.take n <:+ b) (p.length-1)

theorem overlap_suffix (p b : List α) : p.take (overlap p b) <:+ b :=
  Nat.findGreatest_spec (P := fun n => p.take n <:+ b) (Nat.zero_le _) (by simp)

theorem overlap_le_length (p b : List α) : overlap p b ≤ p.length :=
  (Nat.findGreatest_le _).trans (Nat.sub_le _ _)

/-- A word that ends behind `b` has begun at most `overlap` before its end. -/
theorem At.begin_le (h : At p (b++t) i) (hend : b.length < i+p.length) :
    b.length ≤ i+overlap p b := by
  by_cases hi : i ≤ b.length
  · have hsuffix : p.take (b.length-i) <:+ b := by
      rw [At,List.drop_append_of_le_length hi] at h
      have htake := h.take (b.length-i)
      rw [List.take_left' (by rw [List.length_drop])] at htake
      have hlen : (p.take (b.length-i)).length = (b.drop i).length := by
        rw [List.length_take,List.length_drop]
        omega
      rw [htake.eq_of_length hlen]
      exact List.drop_suffix i b
    have := Nat.le_findGreatest (P := fun n => p.take n <:+ b) (n := p.length-1)
      (by omega) hsuffix
    rw [overlap]
    omega
  · omega

/-- The rest of a word that has begun completes it. -/
theorem at_completed (p b r : List α) :
    At p (b++(p.drop (overlap p b)++r)) (b.length-overlap p b) := by
  obtain ⟨u,hu⟩ := overlap_suffix p b
  have hlen : b.length-overlap p b = u.length := by
    have := congrArg List.length hu
    rw [List.length_append,List.length_take,Nat.min_eq_left (overlap_le_length p b)] at this
    omega
  rw [hlen]
  nth_rewrite 1 [← hu]
  have hsplit : u++p.take (overlap p b)++(p.drop (overlap p b)++r) = u++(p++r) := by
    rw [List.append_assoc,← List.append_assoc (p.take _),List.take_append_drop]
  rw [hsplit]
  exact at_append u p r

end Teleproxy.Occurrences
