import Mathlib.Data.List.Dedup
import Mathlib.Data.List.Perm.Basic
import Mathlib.Tactic.Ring

/-!
# A table of counts against the list it counts

A tally is a list of keys with positive counts and no key twice. It is `Under` a list if
no count exceeds the occurrences of its key there, and `Exact` if moreover every element of
the list has an entry with all its occurrences. Both are kept when a key is counted and
when it is taken back; a key that goes uncounted leaves a tally only under.
-/
namespace Teleproxy.Tally
variable {K : Type*} [DecidableEq K] {M N : List (K × ℤ)} {L L' : List K} {a : K} {n : ℤ}

structure Under (M : List (K × ℤ)) (L : List K) : Prop where
  nodup : (M.map Prod.fst).Nodup
  bound : ∀ x ∈ M, 0 < x.2 ∧ x.2 ≤ L.count x.1

structure Exact (M : List (K × ℤ)) (L : List K) : Prop extends Under M L where
  all : ∀ a ∈ L, (a,(L.count a : ℤ)) ∈ M

theorem Under.perm (h : Under M L) (hM : M.Perm N) (hL : L.Perm L') : Under N L' := by
  refine ⟨(hM.map Prod.fst).nodup_iff.mp h.nodup,?_⟩
  intro x hx
  rw [← hL.count_eq]
  exact h.bound x (hM.mem_iff.mpr hx)

theorem Exact.perm (h : Exact M L) (hM : M.Perm N) (hL : L.Perm L') : Exact N L' := by
  refine ⟨h.toUnder.perm hM hL,?_⟩
  intro a ha
  rw [← hL.count_eq]
  exact hM.mem_iff.mp (h.all a (hL.mem_iff.mpr ha))

theorem under_nil (L : List K) : Under [] L := ⟨List.nodup_nil,by simp⟩

theorem exact_nil : Exact ([] : List (K × ℤ)) [] := ⟨under_nil [],by simp⟩

theorem Under.eq_nil (h : Under M []) : M = [] := by
  cases M with
  | nil => rfl
  | cons x M =>
      have hx := h.bound x (by simp)
      rw [List.count_nil] at hx
      omega

theorem Under.uncounted (h : Under M L) (a : K) : Under M (a::L) := by
  refine ⟨h.nodup,?_⟩
  intro x hx
  have hb := h.bound x hx
  have hle : L.count x.1 ≤ (a::L).count x.1 := List.count_le_count_cons
  omega

theorem Under.bump (h : Under ((a,n)::M) L) : Under ((a,n+1)::M) (a::L) := by
  refine ⟨h.nodup,?_⟩
  intro x hx
  rcases List.mem_cons.mp hx with rfl | hx
  · have hb := h.bound (a,n) (by simp)
    dsimp only at hb ⊢
    rw [List.count_cons_self]
    omega
  · exact (h.uncounted a).bound x (List.mem_cons_of_mem _ hx)

/-- The counts of an exact tally are the numbers of occurrences. -/
theorem Exact.eq_count (h : Exact M L) (hx : (a,n) ∈ M) : n = L.count a := by
  have hb := h.bound (a,n) hx
  have ha : a ∈ L := List.count_pos_iff.mp (by dsimp only at hb; omega)
  have heq := List.inj_on_of_nodup_map h.nodup hx (h.all a ha) rfl
  exact congrArg Prod.snd heq

/-- Behind the entry of a key stands none of the same key. -/
theorem Under.ne_head (h : Under ((a,n)::M) L) {x : K × ℤ} (hx : x ∈ M) : x.1 ≠ a := by
  intro heq
  have hnodup := h.nodup
  rw [List.map_cons,List.nodup_cons] at hnodup
  exact hnodup.1 (List.mem_map.mpr ⟨x,hx,heq⟩)

theorem Exact.bump (h : Exact ((a,n)::M) L) : Exact ((a,n+1)::M) (a::L) := by
  refine ⟨h.toUnder.bump,?_⟩
  intro b hb
  by_cases hba : b = a
  · subst hba
    have hn := h.eq_count (a := b) (n := n) (by simp)
    rw [List.count_cons_self,hn]
    exact List.mem_cons_self
  · have hmem := h.all b ((List.mem_cons.mp hb).resolve_left hba)
    rw [List.count_cons_of_ne (Ne.symm hba)]
    rcases List.mem_cons.mp hmem with heq | hmem
    · exact absurd (congrArg Prod.fst heq) hba
    · exact List.mem_cons_of_mem _ hmem

theorem Under.add (h : Under M L) (ha : a ∉ M.map Prod.fst) : Under ((a,1)::M) (a::L) := by
  refine ⟨List.nodup_cons.mpr ⟨ha,h.nodup⟩,?_⟩
  intro x hx
  rcases List.mem_cons.mp hx with rfl | hx
  · dsimp only
    rw [List.count_cons_self]
    omega
  · exact (h.uncounted a).bound x hx

theorem Exact.add (h : Exact M L) (ha : a ∉ M.map Prod.fst) : Exact ((a,1)::M) (a::L) := by
  refine ⟨h.toUnder.add ha,?_⟩
  have hnew : a ∉ L := fun hmem => ha (List.mem_map_of_mem (f := Prod.fst) (h.all a hmem))
  intro b hb
  by_cases hba : b = a
  · subst hba
    rw [List.count_cons_self,List.count_eq_zero.mpr hnew]
    exact List.mem_cons_self
  · rw [List.count_cons_of_ne (Ne.symm hba)]
    exact List.mem_cons_of_mem _ (h.all b ((List.mem_cons.mp hb).resolve_left hba))

/-- What is left of a tally whose first entry loses one. -/
def dropHead (a : K) (n : ℤ) (M : List (K × ℤ)) : List (K × ℤ) :=
  if n-1 ≤ 0 then M else (a,n-1)::M

theorem Under.drop (h : Under ((a,n)::M) (a::L)) : Under (dropHead a n M) L := by
  have hnodup := h.nodup
  rw [List.map_cons,List.nodup_cons] at hnodup
  have hM : Under M L := by
    refine ⟨hnodup.2,?_⟩
    intro x hx
    have hb := h.bound x (List.mem_cons_of_mem _ hx)
    rwa [List.count_cons_of_ne (h.ne_head hx).symm] at hb
  rw [dropHead]
  split_ifs with hn
  · exact hM
  · refine ⟨h.nodup,?_⟩
    intro x hx
    rcases List.mem_cons.mp hx with rfl | hx
    · have hb := h.bound (a,n) (by simp)
      dsimp only at hb ⊢
      rw [List.count_cons_self] at hb
      omega
    · exact hM.bound x hx

theorem Exact.drop (h : Exact ((a,n)::M) (a::L)) : Exact (dropHead a n M) L := by
  refine ⟨h.toUnder.drop,?_⟩
  have hn := h.eq_count (a := a) (n := n) (by simp)
  rw [List.count_cons_self] at hn
  intro b hb
  rw [dropHead]
  by_cases hba : b = a
  · subst hba
    have hpos := List.count_pos_iff.mpr hb
    rw [if_neg (by omega),hn]
    simp
  · have hmem := h.all b (List.mem_cons_of_mem _ hb)
    rw [List.count_cons_of_ne (Ne.symm hba)] at hmem
    have hrest : (b,(L.count b : ℤ)) ∈ M := by
      rcases List.mem_cons.mp hmem with heq | hmem
      · exact absurd (congrArg Prod.fst heq) hba
      · exact hmem
    split_ifs
    · exact hrest
    · exact List.mem_cons_of_mem _ hrest

/-- A key without an entry is taken back. -/
theorem Under.miss (h : Under M (a::L)) (ha : a ∉ M.map Prod.fst) : Under M L := by
  refine ⟨h.nodup,?_⟩
  intro x hx
  have hne : a ≠ x.1 := fun heq => ha (heq ▸ List.mem_map_of_mem hx)
  have hb := h.bound x hx
  rwa [List.count_cons_of_ne hne] at hb

/-- Up to their order, the entries are the different elements with their numbers. -/
theorem Exact.perm_dedup (h : Exact M L) :
    M.Perm (L.dedup.map fun a => (a,(L.count a : ℤ))) := by
  have hM : M.Nodup := h.nodup.of_map _
  have hL : (L.dedup.map fun a => (a,(L.count a : ℤ))).Nodup :=
    L.nodup_dedup.map (fun a b hab => congrArg Prod.fst hab)
  rw [List.perm_ext_iff_of_nodup hM hL]
  intro x
  simp only [List.mem_map,List.mem_dedup]
  constructor
  · intro hx
    have hval := h.eq_count (a := x.1) (n := x.2) hx
    have hpos := h.bound x hx
    refine ⟨x.1,List.count_pos_iff.mp (by omega),?_⟩
    rw [← hval]
  · rintro ⟨a,ha,rfl⟩
    exact h.all a ha

theorem Exact.length (h : Exact M L) : M.length = L.dedup.length := by
  rw [h.perm_dedup.length_eq,List.length_map]

end Teleproxy.Tally
