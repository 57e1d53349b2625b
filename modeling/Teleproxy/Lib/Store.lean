import Mathlib.Data.List.Nodup
import Teleproxy.Lib.Counting

/-!
# A store of records that are never removed

Records are addressed by the order in which they were added, so an address
stays valid and a record that is gone is a record that says so. The bound on
the addresses is part of the type. `count` is the number of records with a
property; the lemmas say how it moves when one record is rewritten or added.
-/
namespace Teleproxy

structure Store (α : Type*) where
  get : ℕ → Option α
  size : ℕ
  bounded : ∀ i, (get i).isSome ↔ i < size

namespace Store
variable {α β : Type*} {i j : ℕ} {a : α} {p q : α → Bool}

def empty : Store α := ⟨fun _ => none,0,by simp⟩

def modify (s : Store α) (i : ℕ) (f : α → α) : Store α where
  get j := if j = i then (s.get j).map f else s.get j
  size := s.size
  bounded j := by
    rw [← s.bounded j]
    split_ifs <;> simp

def push (s : Store α) (a : α) : Store α where
  get j := if j = s.size then some a else s.get j
  size := s.size+1
  bounded j := by
    have h := s.bounded j
    split_ifs with hj
    · simp [hj]
    · rw [h]
      omega

theorem get_modify (s : Store α) (i j : ℕ) (f : α → α) :
    (s.modify i f).get j = if j = i then (s.get j).map f else s.get j := rfl

@[simp] theorem get_modify_same (s : Store α) (i : ℕ) (f : α → α) :
    (s.modify i f).get i = (s.get i).map f := by simp [get_modify]

@[simp] theorem get_modify_other (s : Store α) (f : α → α) (h : j ≠ i) :
    (s.modify i f).get j = s.get j := by simp [get_modify,h]

@[simp] theorem size_modify (s : Store α) (i : ℕ) (f : α → α) :
    (s.modify i f).size = s.size := rfl

theorem get_push (s : Store α) (a : α) (j : ℕ) :
    (s.push a).get j = if j = s.size then some a else s.get j := rfl

@[simp] theorem get_push_new (s : Store α) (a : α) : (s.push a).get s.size = some a := by
  simp [get_push]

@[simp] theorem get_push_other (s : Store α) (a : α) (h : j ≠ s.size) :
    (s.push a).get j = s.get j := by simp [get_push,h]

@[simp] theorem size_push (s : Store α) (a : α) : (s.push a).size = s.size+1 := rfl

@[simp] theorem get_empty (i : ℕ) : (empty : Store α).get i = none := rfl

theorem ext_get {s t : Store α} (hsize : t.size = s.size) (h : ∀ i, t.get i = s.get i) : t = s := by
  cases s
  cases t
  simp only at hsize h
  simp only [mk.injEq]
  exact ⟨funext h,hsize⟩

theorem modify_modify (s : Store α) (i : ℕ) (f g : α → α) :
    (s.modify i f).modify i g = s.modify i (g ∘ f) := by
  refine ext_get rfl fun j => ?_
  simp only [get_modify]
  split_ifs <;> simp

theorem modify_push (s : Store α) (a : α) (f : α → α) (h : i ≠ s.size) :
    (s.push a).modify i f = (s.modify i f).push a := by
  refine ext_get rfl fun j => ?_
  simp only [get_modify,get_push,size_modify]
  split_ifs with h₁ h₂
  · exact (h (h₁.symm.trans h₂)).elim
  · rfl
  · rfl
  · rfl

theorem lt_size {s : Store α} (h : s.get i = some a) : i < s.size :=
  (s.bounded i).mp (by simp [h])

theorem get_size (s : Store α) : s.get s.size = none := by
  cases h : s.get s.size with
  | none => rfl
  | some a => exact (Nat.lt_irrefl _ (lt_size h)).elim

theorem ne_size {s : Store α} (h : s.get i = some a) : i ≠ s.size :=
  Nat.ne_of_lt (lt_size h)

/-- The number of records with a property. -/
def count (p : α → Bool) (s : Store α) : ℕ := (List.range s.size).countP fun i => (s.get i).any p

@[simp] theorem count_empty (p : α → Bool) : (empty : Store α).count p = 0 := rfl

theorem count_push (p : α → Bool) (s : Store α) (a : α) :
    (s.push a).count p = s.count p + if p a then 1 else 0 := by
  rw [count,count,size_push,List.range_succ,List.countP_append]
  congr 1
  · refine List.countP_congr fun i hi => ?_
    rw [get_push_other _ _ (Nat.ne_of_lt (List.mem_range.mp hi))]
  · simp [List.countP_cons]

theorem count_congr {s t : Store α} (hsize : t.size = s.size)
    (h : ∀ i, (t.get i).any q = (s.get i).any p) : t.count q = s.count p := by
  rw [count,count,hsize]
  exact List.countP_congr fun i _ => by rw [h i]

/-- Rewriting one record moves the count by that record alone. -/
theorem count_modify {s : Store α} (h : s.get i = some a) (p : α → Bool) (f : α → α) :
    (s.modify i f).count p + (if p a then 1 else 0) = s.count p + if p (f a) then 1 else 0 := by
  have hget : ∀ j, j ≠ i → ((s.modify i f).get j).any p = (s.get j).any p := by
    intro j hj
    rw [get_modify_other _ _ hj]
  have hnew : ((s.modify i f).get i).any p = p (f a) := by simp [h]
  have hold : (s.get i).any p = p a := by simp [h]
  have hi : i ∈ List.range s.size := List.mem_range.mpr (lt_size h)
  cases hp : p a with
  | false =>
      cases hq : p (f a) with
      | false =>
          have hsame : (s.modify i f).count p = s.count p := by
            refine count_congr rfl fun j => ?_
            by_cases hj : j = i
            · rw [hj,hnew,hold,hp,hq]
            · exact hget j hj
          simp [hsame]
      | true =>
          have hadd := Counting.countP_add_one List.nodup_range hi (hold.trans hp)
            (hnew.trans hq) (fun j _ hj => hget j hj)
          simpa [count] using hadd
  | true =>
      cases hq : p (f a) with
      | false =>
          have hadd := Counting.countP_add_one List.nodup_range hi (hnew.trans hq)
            (hold.trans hp) (fun j _ hj => (hget j hj).symm)
          simpa [count] using hadd.symm
      | true =>
          have hsame : (s.modify i f).count p = s.count p := by
            refine count_congr rfl fun j => ?_
            by_cases hj : j = i
            · rw [hj,hnew,hold,hp,hq]
            · exact hget j hj
          simp [hsame]

theorem count_pos {s : Store α} (h : s.get i = some a) (hp : p a) : 0 < s.count p := by
  rw [count,List.countP_pos_iff]
  exact ⟨i,List.mem_range.mpr (lt_size h),by simp [h,hp]⟩

theorem exists_of_count_pos {s : Store α} (h : 0 < s.count p) :
    ∃ i a, s.get i = some a ∧ p a = true := by
  rw [count,List.countP_pos_iff] at h
  obtain ⟨i,-,hi⟩ := h
  cases hs : s.get i with
  | none => simp [hs] at hi
  | some a => exact ⟨i,a,hs,by simpa [hs] using hi⟩

/-- Every record of `s` is still there in `t`, changed as `R` allows, and the records
added since then satisfy `N`. -/
def Evolves (R : α → α → Prop) (N : α → Prop) (s t : Store α) : Prop :=
  s.size ≤ t.size ∧ ∀ i b, t.get i = some b →
    (∃ a, s.get i = some a ∧ R a b) ∨ s.get i = none ∧ N b

variable {R : α → α → Prop} {N : α → Prop} {s t u : Store α}

theorem Evolves.get (h : Evolves R N s t) (hi : s.get i = some a) :
    ∃ b, t.get i = some b ∧ R a b := by
  have hlt : i < t.size := Nat.lt_of_lt_of_le (lt_size hi) h.1
  obtain ⟨b,hb⟩ := Option.isSome_iff_exists.mp ((t.bounded i).mpr hlt)
  rcases h.2 i b hb with ⟨a',ha',hR⟩ | ⟨hn,-⟩
  · rw [hi] at ha'
    cases ha'
    exact ⟨b,hb,hR⟩
  · rw [hi] at hn
    cases hn

theorem Evolves.refl (hR : ∀ a, R a a) (s : Store α) : Evolves R N s s :=
  ⟨Nat.le_refl _,fun _ b hb => .inl ⟨b,hb,hR b⟩⟩

theorem Evolves.trans (hR : ∀ a b c, R a b → R b c → R a c) (hN : ∀ a b, N a → R a b → N b)
    (h : Evolves R N s t) (h' : Evolves R N t u) : Evolves R N s u := by
  refine ⟨Nat.le_trans h.1 h'.1,fun i c hc => ?_⟩
  rcases h'.2 i c hc with ⟨b,hb,hbc⟩ | ⟨hn,hc'⟩
  · rcases h.2 i b hb with ⟨a,ha,hab⟩ | ⟨hn,hb'⟩
    · exact .inl ⟨a,ha,hR a b c hab hbc⟩
    · exact .inr ⟨hn,hN b c hb' hbc⟩
  · cases hs : s.get i with
    | none => exact .inr ⟨rfl,hc'⟩
    | some a =>
        obtain ⟨b,hb,-⟩ := h.get hs
        rw [hn] at hb
        cases hb

theorem Evolves.modify (hR : ∀ a, R a a) {f : α → α} (hf : ∀ a, s.get i = some a → R a (f a)) :
    Evolves R N s (s.modify i f) := by
  refine ⟨Nat.le_refl _,fun j b hb => ?_⟩
  by_cases hj : j = i
  · subst hj
    rw [get_modify_same,Option.map_eq_some_iff] at hb
    obtain ⟨a,ha,rfl⟩ := hb
    exact .inl ⟨a,ha,hf a ha⟩
  · rw [get_modify_other _ _ hj] at hb
    exact .inl ⟨b,hb,hR b⟩

theorem Evolves.push (hR : ∀ a, R a a) (ha : N a) : Evolves R N s (s.push a) := by
  refine ⟨Nat.le_succ _,fun j b hb => ?_⟩
  by_cases hj : j = s.size
  · subst hj
    rw [get_push_new,Option.some.injEq] at hb
    exact .inr ⟨get_size s,hb ▸ ha⟩
  · rw [get_push_other _ _ hj] at hb
    exact .inl ⟨b,hb,hR b⟩

theorem Evolves.forall {P : α → Prop} (h : Evolves R N s t) (hs : ∀ i a, s.get i = some a → P a)
    (hR : ∀ a b, R a b → P a → P b) (hN : ∀ b, N b → P b) {i : ℕ} {b : α}
    (hb : t.get i = some b) : P b := by
  rcases h.2 i b hb with ⟨a,ha,hab⟩ | ⟨-,hn⟩
  · exact hR a b hab (hs i a ha)
  · exact hN b hn

/-- A property that the evolution does not give was there before. -/
theorem Evolves.exists_back {P : α → Prop} (h : Evolves R N s t)
    (hR : ∀ a b, R a b → P b → P a) (hN : ∀ b, N b → ¬ P b)
    (ht : ∃ b, t.get i = some b ∧ P b) : ∃ a, s.get i = some a ∧ P a := by
  obtain ⟨b,hb,hP⟩ := ht
  rcases h.2 i b hb with ⟨a,ha,hab⟩ | ⟨-,hn⟩
  · exact ⟨a,ha,hR a b hab hP⟩
  · exact (hN b hn hP).elim

theorem exists_modify_back {P : α → Prop} {f : α → α}
    (ht : ∃ b, (s.modify j f).get i = some b ∧ P b)
    (hf : ∀ a, i = j → s.get i = some a → P (f a) → P a) : ∃ a, s.get i = some a ∧ P a := by
  obtain ⟨b,hb,hP⟩ := ht
  by_cases hj : i = j
  · subst hj
    rw [get_modify_same,Option.map_eq_some_iff] at hb
    obtain ⟨a,ha,rfl⟩ := hb
    exact ⟨a,ha,hf a rfl ha hP⟩
  · rw [get_modify_other _ _ hj] at hb
    exact ⟨b,hb,hP⟩

/-- A property that the evolution neither gives nor takes keeps its count. -/
theorem Evolves.count (h : Evolves R N s t) (hR : ∀ a b, R a b → p b = p a)
    (hN : ∀ b, N b → p b = false) : t.count p = s.count p := by
  obtain ⟨k,hk⟩ := Nat.exists_eq_add_of_le h.1
  have hold : ∀ i, i < s.size → (t.get i).any p = (s.get i).any p := by
    intro i hi
    obtain ⟨a,ha⟩ := Option.isSome_iff_exists.mp ((s.bounded i).mpr hi)
    obtain ⟨b,hb,hab⟩ := h.get ha
    simp [ha,hb,hR a b hab]
  have hnew : ∀ i, ¬ i < s.size → (t.get i).any p = false := by
    intro i hi
    cases hb : t.get i with
    | none => rfl
    | some b =>
        rcases h.2 i b hb with ⟨a,ha,-⟩ | ⟨-,hn⟩
        · exact (hi (lt_size ha)).elim
        · simpa using hN b hn
  rw [Store.count,Store.count,hk,List.range_add,List.countP_append]
  have h₁ : (List.range s.size).countP (fun i => (t.get i).any p) =
      (List.range s.size).countP fun i => (s.get i).any p :=
    List.countP_congr fun i hi => by rw [hold i (List.mem_range.mp hi)]
  have h₂ : ((List.range k).map (s.size+·)).countP (fun i => (t.get i).any p) = 0 := by
    rw [List.countP_eq_zero]
    intro i hi
    obtain ⟨j,-,rfl⟩ := List.mem_map.mp hi
    simp [hnew (s.size+j) (by omega)]
  rw [h₁,h₂,Nat.add_zero]

end Store

end Teleproxy
