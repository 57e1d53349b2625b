import Mathlib.Data.List.Basic

/-!
# Updating the first matching entry of a table

Several tables of the program are fixed arrays that are scanned from the start
and written at the first entry that matches. `updateFirst` is that scan: it
fails exactly when nothing matches, and otherwise it replaces one entry and
keeps everything around it.
-/
namespace Teleproxy.FirstMatch
variable {α : Type*} {p q : α → Bool} {f : α → α} {as bs : List α} {a : α}

def updateFirst (p : α → Bool) (f : α → α) : List α → Option (List α)
  | [] => none
  | a::as => if p a then some (f a::as) else (updateFirst p f as).map (a::·)

theorem updateFirst_eq_none : updateFirst p f as = none ↔ ∀ a ∈ as, p a = false := by
  induction as with
  | nil => simp [updateFirst]
  | cons a as ih => by_cases h : p a <;> simp [updateFirst,h,ih]

/-- The entry that is replaced is the one the same scan would find. -/
theorem updateFirst_eq_some (h : updateFirst p f as = some bs) :
    ∃ pre a post, as = pre++a::post ∧ bs = pre++f a::post ∧ as.find? p = some a ∧ p a := by
  induction as generalizing bs with
  | nil => cases h
  | cons b as ih =>
      by_cases hb : p b
      · rw [updateFirst,if_pos hb] at h
        cases h
        exact ⟨[],b,as,rfl,rfl,by simp [hb],hb⟩
      · rw [updateFirst,if_neg hb,Option.map_eq_some_iff] at h
        obtain ⟨cs,hc,rfl⟩ := h
        obtain ⟨pre,a,post,rfl,rfl,hf,ha⟩ := ih hc
        exact ⟨b::pre,a,post,rfl,rfl,by simpa [hb] using hf,ha⟩

theorem updateFirst_length (h : updateFirst p f as = some bs) : bs.length = as.length := by
  obtain ⟨pre,a,post,rfl,rfl,-⟩ := updateFirst_eq_some h
  simp

/-- The count of any predicate changes by what the replaced entry contributes. -/
theorem countP_updateFirst (h : updateFirst p f as = some bs) (ha : as.find? p = some a) :
    bs.countP q+(if q a then 1 else 0) = as.countP q+(if q (f a) then 1 else 0) := by
  obtain ⟨pre,b,post,rfl,rfl,hb,-⟩ := updateFirst_eq_some h
  rw [ha] at hb
  cases hb
  simp only [List.countP_append,List.countP_cons]
  omega

end Teleproxy.FirstMatch
