import Mathlib.Data.List.Basic

/-!
# Scanning loops

`runWhile p f s xs` is the loop that takes elements from the front of a list while `p`
holds of the state and the next element, and updates the state with each. What it leaves
is where it stopped. On a list that is continued it goes on exactly when it has taken
everything.
-/
namespace Teleproxy.Scan
variable {S α : Type*} {p : S → α → Bool} {f : S → α → S}

def runWhile (p : S → α → Bool) (f : S → α → S) : S → List α → S × List α
  | s, [] => (s,[])
  | s, x::xs => if p s x then runWhile p f (f s x) xs else (s,x::xs)

theorem runWhile_cons (p : S → α → Bool) (f : S → α → S) (s : S) (x : α) (xs : List α) :
    runWhile p f s (x::xs) = if p s x then runWhile p f (f s x) xs else (s,x::xs) := rfl

theorem runWhile_append_of_nil {s : S} {xs : List α} (h : (runWhile p f s xs).2 = [])
    (ys : List α) : runWhile p f s (xs++ys) = runWhile p f (runWhile p f s xs).1 ys := by
  induction xs generalizing s with
  | nil => rfl
  | cons x xs ih =>
      rw [List.cons_append,runWhile_cons,runWhile_cons] at *
      split_ifs at h ⊢
      exact ih h

theorem runWhile_append_of_ne {s : S} {xs : List α} (h : (runWhile p f s xs).2 ≠ [])
    (ys : List α) : runWhile p f s (xs++ys) =
      ((runWhile p f s xs).1,(runWhile p f s xs).2++ys) := by
  induction xs generalizing s with
  | nil => exact absurd rfl h
  | cons x xs ih =>
      rw [List.cons_append,runWhile_cons,runWhile_cons] at *
      split_ifs at h ⊢
      · exact ih h
      · rfl

/-- Nothing is taken at a state at which the test fails. -/
theorem runWhile_stopped {s : S} (h : ∀ x, p s x = false) (xs : List α) :
    runWhile p f s xs = (s,xs) := by
  cases xs with
  | nil => rfl
  | cons x xs => rw [runWhile_cons,h x,if_neg (by decide)]

/-- What each step keeps, the loop keeps. -/
theorem runWhile_preserves {P : S → Prop} (hstep : ∀ s x, p s x = true → P s → P (f s x)) {s : S}
    (hs : P s) (xs : List α) : P (runWhile p f s xs).1 := by
  induction xs generalizing s with
  | nil => exact hs
  | cons x xs ih =>
      rw [runWhile_cons]
      split_ifs with hx
      · exact ih (hstep s x hx hs)
      · exact hs

/-- A change of the state that neither the test nor the update sees. -/
theorem runWhile_map (g : S → S) (hp : ∀ s x, p (g s) x = p s x) (hf : ∀ s x, f (g s) x = g (f s x))
    (s : S) (xs : List α) : runWhile p f (g s) xs = (runWhile p f s xs).map g id := by
  induction xs generalizing s with
  | nil => rfl
  | cons x xs ih =>
      rw [runWhile_cons,runWhile_cons,hp]
      split_ifs
      · rw [hf,ih]
      · rfl

theorem length_runWhile (p : S → α → Bool) (f : S → α → S) (s : S) (xs : List α) :
    (runWhile p f s xs).2.length ≤ xs.length := by
  induction xs generalizing s with
  | nil => exact Nat.le_refl _
  | cons x xs ih =>
      rw [runWhile_cons]
      split_ifs
      · exact Nat.le_succ_of_le (ih (f s x))
      · exact Nat.le_refl _

/-- A loop that leaves as much as there was has not begun. -/
theorem runWhile_eq_of_length {s : S} {xs : List α}
    (h : (runWhile p f s xs).2.length = xs.length) : runWhile p f s xs = (s,xs) := by
  cases xs with
  | nil => rfl
  | cons x xs =>
      rw [runWhile_cons] at h ⊢
      split_ifs at h ⊢
      · have hle := length_runWhile p f (f s x) xs
        rw [List.length_cons] at h
        omega
      · rfl

/-- The element at which the loop stopped fails the test. -/
theorem runWhile_head {s : S} {xs ys : List α} {y : α} (h : (runWhile p f s xs).2 = y::ys) :
    p (runWhile p f s xs).1 y = false := by
  induction xs generalizing s with
  | nil => cases h
  | cons x xs ih =>
      rw [runWhile_cons] at h ⊢
      split_ifs at h ⊢ with hx
      · exact ih h
      · cases h
        simpa using hx

/-- What each step keeps of the state, of what was taken and of what is left. -/
theorem runWhile_traces {P : S → List α → List α → Prop}
    (hstep : ∀ s seen x xs, p s x = true → P s seen (x::xs) → P (f s x) (seen++[x]) xs)
    {s : S} {seen xs : List α} (hs : P s seen xs) :
    ∃ used, xs = used++(runWhile p f s xs).2 ∧
      P (runWhile p f s xs).1 (seen++used) (runWhile p f s xs).2 := by
  induction xs generalizing s seen with
  | nil => exact ⟨[],rfl,by simpa [runWhile] using hs⟩
  | cons x xs ih =>
      rw [runWhile_cons]
      split_ifs with hx
      · obtain ⟨used,hused,hP⟩ := ih (hstep s seen x xs hx hs)
        refine ⟨x::used,by rw [List.cons_append,← hused],?_⟩
        rwa [List.append_assoc] at hP
      · exact ⟨[],rfl,by rwa [List.append_nil]⟩

end Teleproxy.Scan
