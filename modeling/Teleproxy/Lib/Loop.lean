import Mathlib.Data.Nat.Basic

/-!
# Endless loops

The body of a `while (1)` either leaves the loop with a result or goes on with a new
state. A loop whose passes make some measure smaller ends; one that comes back to the
same state does not.
-/
namespace Teleproxy.Loop
variable {S R : Type*}

/-- One pass through the body. -/
inductive Pass (S R : Type*) where
  | leave (result : R)
  | again (state : S)
  deriving DecidableEq, Repr

/-- The loop, for at most so many passes. -/
def loop (body : S → Pass S R) : ℕ → S → Option R
  | 0, _ => none
  | fuel+1, s =>
      match body s with
      | .leave r => some r
      | .again s' => loop body fuel s'

def Ends (body : S → Pass S R) (s : S) : Prop := ∃ fuel r, loop body fuel s = some r

/-- The states in which a pass begins, for a loop that begins in `s`. -/
inductive Visits (body : S → Pass S R) (s : S) : S → Prop
  | start : Visits body s s
  | again {x y : S} : Visits body s x → body x = .again y → Visits body s y

/-- The state in which a pass begins that has `n` passes before it. -/
def after (body : S → Pass S R) : ℕ → S → Option S
  | 0, s => some s
  | n+1, s =>
      match body s with
      | .leave _ => none
      | .again s' => after body n s'

/-- Every pass of the loop leaves it, or makes the measure smaller by `n` at least. -/
def Descends (body : S → Pass S R) (measure : S → ℕ) (n : ℕ) (s : S) : Prop :=
  ∀ x y, Visits body s x → body x = .again y → measure y+n ≤ measure x

variable {body : S → Pass S R} {measure : S → ℕ} {n : ℕ} {s s' : S}

theorem Visits.tail (h : body s = .again s') {x : S} (hx : Visits body s' x) :
    Visits body s x := by
  induction hx with
  | start => exact .again .start h
  | again _ hxy ih => exact .again ih hxy

theorem Descends.tail (hd : Descends body measure n s) (h : body s = .again s') :
    Descends body measure n s' := by
  intro x y hx hxy
  exact hd x y (.tail h hx) hxy

theorem ends_of_leave {r : R} (h : body s = .leave r) : Ends body s :=
  ⟨1,r,by rw [loop, h]⟩

theorem ends_iff_of_again (h : body s = .again s') : Ends body s ↔ Ends body s' := by
  constructor
  · intro ⟨fuel,r,hr⟩
    cases fuel with
    | zero => cases hr
    | succ fuel =>
        rw [loop, h] at hr
        exact ⟨fuel,r,hr⟩
  · intro ⟨fuel,r,hr⟩
    exact ⟨fuel+1,r,by rw [loop, h]; exact hr⟩

theorem descends_of_leaves (h : ∀ s', body s ≠ .again s') : Descends body measure n s := by
  intro x y hx hxy
  have hfirst : x = s := by
    clear hxy
    induction hx with
    | start => rfl
    | again _ hpass ih => exact (h _ (ih ▸ hpass)).elim
  exact (h y (hfirst ▸ hxy)).elim

/-- The loop rule for termination. -/
theorem ends_of_descends (hn : 0 < n) (hd : Descends body measure n s) : Ends body s := by
  generalize hm : measure s = m
  induction m using Nat.strong_induction_on generalizing s with
  | h m ih =>
      cases hb : body s with
      | leave r => exact ends_of_leave hb
      | again s' =>
          have hless : measure s' < m := by
            have := hd s s' .start hb
            omega
          exact (ends_iff_of_again hb).mpr (ih _ hless (hd.tail hb) rfl)

/-- A pass that changes nothing is repeated for ever. -/
theorem not_ends_of_stuck (h : body s = .again s) : ¬ Ends body s := by
  intro ⟨fuel,r,hr⟩
  induction fuel with
  | zero => cases hr
  | succ fuel ih =>
      rw [loop, h] at hr
      exact ih hr

end Teleproxy.Loop
