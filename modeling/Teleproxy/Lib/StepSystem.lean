import Mathlib.Data.List.Basic

/-!
# Runs of a total step function

A system is a step function on a state type; an event that is not enabled is a
step that changes nothing. A run is the list of its events. `Meets` says that
every event of a run satisfies a condition in the state in which it happens,
and `Throughout` that a property holds in every state passed, both ends
included. The invariant rules below are the only inductions over runs that the
developments on top of this module need.
-/
namespace Teleproxy.StepSystem
variable {S A : Type*} {step : S → A → S} {ok : S → A → Prop} {P Q : S → Prop}

def run (step : S → A → S) : S → List A → S
  | s, [] => s
  | s, a::as => run step (step s a) as

/-- Each event meets `ok` in the state it is performed in. -/
def Meets (step : S → A → S) (ok : S → A → Prop) : S → List A → Prop
  | _, [] => True
  | s, a::as => ok s a ∧ Meets step ok (step s a) as

/-- `P` holds in every state the run passes through. -/
def Throughout (step : S → A → S) (P : S → Prop) : S → List A → Prop
  | s, [] => P s
  | s, a::as => P s ∧ Throughout step P (step s a) as

instance [∀ s a, Decidable (ok s a)] : ∀ (s : S) (as : List A), Decidable (Meets step ok s as)
  | _, [] => isTrue trivial
  | s, a::as =>
      have : Decidable (Meets step ok (step s a) as) := instDecidableMeets (step s a) as
      inferInstanceAs (Decidable (ok s a ∧ Meets step ok (step s a) as))

@[simp] theorem run_nil (s : S) : run step s [] = s := rfl
@[simp] theorem run_cons (s : S) (a : A) (as : List A) :
    run step s (a::as) = run step (step s a) as := rfl

theorem run_append (s : S) (as bs : List A) :
    run step s (as++bs) = run step (run step s as) bs := by
  induction as generalizing s with
  | nil => rfl
  | cons a as ih => exact ih (step s a)

theorem run_concat (s : S) (as : List A) (a : A) :
    run step s (as++[a]) = step (run step s as) a := run_append s as [a]

theorem meets_append (s : S) (as bs : List A) :
    Meets step ok s (as++bs) ↔ Meets step ok s as ∧ Meets step ok (run step s as) bs := by
  induction as generalizing s with
  | nil => simp [Meets]
  | cons a as ih => simp only [List.cons_append,Meets,run_cons,ih,and_assoc]

theorem Throughout.head {s : S} {as : List A} (h : Throughout step P s as) : P s := by
  cases as with
  | nil => exact h
  | cons a as => exact h.1

theorem Throughout.last {s : S} {as : List A} (h : Throughout step P s as) :
    P (run step s as) := by
  induction as generalizing s with
  | nil => exact h
  | cons a as ih => exact ih h.2

/-- Invariant rule: a property kept by every step that meets the condition
holds at the end of every run whose steps all meet it. -/
theorem run_invariant (hstep : ∀ s a, P s → ok s a → P (step s a)) {s : S} {as : List A}
    (hs : P s) (hm : Meets step ok s as) : P (run step s as) := by
  induction as generalizing s with
  | nil => exact hs
  | cons a as ih => exact ih (hstep s a hs hm.1) hm.2

/-- The same rule for unconditional invariants. -/
theorem run_preserves (hstep : ∀ s a, P s → P (step s a)) {s : S} (as : List A)
    (hs : P s) : P (run step s as) := by
  induction as generalizing s with
  | nil => exact hs
  | cons a as ih => exact ih (hstep s a hs)

theorem throughout_of_invariant (hstep : ∀ s a, P s → ok s a → P (step s a))
    (himp : ∀ s, P s → Q s) {s : S} {as : List A} (hs : P s) (hm : Meets step ok s as) :
    Throughout step Q s as := by
  induction as generalizing s with
  | nil => exact himp s hs
  | cons a as ih => exact ⟨himp s hs,ih (hstep s a hs hm.1) hm.2⟩

/-- Converse rule: when every step that misses the condition leaves `Q`, a run
that stays inside `Q` meets the condition at every step. The auxiliary
invariant `P` holds whether or not the condition is met. -/
theorem meets_of_throughout (hstep : ∀ s a, P s → P (step s a))
    (hmiss : ∀ s a, P s → Q s → Q (step s a) → ok s a) {s : S} {as : List A}
    (hs : P s) (ht : Throughout step Q s as) : Meets step ok s as := by
  induction as generalizing s with
  | nil => trivial
  | cons a as ih =>
      exact ⟨hmiss s a hs ht.1 ht.2.head,ih (hstep s a hs) ht.2⟩

/-- Where the invariant is kept exactly by the steps that meet the condition, a
run stays inside `Q` if and only if each of its steps meets it. -/
theorem throughout_iff_meets (hstep : ∀ s a, P s → ok s a → P (step s a))
    (himp : ∀ s, P s → Q s) (hmiss : ∀ s a, P s → Q (step s a) → ok s a) {s : S} {as : List A}
    (hs : P s) : Throughout step Q s as ↔ Meets step ok s as := by
  constructor
  · intro ht
    induction as generalizing s with
    | nil => trivial
    | cons a as ih =>
        have hok := hmiss s a hs ht.2.head
        exact ⟨hok,ih (hstep s a hs hok) ht.2⟩
  · exact throughout_of_invariant hstep himp hs

/-- A property that is false at the start and true at the end becomes true at
one particular step. -/
theorem exists_first_step {s : S} {as : List A} (hs : ¬ P s) (he : P (run step s as)) :
    ∃ pre a post, as = pre++a::post ∧ ¬ P (run step s pre) ∧
      P (step (run step s pre) a) := by
  induction as generalizing s with
  | nil => exact (hs he).elim
  | cons a as ih =>
      by_cases ha : P (step s a)
      · exact ⟨[],a,as,rfl,hs,ha⟩
      · obtain ⟨pre,b,post,rfl,hn,hp⟩ := ih ha he
        exact ⟨a::pre,b,post,rfl,hn,hp⟩

end Teleproxy.StepSystem
