import Mathlib.Data.List.Basic

/-!
# Two computations in lockstep

A computation gives a result or an error. Two of them agree when they end with the same error
or with results that are related; what is computed from related results agrees again. The
rule for runs is the one induction over lists of steps that a comparison of two
implementations needs.
-/
namespace Teleproxy.Lockstep
variable {ε α β γ δ S T A : Type}

def Agree (R : α → β → Prop) : Except ε α → Except ε β → Prop
  | .ok a, .ok b => R a b
  | .error e, .error f => e = f
  | _, _ => False

/-- Each step meets `ok` in the state it is made in. -/
def Meets (step : S → A → Except ε S) (ok : S → A → Prop) : S → List A → Prop
  | _, [] => True
  | s, a::as => ok s a ∧ ∀ s', step s a = .ok s' → Meets step ok s' as

instance {step : S → A → Except ε S} {ok : S → A → Prop} [∀ s a, Decidable (ok s a)] :
    ∀ (s : S) (as : List A), Decidable (Meets step ok s as)
  | _, [] => isTrue trivial
  | s, a::as =>
      match h : step s a with
      | .error e => decidable_of_iff (ok s a) (by simp [Meets,h])
      | .ok s' =>
          have : Decidable (Meets step ok s' as) := instDecidableMeets s' as
          decidable_of_iff (ok s a ∧ Meets step ok s' as) (by simp [Meets,h])

variable {R : α → β → Prop} {Q : γ → δ → Prop} {x : Except ε α} {y : Except ε β}

@[simp] theorem ok_bind (a : α) (f : α → Except ε γ) : (Except.ok a >>= f) = f a := rfl
@[simp] theorem error_bind (e : ε) (f : α → Except ε γ) : (Except.error e >>= f) = .error e := rfl

theorem agree_ok {a : α} {b : β} (h : R a b) : Agree R (.ok a : Except ε α) (.ok b) := h

theorem agree_error (e : ε) : Agree R (.error e) (.error e) := rfl

theorem Agree.bind {f : α → Except ε γ} {g : β → Except ε δ} (h : Agree R x y)
    (hfg : ∀ a b, R a b → Agree Q (f a) (g b)) : Agree Q (x >>= f) (y >>= g) := by
  cases x with
  | error e =>
      cases y with
      | error e' => exact h
      | ok b => exact h.elim
  | ok a =>
      cases y with
      | error e' => exact h.elim
      | ok b => exact hfg a b h

theorem Agree.mono {R' : α → β → Prop} (h : Agree R x y) (himp : ∀ a b, R a b → R' a b) :
    Agree R' x y := by
  cases x with
  | error e =>
      cases y with
      | error e' => exact h
      | ok b => exact h.elim
  | ok a =>
      cases y with
      | error e' => exact h.elim
      | ok b => exact himp a b h

/-- What can be seen of related results is equal. -/
theorem Agree.map_eq {f : α → γ} {g : β → γ} (h : Agree R x y) (hfg : ∀ a b, R a b → f a = g b) :
    x.map f = y.map g := by
  cases x with
  | error e =>
      cases y with
      | error e' => exact congrArg Except.error h
      | ok b => exact h.elim
  | ok a =>
      cases y with
      | error e' => exact h.elim
      | ok b => exact congrArg Except.ok (hfg a b h)

/-- Related states lead to related states, or to the same error. -/
theorem agree_run {R : S → T → Prop} {step : S → A → Except ε S} {step' : T → A → Except ε T}
    {ok : S → A → Prop}
    (hstep : ∀ s t a, R s t → ok s a → Agree R (step s a) (step' t a)) {s : S} {t : T} {as : List A}
    (hst : R s t) (hm : Meets step ok s as) : Agree R (as.foldlM step s) (as.foldlM step' t) := by
  induction as generalizing s t with
  | nil => exact hst
  | cons a as ih =>
      have hnext := hstep s t a hst hm.1
      rw [List.foldlM_cons,List.foldlM_cons]
      cases hs : step s a with
      | error e =>
          rw [hs] at hnext
          cases ht : step' t a with
          | error e' =>
              rw [ht] at hnext
              exact hnext
          | ok t' =>
              rw [ht] at hnext
              exact hnext.elim
      | ok s' =>
          rw [hs] at hnext
          cases ht : step' t a with
          | error e' =>
              rw [ht] at hnext
              exact hnext.elim
          | ok t' =>
              rw [ht] at hnext
              exact ih hnext (hm.2 s' hs)

end Teleproxy.Lockstep
