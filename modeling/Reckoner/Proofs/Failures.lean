/-!
# How results fail

A result is a value or an error. Two things are said about the error: that it is of an allowed kind
(`FailsOnly`), and which one it is (`failure?`). Both go from the steps of a computation to the
whole: it fails only in allowed ways if each of its steps does, and its failure is that of the first
step that has one.
-/

set_option autoImplicit false

namespace Reckoner

/-! ### Failures of an allowed kind -/

/-- A result fails, if at all, only in ways that are allowed. -/
def FailsOnly {ε α : Type} (allowed : ε → Prop) (result : Except ε α) : Prop :=
  ∀ e, result = .error e → allowed e

namespace FailsOnly

variable {ε α β : Type} {allowed : ε → Prop}

/-- What does not fail. -/
theorem of_ok (x : α) : FailsOnly allowed (.ok x) := by
  intro e he
  cases he

/-- A failure that is allowed. -/
theorem of_error {e : ε} (h : allowed e) : FailsOnly allowed (.error e : Except ε α) := by
  intro e' he
  cases he
  exact h

/-- Each step fails only in allowed ways, so both together do. -/
theorem bind {result : Except ε α} {next : α → Except ε β} (h : FailsOnly allowed result)
    (hnext : ∀ x, FailsOnly allowed (next x)) : FailsOnly allowed (result >>= next) := by
  cases result with
  | error e => exact of_error (h e rfl)
  | ok x => exact hnext x

/-- More ways to fail are allowed. -/
theorem mono {allowed' : ε → Prop} {result : Except ε α} (h : FailsOnly allowed result)
    (hsub : ∀ e, allowed e → allowed' e) : FailsOnly allowed' result :=
  fun e he ↦ hsub e (h e he)

/-- What is made of a result fails as the result does. -/
theorem map {result : Except ε α} (h : FailsOnly allowed result) (f : α → β) :
    FailsOnly allowed (result.map f) := by
  cases result with
  | error e => exact of_error (h e rfl)
  | ok x => exact of_ok (f x)

end FailsOnly

/-! ### The failure itself -/

/-- The failure of a result. -/
def failure? {ε α : Type} : Except ε α → Option ε
  | .ok _ => none
  | .error e => some e

/-- A result has a failure if it is this error. -/
theorem failure?_eq_some_iff {ε α : Type} {result : Except ε α} {e : ε} :
    failure? result = some e ↔ result = .error e := by
  cases result with
  | ok x => simp [failure?]
  | error e' => simp [failure?]

/-- A result without a failure is a value. -/
theorem failure?_eq_none_iff {ε α : Type} {result : Except ε α} :
    failure? result = none ↔ ∃ x, result = .ok x := by
  cases result with
  | ok x => simp [failure?]
  | error e => simp [failure?]

/-- Assumes: the failure of the second step does not depend on the first one's value. The failure of
both is the first one's, if there is one. -/
theorem failure?_bind {ε α β : Type} {result : Except ε α} {next : α → Except ε β}
    {later : Option ε} (h : ∀ x, failure? (next x) = later) :
    failure? (result >>= next) = (failure? result).or later := by
  cases result with
  | ok x => exact h x
  | error e => rfl

/-- A last step that cannot fail does not change the failure. -/
theorem failure?_bind_pure {ε α β : Type} (result : Except ε α) (last : α → β) :
    failure? (result >>= fun x ↦ pure (last x)) = failure? result := by
  cases result <;> rfl

end Reckoner
