import Reckoner.Evaluation.Precise
import Reckoner.Proofs.Parsing

/-!
# Wide evaluation follows evaluation in 64 bits

The two evaluators walk an expression in the same order and check a call's function and number of
arguments at the same moment. Wide evaluation has failures of its own: a variable whose value is not
a number, and an operation that has no result. Such a failure may come before any other.

`Follows` says this of two results: the wide one has a value only if the plain one has, and fails
either in the same way or with a fault of its own. It is kept by running one step after another
(`Follows.bind`), so it holds of whole expressions by induction (`Expr.evalPrecise_follows`).

Main statement: a statement that can be executed wide can be executed in 64 bits, with the same kind
of result, and each failure of the one is a failure of the other, up to the faults that only wide
evaluation has (`Statement.executePrecise_agrees`).
-/

set_option autoImplicit false

namespace Reckoner

/-- Whether only wide evaluation has a fault. The others are about names: a variable without a
value, an unknown function, a wrong number of arguments. -/
def EvalFault.isWide : EvalFault → Bool
  | undefinedVariable _ => false
  | unknownFunction _ => false
  | arityMismatch _ _ _ => false
  | noPreciseValue _ => true
  | notANumber _ => true

/-- Whether a wide result follows a plain one: it is a value only if the plain one is, and otherwise
the same failure or one that only wide evaluation has. -/
def Follows {α β : Type} : Except EvalError α → Except EvalError β → Prop
  | .ok _, .ok _ => True
  | .ok _, .error _ => False
  | .error e, .ok _ => e.fault.isWide
  | .error e, .error e' => e = e' ∨ e.fault.isWide

namespace Follows

variable {α β γ δ : Type}

/-- Each step follows, so both together do. -/
theorem bind {wide : Except EvalError α} {plain : Except EvalError β}
    {wideNext : α → Except EvalError γ} {plainNext : β → Except EvalError δ}
    (hfirst : Follows wide plain)
    (hnext : ∀ x y, Follows (wideNext x) (plainNext y)) :
    Follows (wide >>= wideNext) (plain >>= plainNext) := by
  cases wide with
  | ok x =>
    cases plain with
    | ok y => exact hnext x y
    | error e => exact hfirst.elim
  | error e =>
    cases plain with
    | ok y =>
      -- the wide failure stands whatever the plain step goes on to do
      change Follows (.error e) (plainNext y)
      cases plainNext y with
      | ok z => exact hfirst
      | error e' => exact Or.inr hfirst
    | error e' => exact hfirst

/-- A step that both take in the same way does no harm. -/
theorem bind_same {common : Except EvalError α} {wideNext : α → Except EvalError γ}
    {plainNext : α → Except EvalError δ} (hnext : ∀ x, Follows (wideNext x) (plainNext x)) :
    Follows (common >>= wideNext) (common >>= plainNext) := by
  cases common with
  | ok x => exact hnext x
  | error e => exact Or.inl rfl

/-- A wide step that has only faults of its own, and what is made of its result, follow a value. -/
theorem of_wide_faults {wide : Except EvalError α} (result : α → γ) (y : β)
    (hfaults : ∀ e, wide = .error e → e.fault.isWide) :
    Follows (wide >>= fun x ↦ pure (result x)) (.ok y : Except EvalError β) := by
  cases wide with
  | ok x => trivial
  | error e => exact hfaults e rfl

/-- What follows a failure fails. -/
theorem exists_error {wide : Except EvalError α} {plain : Except EvalError β} {e : EvalError}
    (h : Follows wide plain) (hplain : plain = .error e) :
    ∃ e', wide = .error e' ∧ (e' = e ∨ e'.fault.isWide) := by
  rw [hplain] at h
  cases wide with
  | ok x => exact h.elim
  | error e' => exact ⟨e', rfl, h⟩

/-- A value follows only a value. -/
theorem exists_ok {wide : Except EvalError α} {plain : Except EvalError β} {x : α}
    (h : Follows wide plain) (hwide : wide = .ok x) : ∃ y, plain = .ok y := by
  rw [hwide] at h
  cases plain with
  | ok y => exact ⟨y, rfl⟩
  | error e => exact h.elim

/-- A failure that is not of wide evaluation alone follows only itself. -/
theorem eq_error {wide : Except EvalError α} {plain : Except EvalError β} {e : EvalError}
    (h : Follows wide plain) (hwide : wide = .error e) (hfault : e.fault.isWide = false) :
    plain = .error e := by
  rw [hwide] at h
  cases plain with
  | ok y =>
    have hisWide : e.fault.isWide = true := h
    rw [hfault] at hisWide
    cases hisWide
  | error e' =>
    rcases h with rfl | hisWide
    · rfl
    · rw [hfault] at hisWide
      cases hisWide

end Follows

/-! ### The steps of wide evaluation -/

namespace Wide

variable {f : Format} {span : Span} {e : EvalError}

/-- A 64-bit result fails to be wide only if it is not a number. -/
theorem isWide_of_ofBinary64 {operation : String} {x : Binary64}
    (h : ofBinary64 f span operation x = .error e) : e.fault.isWide := by
  cases x with
  | nan =>
    cases h
    rfl
  | number x _ => cases h

/-- A literal fails with a wide fault only. -/
theorem isWide_of_literal {text : String} {value : Binary64}
    (h : literal f text value span = .error e) : e.fault.isWide := by
  unfold literal at h
  split at h
  · cases h
  · exact isWide_of_ofBinary64 h

/-- A rounded operation that has no result fails with a wide fault. -/
theorem isWide_of_elim {operation : String} {result : Option Number}
    (h : result.elim (Except.error ⟨span, .notANumber operation⟩) Except.ok = .error e) :
    e.fault.isWide := by
  cases result with
  | none =>
    cases h
    rfl
  | some x => cases h

/-- Arithmetic fails with a wide fault only. -/
theorem isWide_of_arithmetic {lib : Library} {op : Operator} {x y : Number}
    (h : arithmetic lib f span op x y = .error e) : e.fault.isWide := by
  cases op with
  | add => exact isWide_of_elim h
  | sub => exact isWide_of_elim h
  | mul => exact isWide_of_elim h
  | div => exact isWide_of_elim h
  | pow =>
    simp only [arithmetic] at h
    split at h
    · cases h
    · exact isWide_of_ofBinary64 h

/-- A call that has been checked fails with a wide fault only. -/
theorem isWide_of_callEffect {lib : Library} {function : Function} {args : List Number}
    (h : callEffect lib f span function args = .error e) : e.fault.isWide := by
  simp only [callEffect] at h
  split at h
  · cases h
  · generalize hresult :
      ofBinary64 f span function.name (function.apply (args.map Binary64.ofNumber)) = result at h
    cases result with
    | ok x => cases h
    | error e' =>
      cases h
      exact isWide_of_ofBinary64 hresult

end Wide

namespace Expr

variable (lib : Library) (f : Format) (env : Environment)

/-- Reading a variable wide follows reading it in 64 bits. -/
theorem variableValue_follows (name : String) (span : Span) :
    Follows (Wide.variableValue f env name span) ((var name span).eval env) := by
  unfold Wide.variableValue eval
  cases env.lookup? name with
  | none => exact Or.inl rfl
  | some value =>
    cases value with
    | nan => rfl
    | number x _ => trivial

mutual

/-- Evaluating an expression wide, with whatever the slots hold, follows evaluating it in 64
bits. -/
theorem evalPrecise_follows (e : Expr) (slots : Slots Number) :
    Follows (e.evalPrecise lib f env slots) (e.eval env) := by
  cases e with
  | literal text value span =>
    exact Follows.of_wide_faults _ value fun _ ↦ Wide.isWide_of_literal
  | var name span =>
    have hvalue := variableValue_follows f env name span
    rw [← bind_pure (eval env _)]
    exact hvalue.bind fun _ _ ↦ trivial
  | call callee calleeSpan args span =>
    refine Follows.bind_same ?_
    intro function
    refine (evalPreciseAll_follows args _).bind ?_
    intro slots values
    exact Follows.of_wide_faults _ (function.apply values) fun _ ↦ Wide.isWide_of_callEffect
  | binary op left right =>
    refine (evalPrecise_follows left slots).bind ?_
    intro slots x
    refine (evalPrecise_follows right slots).bind ?_
    intro slots y
    split
    · exact Follows.of_wide_faults _ (op.apply x y) fun _ ↦ Wide.isWide_of_arithmetic
    · trivial

/-- Evaluating arguments wide follows evaluating them in 64 bits. -/
theorem evalPreciseAll_follows (args : List Expr) (slots : Slots Number) :
    Follows (evalPreciseAll lib f env args slots) (evalAll env args) := by
  cases args with
  | nil => trivial
  | cons arg rest =>
    refine (evalPrecise_follows arg slots).bind ?_
    intro slots value
    rw [← bind_pure (evalPreciseAll lib f env rest slots)]
    exact (evalPreciseAll_follows rest slots).bind fun _ _ ↦ trivial

end

/-- The wide value of an expression follows its value in 64 bits. -/
theorem preciseValue_follows (e : Expr) : Follows (e.preciseValue lib f env) (e.eval env) := by
  rw [← bind_pure (e.eval env)]
  exact (evalPrecise_follows lib f env e Slots.empty).bind fun _ _ ↦ trivial

end Expr

/-! ### Statements -/

namespace Statement

/-- What a statement leaves behind when it succeeds: an expression shows a value and stores nothing,
an assignment shows nothing and stores to its target. -/
def Leaves {α : Type} (s : Statement) (env env' : Environment) (shown : Option α) : Prop :=
  match s.target? with
  | none => env' = env ∧ ∃ x, shown = some x
  | some name => (∃ value, env' = env.set name value) ∧ shown = none

/-- Executing a statement in 64 bits leaves what its kind of statement does. -/
theorem leaves_of_execute {s : Statement} {env env' : Environment} {shown : Option Binary64}
    (h : s.execute env = .ok (env', shown)) : s.Leaves env env' shown := by
  cases s with
  | expression value =>
    obtain ⟨x, _, hreturn⟩ := bind_eq_ok.mp h
    cases hreturn
    exact ⟨rfl, x, rfl⟩
  | assignment target _ value =>
    obtain ⟨x, _, hreturn⟩ := bind_eq_ok.mp h
    cases hreturn
    exact ⟨⟨x, rfl⟩, rfl⟩

/-- Executing a statement wide leaves what its kind of statement does. -/
theorem leaves_of_executePrecise {lib : Library} {s : Statement} {env env' : Environment}
    {bits : Nat} {shown : Option Number} (h : s.executePrecise lib env bits = .ok (env', shown)) :
    s.Leaves env env' shown := by
  cases s with
  | expression value =>
    obtain ⟨x, _, hreturn⟩ := bind_eq_ok.mp h
    cases hreturn
    exact ⟨rfl, x, rfl⟩
  | assignment target _ value =>
    obtain ⟨x, _, hreturn⟩ := bind_eq_ok.mp h
    cases hreturn
    exact ⟨⟨Binary64.ofNumber x, rfl⟩, rfl⟩

/-- Executing a statement wide follows executing it in 64 bits. -/
theorem executePrecise_follows (lib : Library) (env : Environment) (bits : Nat) (s : Statement) :
    Follows (s.executePrecise lib env bits) (s.execute env) := by
  cases s with
  | expression value => exact (value.preciseValue_follows lib _ env).bind fun _ _ ↦ trivial
  | assignment target _ value => exact (value.preciseValue_follows lib _ env).bind fun _ _ ↦ trivial

/-- With every library and at every precision, a statement that succeeds wide succeeds in 64 bits
and leaves the same kind of thing behind, with the same variable stored to; a wide failure about a
name is the failure in 64 bits; and what fails in 64 bits fails wide, with the same failure or one
that only wide evaluation has. -/
theorem executePrecise_agrees (lib : Library) (env : Environment) (bits : Nat) (s : Statement) :
    (∀ wideEnv wideShown, s.executePrecise lib env bits = .ok (wideEnv, wideShown) →
      ∃ plainEnv plainShown, s.execute env = .ok (plainEnv, plainShown) ∧
        s.Leaves env wideEnv wideShown ∧ s.Leaves env plainEnv plainShown) ∧
    (∀ e, s.executePrecise lib env bits = .error e → e.fault.isWide = false →
      s.execute env = .error e) ∧
    (∀ e, s.execute env = .error e →
      ∃ e', s.executePrecise lib env bits = .error e' ∧ (e' = e ∨ e'.fault.isWide)) := by
  have hfollows := executePrecise_follows lib env bits s
  refine ⟨?_, fun e ↦ hfollows.eq_error, fun e ↦ hfollows.exists_error⟩
  intro wideEnv wideShown hwide
  obtain ⟨⟨plainEnv, plainShown⟩, hplain⟩ := hfollows.exists_ok hwide
  exact ⟨plainEnv, plainShown, hplain, leaves_of_executePrecise hwide, leaves_of_execute hplain⟩

/-- The expression `x + y`. -/
def sumOfVariables : Statement :=
  expression (.binary .add (.var "x" ⟨0, 1⟩) (.var "y" ⟨4, 5⟩))

/-- With what is not a number stored in `x` and nothing in `y`, the expression `x + y` fails in 64
bits at `y`, and wide at `x` already, with a fault that only wide evaluation has. -/
theorem executePrecise_agrees_sum :
    sumOfVariables.execute (Environment.empty.set "x" .nan) =
        .error ⟨⟨4, 5⟩, .undefinedVariable "y"⟩ ∧
      ∃ e, sumOfVariables.executePrecise Library.standard (Environment.empty.set "x" .nan) 64 =
        .error e ∧ e.fault.isWide := by
  have hplain : sumOfVariables.execute (Environment.empty.set "x" .nan) =
      .error ⟨⟨4, 5⟩, .undefinedVariable "y"⟩ := rfl
  have hwide : sumOfVariables.executePrecise Library.standard (Environment.empty.set "x" .nan) 64 =
      .error ⟨⟨0, 1⟩, .noPreciseValue "x"⟩ := rfl
  obtain ⟨e, herror, hsame | hisWide⟩ :=
    (executePrecise_agrees Library.standard _ 64 _).2.2 _ hplain
  · rw [hwide, hsame] at herror
    cases herror
  · exact ⟨hplain, e, herror, hisWide⟩

end Statement

end Reckoner
