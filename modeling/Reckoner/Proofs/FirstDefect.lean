import Mathlib.Tactic.ByContra
import Reckoner.Evaluation.Plain
import Reckoner.Expr.Parser
import Reckoner.Proofs.Failures

/-!
# The first defect of a statement

An expression can be wrong in three ways, each a defect of one of its parts: a variable has no
value, there is no function of the name that is called, or the function takes another number of
arguments (`Expr.Defect`). Whether a part has a defect does not depend on the value of any other.

Evaluation goes through the parts in preorder, the left operand before the right one and a call
before its arguments, and fails at the first part that has a defect (`Expr.failure?_eval`). Without
a defect it has a value, whatever the numbers are.

Main statement: `Statement.execute_firstDefect`.
-/

set_option autoImplicit false

namespace Reckoner

/-! ### Defects -/

namespace Function

/-- Every function is listed. -/
theorem mem_all (f : Function) : f ∈ all := by
  cases f <;> decide

/-- A function is found by its name, and only by its name. -/
theorem ofName?_eq_some_iff {name : String} {f : Function} :
    ofName? name = some f ↔ f.name = name := by
  constructor
  · intro h
    simpa using List.find?_some h
  · rintro rfl
    cases f <;> rfl

/-- Nothing is found by a name that no function has. -/
theorem ofName?_eq_none_iff {name : String} : ofName? name = none ↔ ∀ f ∈ all, f.name ≠ name := by
  simp [ofName?]

end Function

namespace Expr

variable {env : Environment}

/-- What is wrong with a part of an expression, and what of the line is marked for it. -/
inductive Defect (env : Environment) : Expr → EvalError → Prop where
  /-- A variable has no value: its name is marked. -/
  | undefined {name : String} {span : Span} (h : env.lookup? name = none) :
    Defect env (.var name span) ⟨span, .undefinedVariable name⟩
  /-- No function has the name that is called: the name is marked. -/
  | unknown {callee : String} {calleeSpan span : Span} {args : List Expr}
    (h : ∀ f ∈ Function.all, f.name ≠ callee) :
    Defect env (.call callee calleeSpan args span) ⟨calleeSpan, .unknownFunction callee⟩
  /-- The function takes another number of arguments: what is behind its name is marked. -/
  | arity {calleeSpan span : Span} {args : List Expr} {f : Function} (hf : f ∈ Function.all)
    (h : args.length ≠ f.arity) :
    Defect env (.call f.name calleeSpan args span)
      ⟨⟨calleeSpan.stop, span.stop⟩, .arityMismatch f.name f.arity args.length⟩

/-- The defect of a part of an expression. -/
def defect? (env : Environment) : Expr → Option EvalError
  | literal _ _ _ => none
  | var name span =>
    match env.lookup? name with
    | some _ => none
    | none => some ⟨span, .undefinedVariable name⟩
  | call callee calleeSpan args span =>
    failure? (Function.resolve callee calleeSpan args.length span)
  | binary _ _ _ => none

/-- The defect of a part is what is wrong with it. -/
theorem defect?_eq_some_iff {e : Expr} {err : EvalError} :
    e.defect? env = some err ↔ Defect env e err := by
  constructor
  · intro h
    cases e with
    | literal text value span => cases h
    | binary op left right => cases h
    | var name span =>
      cases hlookup : env.lookup? name with
      | some x => simp [defect?, hlookup] at h
      | none =>
        simp only [defect?, hlookup, Option.some.injEq] at h
        exact h ▸ .undefined hlookup
    | call callee calleeSpan args span =>
      rw [defect?, failure?_eq_some_iff, Function.resolve] at h
      cases hname : Function.ofName? callee with
      | none =>
        simp only [hname, Except.error.injEq] at h
        exact h ▸ .unknown (Function.ofName?_eq_none_iff.mp hname)
      | some f =>
        obtain rfl := Function.ofName?_eq_some_iff.mp hname
        by_cases hcount : args.length = f.arity
        · simp [hname, hcount] at h
        · simp only [hname, hcount, ↓reduceIte, Except.error.injEq] at h
          exact h ▸ .arity f.mem_all hcount
  · intro h
    cases h with
    | undefined hlookup => simp only [defect?, hlookup]
    | unknown hname =>
      simp only [defect?, Function.resolve, Function.ofName?_eq_none_iff.mpr hname, failure?]
    | @arity calleeSpan span args f hf hcount =>
      have hname : Function.ofName? f.name = some f := Function.ofName?_eq_some_iff.mpr rfl
      simp only [defect?, Function.resolve, hname, hcount, ↓reduceIte, failure?]
      rfl

/-- A part has no defect if nothing is wrong with it. -/
theorem defect?_eq_none_iff {e : Expr} : e.defect? env = none ↔ ∀ err, ¬ Defect env e err := by
  simp only [← defect?_eq_some_iff]
  exact Option.eq_none_iff_forall_ne_some

/-! ### Evaluation in preorder -/

mutual

/-- Evaluation fails with the first defect of the parts in preorder, if there is one. -/
theorem failure?_eval (env : Environment) (e : Expr) :
    failure? (e.eval env) = e.parts.findSome? (defect? env) := by
  cases e with
  | literal text value span => rfl
  | var name span =>
    simp only [eval, parts, List.findSome?, defect?]
    cases env.lookup? name <;> rfl
  | call callee calleeSpan args span =>
    have hargs (function : Function) : failure? (do
        let values ← evalAll env args
        return function.apply values) = (partsAll args).findSome? (defect? env) := by
      rw [failure?_bind_pure, failure?_evalAll env args]
    rw [eval, failure?_bind hargs, parts, List.findSome?_cons]
    simp only [defect?]
    cases failure? (Function.resolve callee calleeSpan args.length span) <;> rfl
  | binary op left right =>
    have hright (x : Binary64) : failure? (do
        let y ← right.eval env
        return op.apply x y) = right.parts.findSome? (defect? env) := by
      rw [failure?_bind_pure, failure?_eval env right]
    rw [eval, failure?_bind hright, parts, List.findSome?_cons, List.findSome?_append,
      failure?_eval env left]
    rfl

/-- Evaluating arguments fails with the first defect of their parts in preorder. -/
theorem failure?_evalAll (env : Environment) (args : List Expr) :
    failure? (evalAll env args) = (partsAll args).findSome? (defect? env) := by
  cases args with
  | nil => rfl
  | cons arg rest =>
    have hrest (value : Binary64) : failure? (do
        let values ← evalAll env rest
        return value :: values) = (partsAll rest).findSome? (defect? env) := by
      rw [failure?_bind_pure, failure?_evalAll env rest]
    rw [evalAll, failure?_bind hrest, partsAll, List.findSome?_append, failure?_eval env arg]

end

/-- No part of an expression has a defect if every variable has a value and every call names a
function and has as many arguments as it takes. -/
theorem forall_not_defect_iff {parts : List Expr} :
    (∀ part ∈ parts, ∀ err, ¬ Defect env part err) ↔
      (∀ name span, .var name span ∈ parts → ∃ x, env.lookup? name = some x) ∧
        ∀ callee calleeSpan args span, .call callee calleeSpan args span ∈ parts →
          ∃ f ∈ Function.all, f.name = callee ∧ args.length = f.arity := by
  constructor
  · intro hparts
    constructor
    · intro name span hmem
      by_contra hnone
      have hlookup : env.lookup? name = none := by
        refine Option.eq_none_iff_forall_ne_some.mpr ?_
        intro x hx
        exact hnone ⟨x, hx⟩
      exact hparts _ hmem _ (.undefined hlookup)
    · intro callee calleeSpan args span hmem
      by_contra hnone
      by_cases hknown : ∃ f ∈ Function.all, f.name = callee
      · obtain ⟨f, hf, rfl⟩ := hknown
        refine hparts _ hmem _ (.arity hf ?_)
        intro hcount
        exact hnone ⟨f, hf, rfl, hcount⟩
      · refine hparts _ hmem _ (.unknown ?_)
        intro f hf hname
        exact hknown ⟨f, hf, hname⟩
  · rintro ⟨hvars, hcalls⟩ part hmem err hdefect
    cases hdefect with
    | undefined hlookup =>
      obtain ⟨x, hx⟩ := hvars _ _ hmem
      rw [hlookup] at hx
      cases hx
    | unknown hname =>
      obtain ⟨f, hf, hcallee, -⟩ := hcalls _ _ _ _ hmem
      exact hname f hf hcallee
    | @arity calleeSpan span args f hf hcount =>
      obtain ⟨g, -, hname, hcount'⟩ := hcalls _ _ _ _ hmem
      have hsame : some g = some f := by
        rw [← Function.ofName?_eq_some_iff.mpr hname, Function.ofName?_eq_some_iff.mpr rfl]
      obtain rfl := Option.some.inj hsame
      exact hcount hcount'

end Expr

namespace Statement

/-- A statement fails as its expression does. -/
theorem failure?_execute (env : Environment) (s : Statement) :
    failure? (s.execute env) = failure? (s.value.eval env) := by
  cases s with
  | expression value => exact failure?_bind_pure _ _
  | assignment target targetSpan value => exact failure?_bind_pure _ _

/-- A statement succeeds if every variable that its expression reads has a value, and every call in
it names a function and has as many arguments as this function takes; the numbers do not matter.
Otherwise it fails with what is wrong with the first part, in preorder, that has a defect: the left
operand before the right one, and a call itself before its arguments. -/
theorem execute_firstDefect (env : Environment) (s : Statement) :
    ((∃ result, s.execute env = .ok result) ↔
      (∀ name span, .var name span ∈ s.value.parts → ∃ x, env.lookup? name = some x) ∧
        ∀ callee calleeSpan args span, .call callee calleeSpan args span ∈ s.value.parts →
          ∃ f ∈ Function.all, f.name = callee ∧ args.length = f.arity) ∧
    ∀ err, s.execute env = .error err ↔
      ∃ front part back, s.value.parts = front ++ part :: back ∧
        (∀ earlier ∈ front, ∀ other, ¬ Expr.Defect env earlier other) ∧
        Expr.Defect env part err := by
  have hfailure : failure? (s.execute env) = s.value.parts.findSome? (Expr.defect? env) :=
    (failure?_execute env s).trans (Expr.failure?_eval env s.value)
  constructor
  · rw [← failure?_eq_none_iff, hfailure, List.findSome?_eq_none_iff,
      ← Expr.forall_not_defect_iff]
    simp only [Expr.defect?_eq_none_iff]
  · intro err
    rw [← failure?_eq_some_iff, hfailure, List.findSome?_eq_some_iff]
    simp only [Expr.defect?_eq_some_iff, Expr.defect?_eq_none_iff]
    constructor
    · rintro ⟨front, part, back, hparts, hdefect, hfront⟩
      exact ⟨front, part, back, hparts, hfront, hdefect⟩
    · rintro ⟨front, part, back, hparts, hfront, hdefect⟩
      exact ⟨front, part, back, hparts, hdefect, hfront⟩

/-- In `x + sin(y, g(z))` without any variables, `x` is the first of five defects. With a value of
`x` the first is the number of arguments, before what is wrong with these. -/
example (x : Binary64) :
    let call : Expr := .call "sin" ⟨4, 7⟩
      [.var "y" ⟨8, 9⟩, .call "g" ⟨11, 12⟩ [.var "z" ⟨13, 14⟩] ⟨11, 15⟩] ⟨4, 16⟩
    let s : Statement := .expression (.binary .add (.var "x" ⟨0, 1⟩) call)
    s.execute .empty = .error ⟨⟨0, 1⟩, .undefinedVariable "x"⟩ ∧
      s.execute (Environment.empty.set "x" x) = .error ⟨⟨7, 16⟩, .arityMismatch "sin" 1 2⟩ :=
  ⟨rfl, rfl⟩

end Statement

end Reckoner
