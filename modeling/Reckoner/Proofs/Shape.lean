import Reckoner.Evaluation.Plain

/-!
# Expressions without their places

A `Shape` is an expression without spans: what a line says, wherever its tokens stand. Two
expressions are equal up to spans if they have the same shape.

Evaluation reads spans only to tell where it failed. `Shape.eval` evaluates a shape to a value or to
a fault without a place.

Main statement: an expression evaluates as its shape does, up to the place of a failure
(`Expr.eval_shape`).
-/

set_option autoImplicit false

namespace Reckoner

/-- An expression without spans. -/
inductive Shape where
  | literal (text : String) (value : Binary64)
  | var (name : String)
  | call (callee : String) (args : List Shape)
  | binary (op : Operator) (left right : Shape)

/-- A statement without spans. -/
inductive LineShape where
  | expression (value : Shape)
  | assignment (target : String) (value : Shape)

namespace Expr

mutual

/-- The shape of an expression. -/
def shape : Expr → Shape
  | literal text value _ => .literal text value
  | var name _ => .var name
  | call callee _ args _ => .call callee (shapeAll args)
  | binary op left right => .binary op left.shape right.shape

/-- The shapes of arguments. -/
def shapeAll : List Expr → List Shape
  | [] => []
  | arg :: rest => arg.shape :: shapeAll rest

end

/-- There are as many shapes as arguments. -/
@[simp] theorem length_shapeAll (args : List Expr) : (shapeAll args).length = args.length := by
  induction args with
  | nil => rfl
  | cons arg rest ih => simp [shapeAll, ih]

end Expr

/-- The shape of a statement. -/
def Statement.shape : Statement → LineShape
  | expression value => .expression value.shape
  | assignment target _ value => .assignment target value.shape

/-! ### Evaluation without places -/

/-- The function with a name, if it takes the given number of arguments, or what is wrong. -/
def Function.named (callee : String) (count : Nat) : Except EvalFault Function :=
  match Function.ofName? callee with
  | none => .error (.unknownFunction callee)
  | some f => if count = f.arity then .ok f else .error (.arityMismatch callee f.arity count)

/-- A result without the place of its failure. -/
def unplaced {α : Type} (result : Except EvalError α) : Except EvalFault α :=
  result.mapError EvalError.fault

/-- Places are lost step by step. -/
@[simp] theorem unplaced_bind {α β : Type} (result : Except EvalError α)
    (next : α → Except EvalError β) :
    unplaced (result >>= next) = unplaced result >>= fun x ↦ unplaced (next x) := by
  cases result <;> rfl

/-- Resolving a call needs its spans only for a failure. -/
@[simp] theorem Function.unplaced_resolve (callee : String) (calleeSpan : Span) (count : Nat)
    (span : Span) :
    unplaced (Function.resolve callee calleeSpan count span) = Function.named callee count := by
  unfold Function.resolve Function.named
  cases Function.ofName? callee with
  | none => rfl
  | some f =>
    dsimp only
    split <;> rfl

namespace Shape

mutual

/-- The value of a shape, or what is wrong with it. -/
def eval (env : Environment) : Shape → Except EvalFault Binary64
  | literal _ value => .ok value
  | var name =>
    match env.lookup? name with
    | some value => .ok value
    | none => .error (.undefinedVariable name)
  | call callee args => do
    let function ← Function.named callee args.length
    let values ← evalAll env args
    return function.apply values
  | binary op left right => do
    let x ← left.eval env
    let y ← right.eval env
    return op.apply x y

/-- The values of arguments. -/
def evalAll (env : Environment) : List Shape → Except EvalFault (List Binary64)
  | [] => .ok []
  | arg :: rest => do
    let value ← arg.eval env
    let values ← evalAll env rest
    return value :: values

end

end Shape

namespace Expr

mutual

/-- An expression evaluates as its shape does, up to the place of a failure. -/
theorem eval_shape (env : Environment) (e : Expr) : unplaced (e.eval env) = e.shape.eval env := by
  cases e with
  | literal text value span => rfl
  | var name span =>
    simp only [eval, shape, Shape.eval]
    cases env.lookup? name <;> rfl
  | call callee calleeSpan args span =>
    simp only [eval, shape, Shape.eval, unplaced_bind, Function.unplaced_resolve, length_shapeAll,
      evalAll_shape env args]
    rfl
  | binary op left right =>
    simp only [eval, shape, Shape.eval, unplaced_bind, eval_shape env left, eval_shape env right]
    rfl

/-- Arguments evaluate as their shapes do, up to the place of a failure. -/
theorem evalAll_shape (env : Environment) (args : List Expr) :
    unplaced (evalAll env args) = Shape.evalAll env (shapeAll args) := by
  cases args with
  | nil => rfl
  | cons arg rest =>
    simp only [evalAll, shapeAll, Shape.evalAll, unplaced_bind, eval_shape env arg,
      evalAll_shape env rest]
    rfl

end

end Expr

end Reckoner
