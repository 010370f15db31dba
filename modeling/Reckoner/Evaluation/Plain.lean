import Reckoner.Environment
import Reckoner.Evaluation.Fault

/-!
# Evaluation in 64 bits

Operands and arguments are evaluated from left to right. A call's function and number of arguments
are checked before any of its arguments. Arithmetic itself never fails: a division by zero is
infinite, and an operation without a result is not a number.
-/

set_option autoImplicit false

namespace Reckoner

/-- An operation on 64-bit numbers. -/
def Operator.apply : Operator → Binary64 → Binary64 → Binary64
  | add => Binary64.add
  | sub => Binary64.sub
  | mul => Binary64.mul
  | div => Binary64.div
  | pow => Binary64.pow

namespace Expr

mutual

/-- The value of an expression. -/
def eval (env : Environment) : Expr → Except EvalError Binary64
  | literal _ value _ => .ok value
  | var name span =>
    match env.lookup? name with
    | some value => .ok value
    | none => .error ⟨span, .undefinedVariable name⟩
  | call callee calleeSpan args span => do
    let function ← Function.resolve callee calleeSpan args.length span
    let values ← evalAll env args
    return function.apply values
  | binary op left right => do
    let x ← left.eval env
    let y ← right.eval env
    return op.apply x y

/-- The values of arguments. -/
def evalAll (env : Environment) : List Expr → Except EvalError (List Binary64)
  | [] => .ok []
  | arg :: rest => do
    let value ← arg.eval env
    let values ← evalAll env rest
    return value :: values

end

end Expr

/-- The environment after a statement, and the value of an expression; an assignment has none. -/
def Statement.execute (env : Environment) :
    Statement → Except EvalError (Environment × Option Binary64)
  | expression value => do
    let result ← value.eval env
    return (env, some result)
  | assignment target _ value => do
    let result ← value.eval env
    return (env.set target result, none)

end Reckoner
