import Reckoner.Expr.Parser
import Reckoner.Function

/-!
# What can go wrong with a line

An evaluation fails at a place of the line, for one of five reasons. A `Fault` is any of the three
kinds of failure that a line can have: in its characters, in its structure, or in its evaluation.
All of them have a span and a description.
-/

set_option autoImplicit false

namespace Reckoner

/-- Why an evaluation fails. -/
inductive EvalFault where
  | undefinedVariable (name : String)
  | unknownFunction (name : String)
  | arityMismatch (name : String) (expected got : Nat)
  /-- A variable's value is not a number, which wide evaluation cannot hold. -/
  | noPreciseValue (name : String)
  | notANumber (operation : String)
  deriving DecidableEq, Repr

/-- The description of a failed evaluation. -/
def EvalFault.message : EvalFault → String
  | undefinedVariable name => "Undefined variable '" ++ name ++ "'"
  | unknownFunction name => "Call to non-existent function '" ++ name ++ "'"
  | arityMismatch name expected got =>
    "Bad call to '" ++ name ++ "', expected " ++ Nat.repr expected ++ " arguments but got " ++
      Nat.repr got
  | noPreciseValue name => "Variable '" ++ name ++ "' has no precise value"
  | notANumber operation => "Result of '" ++ operation ++ "' is not a number"

/-- A failed evaluation and its place. -/
structure EvalError where
  span : Span
  fault : EvalFault
  deriving DecidableEq, Repr

/-- Any failure of a line. -/
inductive Fault where
  | lex (e : LexError)
  | parse (e : ParseError)
  | eval (e : EvalError)
  deriving DecidableEq, Repr

namespace Fault

/-- The part of the line that a failure is about. -/
def span : Fault → Span
  | lex e => e.span
  | parse e => e.span
  | eval e => e.span

/-- The description of a failure without its place. -/
def message : Fault → String
  | lex e => e.message
  | parse e => e.fault.message
  | eval e => e.fault.message

/-- The place and the description of a failure. -/
def text (fault : Fault) : String :=
  fault.span.text ++ ": " ++ fault.message

end Fault

/-- The statement of a line. -/
def Statement.ofLine (line : List Char) : Except Fault Statement :=
  match Token.scan line with
  | .error e => .error (.lex e)
  | .ok tokens =>
    match Statement.ofTokens tokens with
    | .error e => .error (.parse e)
    | .ok statement => .ok statement

/-- The function that a call names, if it takes the given number of arguments. The name is checked
before the number of arguments. -/
def Function.resolve (callee : String) (calleeSpan : Span) (count : Nat) (span : Span) :
    Except EvalError Function :=
  match Function.ofName? callee with
  | none => .error ⟨calleeSpan, .unknownFunction callee⟩
  | some f =>
    if count = f.arity then .ok f
    else .error ⟨calleeSpan.betweenStops span, .arityMismatch callee f.arity count⟩

end Reckoner
