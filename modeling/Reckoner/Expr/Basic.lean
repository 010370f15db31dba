import Reckoner.Literal
import Reckoner.Decimal.Layout
import Reckoner.Span

/-!
# Expressions and statements

An expression is a literal, a variable, a call of a function or a binary operation. A statement is
an expression or the assignment of one to a variable. Literals keep the text they were read from
beside their 64-bit value. The span of an operation runs from its left operand to its right one, so
it is not stored.

`Statement.render` writes a statement in its canonical form: operators and calls in postfix order
inside spaced parentheses.
-/

set_option autoImplicit false

namespace Reckoner

/-- The binary operators. -/
inductive Operator where
  | add
  | sub
  | mul
  | div
  | pow
  deriving DecidableEq, Repr

namespace Operator

/-- The sign of an operator. -/
def symbol : Operator → String
  | add => "+"
  | sub => "-"
  | mul => "*"
  | div => "/"
  | pow => "^"

/-- The name of an operator. -/
def name : Operator → String
  | add => "Add"
  | sub => "Sub"
  | mul => "Mul"
  | div => "Div"
  | pow => "Pow"

/-- How tightly an operator binds. -/
def precedence : Operator → Nat
  | add | sub => 0
  | mul | div => 1
  | pow => 2

end Operator

/-- An expression. -/
inductive Expr where
  | literal (text : String) (value : Binary64) (span : Span)
  | var (name : String) (span : Span)
  /-- A function applied to arguments; the first span is that of the function's name. -/
  | call (callee : String) (calleeSpan : Span) (args : List Expr) (span : Span)
  | binary (op : Operator) (left right : Expr)

/-- A parsed line. -/
inductive Statement where
  | expression (value : Expr)
  | assignment (target : String) (targetSpan : Span) (value : Expr)

namespace Expr

/-- The part of the line that an expression covers. -/
def span : Expr → Span
  | literal _ _ span => span
  | var _ span => span
  | call _ _ _ span => span
  | binary _ left right => left.span.union right.span

/-- The zero that a minus sign in front of an operand subtracts from. -/
def signZero (sign : Span) : Expr :=
  literal "0" Binary64.zero sign

/-! ### The canonical form -/

mutual

/-- The canonical form of an expression. -/
def render : Expr → String
  | literal _ value _ => value.text
  | var name _ => "v:" ++ name
  | call callee _ args _ => "( " ++ renderAll args ++ ">| " ++ callee ++ " )"
  | binary op left right =>
    "( " ++ left.render ++ " " ++ right.render ++ " " ++ op.symbol ++ " )"

/-- The canonical forms of arguments, each followed by a space. -/
def renderAll : List Expr → String
  | [] => ""
  | arg :: rest => arg.render ++ " " ++ renderAll rest

end

/-! ### Variables read -/

mutual

/-- The names of the variables an expression reads, from left to right. -/
def reads : Expr → List String
  | literal _ _ _ => []
  | var name _ => [name]
  | call _ _ args _ => readsAll args
  | binary _ left right => left.reads ++ right.reads

/-- The names that arguments read. -/
def readsAll : List Expr → List String
  | [] => []
  | arg :: rest => arg.reads ++ readsAll rest

end

/-! ### Parts in preorder -/

mutual

/-- An expression and all expressions inside it. -/
def parts : Expr → List Expr
  | literal text value span => [literal text value span]
  | var name span => [var name span]
  | call callee calleeSpan args span => call callee calleeSpan args span :: partsAll args
  | binary op left right => binary op left right :: (left.parts ++ right.parts)

/-- Arguments and all expressions inside them. -/
def partsAll : List Expr → List Expr
  | [] => []
  | arg :: rest => arg.parts ++ partsAll rest

end

/-- An expression is a part of itself. -/
theorem mem_parts_self (e : Expr) : e ∈ e.parts := by
  cases e <;> simp [parts]

/-! ### Nodes in preorder -/

/-- A node's kind and its span. -/
structure NodeView where
  label : String
  span : Span

namespace NodeView

/-- The kind and the span of a node. -/
def text (view : NodeView) : String :=
  view.label ++ "@" ++ view.span.text

end NodeView

mutual

/-- The nodes of an expression in preorder; a call's name is the first node below the call. -/
def nodes : Expr → List NodeView
  | literal text _ span => [⟨"Num:" ++ text, span⟩]
  | var name span => [⟨"Name:" ++ name, span⟩]
  | call callee calleeSpan args span =>
    ⟨"Call/" ++ Nat.repr args.length, span⟩ :: ⟨"Name:" ++ callee, calleeSpan⟩ :: nodesAll args
  | binary op left right =>
    ⟨op.name, left.span.union right.span⟩ :: (left.nodes ++ right.nodes)

/-- The nodes of arguments. -/
def nodesAll : List Expr → List NodeView
  | [] => []
  | arg :: rest => arg.nodes ++ nodesAll rest

end

end Expr

/-- Puts a name in its place in an increasing list, unless it is there. -/
def insertName (name : String) : List String → List String
  | [] => [name]
  | first :: rest =>
    if name < first then name :: first :: rest
    else if name = first then first :: rest
    else first :: insertName name rest

/-- The names of a list, in increasing order and each once. -/
def sortNames (names : List String) : List String :=
  names.foldr insertName []

namespace Statement

/-- The expression of a statement. -/
def value : Statement → Expr
  | expression value => value
  | assignment _ _ value => value

/-- The variable that an assignment stores to. -/
def target? : Statement → Option String
  | expression _ => none
  | assignment target _ _ => some target

/-- The part of the line that a statement covers. -/
def span : Statement → Span
  | expression value => value.span
  | assignment _ targetSpan value => targetSpan.union value.span

/-- The canonical form of a statement. -/
def render : Statement → String
  | expression value => value.render
  | assignment target _ value => "SET " ++ target ++ " = " ++ value.render

/-- The names of the variables a statement reads, in increasing order. The target of an assignment
is among them only if its value reads it. -/
def names (s : Statement) : List String :=
  sortNames s.value.reads

/-- The nodes of a statement in preorder; an assignment's target is the first node below it. -/
def nodes : Statement → List Expr.NodeView
  | expression value => value.nodes
  | assignment target targetSpan value =>
    ⟨"Assign", targetSpan.union value.span⟩ :: ⟨"Name:" ++ target, targetSpan⟩ :: value.nodes

end Statement

end Reckoner
