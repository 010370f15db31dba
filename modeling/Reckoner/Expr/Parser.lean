import Reckoner.Expr.Basic
import Reckoner.Token.Nesting
import Reckoner.Token.Scan

/-!
# Reading tokens into a statement

A line that begins with a word, an equals sign and at least one more token is an assignment of the
remaining tokens; every other line is one expression.

The items of an expression, single tokens and groups, are divided at an operator: of the operators
that do not directly follow another operator, the one that binds loosest, and the rightmost of
those. So operators associate to the left, and an operator behind another operator is a sign of its
right operand. Items without such an operator are a single token, a group, or a word and a group,
which is a call.
-/

set_option autoImplicit false

namespace Reckoner

/-- What is wrong with the structure of a line. -/
inductive ParseFault where
  | redundantClose
  | missingClose
  | bracketInterrupt
  | callInterrupt
  | malformed
  | noRightHand
  | badSign
  | empty
  deriving DecidableEq, Repr

/-- The description of a structural fault. -/
def ParseFault.message : ParseFault → String
  | redundantClose => "Redundant Closing Parenthesis"
  | missingClose => "Missing Closing Parenthesis"
  | bracketInterrupt => "Bracket interrupt"
  | callInterrupt => "Function Call Bracket Interrupt"
  | malformed => "Malformed Expression"
  | noRightHand => "Expected Right Hand Expression"
  | badSign => "Unsupported prefix operator"
  | empty => "Empty Expression"

/-- A structural fault and its place. -/
structure ParseError where
  span : Span
  fault : ParseFault
  deriving DecidableEq, Repr

/-- The operator that a token stands for. -/
def TokenKind.operator? : TokenKind → Option Operator
  | .plus => some .add
  | .minus => some .sub
  | .star => some .mul
  | .slash => some .div
  | .karat => some .pow
  | _ => none

namespace Nested

/-- The operator that an item stands for, with its token. -/
def operator? : Nested → Option (Token × Operator)
  | single t => t.kind.operator?.map fun op ↦ (t, op)
  | group _ _ _ => none

/-- Where items are divided: the items in front of an operator, last first, the operator, and the
items behind it. -/
structure Division where
  /-- The items in front of the operator, last first. -/
  before : List Nested
  token : Token
  op : Operator
  behind : List Nested

/-- The better of two places of division, the second standing further to the right. -/
def Division.choose (best : Option Division) (here : Division) : Division :=
  match best with
  | none => here
  | some best => if here.op.precedence ≤ best.op.precedence then here else best

/-- The best place to divide items, given the items already passed, last first, whether the last of
them is an operator, and the best place among them. -/
def divideFrom (afterOperator : Bool) (passed : List Nested) (best : Option Division) :
    List Nested → Option Division
  | [] => best
  | item :: rest =>
    match item.operator? with
    | none => divideFrom false (item :: passed) best rest
    | some (token, op) =>
      if afterOperator then divideFrom true (item :: passed) best rest
      else
        divideFrom true (item :: passed)
          (some (Division.choose best ⟨passed, token, op, rest⟩)) rest

/-- The best place to divide items. -/
def divide? (items : List Nested) : Option Division :=
  divideFrom false [] none items

/-- The items on both sides of a division and the operator are all the items. -/
def Division.Divides (d : Division) (items : List Nested) : Prop :=
  d.before.reverse ++ single d.token :: d.behind = items

/-- An item that stands for an operator is that operator's token. -/
theorem eq_single_of_operator?_eq_some {item : Nested} {token : Token} {op : Operator}
    (h : item.operator? = some (token, op)) : item = single token := by
  cases item with
  | single t =>
    simp only [operator?, Option.map_eq_some_iff, Prod.mk.injEq] at h
    obtain ⟨_, _, rfl, _⟩ := h
    rfl
  | group opening inner closing => simp [operator?] at h

/-- The place found divides the passed and the remaining items. -/
theorem divides_of_divideFrom {afterOperator : Bool} {passed rest items : List Nested}
    {best : Option Division} {d : Division} (hitems : passed.reverse ++ rest = items)
    (hbest : ∀ b, best = some b → b.Divides items)
    (h : divideFrom afterOperator passed best rest = some d) : d.Divides items := by
  induction rest generalizing afterOperator passed best with
  | nil =>
    simp only [divideFrom] at h
    exact hbest d h
  | cons item rest ih =>
    have hnext : (item :: passed).reverse ++ rest = items := by
      simp only [List.reverse_cons, List.append_assoc, List.singleton_append]
      exact hitems
    simp only [divideFrom] at h
    split at h
    · exact ih hnext hbest h
    · rename_i token op hop
      split at h
      · exact ih hnext hbest h
      · refine ih hnext ?_ h
        intro b hb
        have hhere : Division.Divides ⟨passed, token, op, rest⟩ items := by
          unfold Division.Divides
          rw [← eq_single_of_operator?_eq_some hop]
          exact hitems
        cases best with
        | none =>
          simp only [Division.choose, Option.some.injEq] at hb
          exact hb ▸ hhere
        | some old =>
          simp only [Division.choose, Option.some.injEq] at hb
          split at hb
          · exact hb ▸ hhere
          · exact hb ▸ hbest old rfl

/-- A place to divide items divides them. -/
theorem divides_of_divide? {items : List Nested} {d : Division} (h : divide? items = some d) :
    d.Divides items :=
  divides_of_divideFrom rfl (by intro b hb; cases hb) h

/-- Both sides of a division have fewer tokens than the whole. -/
theorem count_of_divides {d : Division} {items : List Nested} (h : d.Divides items) :
    countAll d.before.reverse < countAll items ∧ countAll d.behind < countAll items := by
  rw [← h]
  simp only [countAll_append, countAll, count]
  omega

/-! ### Arguments -/

/-- An argument's items, with the token in front of them: the opening parenthesis or a comma. -/
structure Segment where
  before : Token
  items : List Nested

/-- The arguments of a call, given the token in front of the current one and its items so far, last
first. -/
def segmentsFrom (before : Token) (current : List Nested) : List Nested → List Segment
  | [] => [⟨before, current.reverse⟩]
  | single t :: rest =>
    if t.kind = .comma then ⟨before, current.reverse⟩ :: segmentsFrom t [] rest
    else segmentsFrom before (single t :: current) rest
  | item :: rest => segmentsFrom before (item :: current) rest

/-- The arguments between the parentheses of a call; there are none between parentheses that hold
nothing. -/
def segments (opening : Token) (inner : List Nested) : List Segment :=
  if inner.isEmpty then [] else segmentsFrom opening [] inner

/-- The tokens of arguments, and one more for each of them. -/
def segmentCount : List Segment → Nat
  | [] => 0
  | segment :: rest => countAll segment.items + 1 + segmentCount rest

/-- Reversing items keeps the number of their tokens. -/
@[simp] theorem countAll_reverse (items : List Nested) :
    countAll items.reverse = countAll items := by
  induction items with
  | nil => rfl
  | cons item rest ih =>
    simp only [List.reverse_cons, countAll_append, ih, countAll]
    omega

/-- The arguments have the tokens of the call, with one more in place of each comma and at the
end. -/
theorem segmentCount_segmentsFrom (before : Token) (current inner : List Nested) :
    segmentCount (segmentsFrom before current inner) = countAll current + countAll inner + 1 := by
  induction inner generalizing before current with
  | nil => simp [segmentsFrom, segmentCount, countAll]
  | cons item rest ih =>
    cases item with
    | single t =>
      simp only [segmentsFrom]
      split
      · simp only [segmentCount, countAll_reverse, ih, countAll, count]
        omega
      · simp only [ih, countAll, count]
        omega
    | group opening inside closing =>
      simp only [segmentsFrom, ih, countAll]
      omega

/-- The arguments of a call have no more tokens than its parentheses hold, but one. -/
theorem segmentCount_segments_le (opening : Token) (inner : List Nested) :
    segmentCount (segments opening inner) ≤ countAll inner + 1 := by
  unfold segments
  split
  · simp [segmentCount]
  · rw [segmentCount_segmentsFrom]
    simp only [countAll]
    omega

/-- The span of items, from the first token to the last. -/
def spanOf : List Nested → Span
  | [] => ⟨0, 0⟩
  | item :: rest => item.first.span.union ((item :: rest).getLast (by simp)).last.span

end Nested

/-! ### Expressions -/

namespace Expr

/-- The expression of a single token: a number that can be read, or a variable. -/
def ofToken (t : Token) : Except ParseError Expr :=
  match t.kind with
  | .number =>
    match Literal.read? t.text with
    | some value => .ok (literal t.text value.toBinary64 t.span)
    | none => .error ⟨t.span, .malformed⟩
  | .word => .ok (var t.text t.span)
  | _ => .error ⟨t.span, .malformed⟩

/-- The fault of items that are neither divided by an operator nor of a known shape: a group or a
call that goes on behind its closing parenthesis, if the items end with one, and otherwise a
malformed expression. -/
def shapeError (items : List Nested) : ParseError :=
  let closed := items.getLast?.any Nested.isGroup
  match items with
  | .group _ _ _ :: next :: _ =>
    if closed then ⟨next.first.span, .bracketInterrupt⟩ else ⟨Nested.spanOf items, .malformed⟩
  | .single t :: .group _ _ _ :: next :: _ =>
    if t.kind = .word ∧ closed then ⟨next.first.span, .callInterrupt⟩
    else ⟨Nested.spanOf items, .malformed⟩
  | _ => ⟨Nested.spanOf items, .malformed⟩

mutual

/-- The expression of items. -/
def ofNested (items : List Nested) : Except ParseError Expr :=
  match items with
  | [] => .error ⟨⟨0, 0⟩, .empty⟩
  | [.single t] => ofToken t
  | [.group opening inner closing] =>
    if inner.isEmpty then .error ⟨opening.span.union closing.span, .empty⟩ else ofNested inner
  | first :: second :: rest =>
    match _hdivide : Nested.divide? (first :: second :: rest) with
    | some d =>
      if d.behind.isEmpty then .error ⟨d.token.span.after, .noRightHand⟩
      else if d.before.isEmpty then
        match d.op with
        | .add => ofNested d.behind
        | .sub => do
          let right ← ofNested d.behind
          return binary .sub (signZero d.token.span) right
        | _ => .error ⟨d.token.span, .badSign⟩
      else do
        let left ← ofNested d.before.reverse
        let right ← ofNested d.behind
        return binary d.op left right
    | none =>
      match first, second, rest with
      | .single t, .group opening inner closing, [] =>
        if t.kind = .word then do
          let args ← ofSegments (Nested.segments opening inner)
          return call t.text t.span args (t.span.union closing.span)
        else .error (shapeError (first :: second :: rest))
      | _, _, _ => .error (shapeError (first :: second :: rest))
termination_by Nested.countAll items
decreasing_by
  · simp only [Nested.countAll, Nested.count]
    omega
  · exact (Nested.count_of_divides (Nested.divides_of_divide? _hdivide)).2
  · exact (Nested.count_of_divides (Nested.divides_of_divide? _hdivide)).2
  · exact (Nested.count_of_divides (Nested.divides_of_divide? _hdivide)).1
  · exact (Nested.count_of_divides (Nested.divides_of_divide? _hdivide)).2
  · have hle := Nested.segmentCount_segments_le opening inner
    simp only [Nested.countAll, Nested.count]
    omega

/-- The expressions of arguments, from left to right; an argument without items is a fault behind
the token in front of it. -/
def ofSegments (segments : List Nested.Segment) : Except ParseError (List Expr) :=
  match segments with
  | [] => .ok []
  | segment :: rest =>
    if segment.items.isEmpty then .error ⟨segment.before.span.after, .empty⟩
    else do
      let arg ← ofNested segment.items
      let args ← ofSegments rest
      return arg :: args
termination_by Nested.segmentCount segments
decreasing_by
  · simp only [Nested.segmentCount]
    omega
  · simp only [Nested.segmentCount]
    omega

end

/-- The error of parentheses that do not match, in tokens that end at the given span. -/
def mismatchError (last : Span) : Nested.Mismatch → ParseError
  | .redundant closing => ⟨closing.span, .redundantClose⟩
  | .missing => ⟨last.after, .missingClose⟩

/-- The expression of tokens. A single token is read as it is; of several, the parentheses have to
match. -/
def ofTokens (tokens : List Token) : Except ParseError Expr :=
  match tokens with
  | [] => .error ⟨⟨0, 0⟩, .empty⟩
  | [t] => ofToken t
  | first :: second :: rest =>
    match Nested.ofTokens (first :: second :: rest) with
    | .ok items => ofNested items
    | .error mismatch =>
      .error (mismatchError ((first :: second :: rest).getLast (by simp)).span mismatch)

end Expr

namespace Statement

/-- The statement of a line's tokens. -/
def ofTokens (tokens : List Token) : Except ParseError Statement :=
  match tokens with
  | target :: equals :: first :: rest =>
    if target.kind = .word ∧ equals.kind = .equals then
      (Expr.ofTokens (first :: rest)).map (assignment target.text target.span)
    else (Expr.ofTokens tokens).map expression
  | _ => (Expr.ofTokens tokens).map expression

end Statement

end Reckoner
