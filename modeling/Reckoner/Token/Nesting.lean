import Reckoner.Token.Basic

/-!
# Tokens nested by parentheses

The parentheses of a token list are matched once, before anything else is decided about it: the list
becomes a sequence of single tokens and bracketed groups, whose inner tokens are sequences of the
same kind. A closing parenthesis without an opening one is found at the first place where it occurs,
and an opening one without a closing one at the end.
-/

set_option autoImplicit false

namespace Reckoner

/-- A single token, or a group between matching parentheses. -/
inductive Nested where
  | single (t : Token)
  | group (opening : Token) (inner : List Nested) (closing : Token)

namespace Nested

/-- The first token of an item. -/
def first : Nested → Token
  | single t => t
  | group opening _ _ => opening

/-- The last token of an item. -/
def last : Nested → Token
  | single t => t
  | group _ _ closing => closing

/-- Whether an item is a group. -/
def isGroup : Nested → Bool
  | single _ => false
  | group _ _ _ => true

mutual

/-- The number of tokens of an item. -/
def count : Nested → Nat
  | single _ => 1
  | group _ inner _ => countAll inner + 2

/-- The number of tokens of a sequence. -/
def countAll : List Nested → Nat
  | [] => 0
  | item :: rest => item.count + countAll rest

end

mutual

/-- The tokens of an item. -/
def tokens : Nested → List Token
  | single t => [t]
  | group opening inner closing => opening :: (tokensAll inner ++ [closing])

/-- The tokens of a sequence. -/
def tokensAll : List Nested → List Token
  | [] => []
  | item :: rest => item.tokens ++ tokensAll rest

end

/-- The tokens of a sequence are counted by its parts. -/
@[simp] theorem countAll_append (front back : List Nested) :
    countAll (front ++ back) = countAll front + countAll back := by
  induction front with
  | nil => simp [countAll]
  | cons item rest ih =>
    simp only [List.cons_append, countAll, ih]
    omega

/-- Every item has at least one token. -/
theorem count_pos (item : Nested) : 0 < item.count := by
  cases item with
  | single t => simp [count]
  | group opening inner closing =>
    simp only [count]
    omega

/-- Parentheses that do not match. -/
inductive Mismatch where
  | redundant (closing : Token)
  /-- An opening parenthesis is left open at the end. -/
  | missing
  deriving DecidableEq, Repr

/-- Matches the parentheses of tokens, given the groups that are open, each with the items in front
of it, and the items of the innermost of them, last first. -/
def nestFrom (outer : List (Token × List Nested)) (items : List Nested) :
    List Token → Except Mismatch (List Nested)
  | [] => if outer.isEmpty then .ok items.reverse else .error .missing
  | t :: rest =>
    match t.kind with
    | .openParen => nestFrom ((t, items) :: outer) [] rest
    | .closeParen =>
      match outer with
      | [] => .error (.redundant t)
      | (opening, before) :: outer => nestFrom outer (group opening items.reverse t :: before) rest
    | _ => nestFrom outer (single t :: items) rest

/-- The items of a token list. -/
def ofTokens (tokens : List Token) : Except Mismatch (List Nested) :=
  nestFrom [] [] tokens

end Nested

end Reckoner
