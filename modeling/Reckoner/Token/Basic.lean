import Reckoner.Span

/-!
# Tokens

A token is a kind, the text it was read from and the span of that text. A token made by hand may
combine them freely, and may be of a kind that no text has (`TokenKind.other`).
-/

set_option autoImplicit false

namespace Reckoner

/-- The lexical class of a token. -/
inductive TokenKind where
  | plus
  | minus
  | star
  | slash
  | karat
  | comma
  | word
  | equals
  | openParen
  | closeParen
  | number
  | other (code : Int)
  deriving DecidableEq, Repr

namespace TokenKind

/-- The kinds in the order of their codes. -/
def known : List TokenKind :=
  [plus, minus, star, slash, karat, comma, word, equals, openParen, closeParen, number]

/-- The kind with a code. -/
def ofCode (code : Int) : TokenKind :=
  if code < 0 then .other code else known.getD code.toNat (.other code)

/-- The name of a kind. -/
def name : TokenKind → String
  | plus => "Plus"
  | minus => "Minus"
  | star => "Star"
  | slash => "Slash"
  | karat => "Karat"
  | comma => "Comma"
  | word => "Word"
  | equals => "Equals"
  | openParen => "OpenParen"
  | closeParen => "CloseParen"
  | number => "Number"
  | other code => "TokenKind(" ++ Span.intText code ++ ")"

end TokenKind

/-- A classified piece of an input line. -/
structure Token where
  kind : TokenKind
  text : String
  span : Span
  deriving DecidableEq, Repr

namespace Token

/-- Whether two tokens have the same kind and text; where they stand does not matter. -/
def same (a b : Token) : Bool :=
  decide (a.kind = b.kind) && decide (a.text = b.text)

/-- The kind, the text and the span of a token. -/
def describe (t : Token) : String :=
  t.kind.name ++ ":" ++ t.text ++ "@" ++ t.span.text

end Token

end Reckoner
