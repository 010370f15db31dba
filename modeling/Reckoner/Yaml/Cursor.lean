/-!
# Positions in a YAML text

A YAML text is read after its line breaks are made uniform: a carriage return, with or without a
line feed behind it, becomes a line feed. The next-line character and the two Unicode separators
break lines too; the first one stands for a line feed in a scalar, the others for themselves.

A cursor is the text still to be read together with where it begins. Lines and columns are counted
from zero.
-/

set_option autoImplicit false

namespace Reckoner

namespace Yaml

/-! ### Characters -/

/-- Whether a character is a space or a tab. -/
def isBlank (c : Char) : Bool :=
  c == ' ' || c == '\t'

/-- Whether a character breaks a line of a uniform text. -/
def isBreak (c : Char) : Bool :=
  c == '\n' || c == '\u0085' || c == '\u2028' || c == '\u2029'

/-- What a line break stands for in a scalar. -/
def breakText (c : Char) : Char :=
  if c == '\u0085' then '\n' else c

/-- Whether a text is at its end or begins with a blank or a line break. -/
def endsWord : List Char → Bool
  | [] => true
  | c :: _ => isBlank c || isBreak c

/-- Whether a text is at its end or begins with a line break. -/
def endsLine : List Char → Bool
  | [] => true
  | c :: _ => isBreak c

/-- Whether a text begins with one of the two marks between documents. -/
def beginsWithMark : List Char → Bool
  | '-' :: '-' :: '-' :: rest => endsWord rest
  | '.' :: '.' :: '.' :: rest => endsWord rest
  | _ => false

/-- A text with uniform line breaks. -/
def uniform : List Char → List Char
  | [] => []
  | '\r' :: '\n' :: rest => '\n' :: uniform rest
  | '\r' :: rest => '\n' :: uniform rest
  | c :: rest => c :: uniform rest

/-! ### Cursors -/

/-- A place in a text. -/
structure Cursor where
  rest : List Char
  /-- The number of characters of it, which bounds the steps of reading on. -/
  left : Nat
  index : Nat
  line : Nat
  /-- The number of characters before on the same line. -/
  column : Nat

namespace Cursor

/-- The place behind the next character. -/
def next (c : Cursor) : Cursor :=
  match c.rest with
  | [] => c
  | ch :: rest =>
    if isBreak ch then ⟨rest, c.left - 1, c.index + 1, c.line + 1, 0⟩
    else ⟨rest, c.left - 1, c.index + 1, c.line, c.column + 1⟩

/-- The place that many characters further on. -/
def skip (c : Cursor) : Nat → Cursor
  | 0 => c
  | n + 1 => c.next.skip n

/-- The place behind the characters of a kind that stand here. -/
def skipWhile (c : Cursor) (p : Char → Bool) : Cursor :=
  c.skip (c.rest.takeWhile p).length

/-- The place where the given end of the text begins. -/
def advanceTo (c : Cursor) (rest : List Char) : Cursor :=
  c.skip (c.left - rest.length)

/-- The beginning of a text. -/
def start (chars : List Char) : Cursor :=
  ⟨chars, chars.length, 0, 0, 0⟩

/-- Whether a mark between documents stands here. -/
def atMark (c : Cursor) : Bool :=
  c.column == 0 && beginsWithMark c.rest

/-- The place at the end of the line. -/
def skipLine (c : Cursor) : Cursor :=
  c.skipWhile fun ch ↦ !isBreak ch

end Cursor

end Yaml

end Reckoner
