import Reckoner.Token.Basic
import Reckoner.Text.Quoted
import Reckoner.Text.Utf8

/-!
# Reading a line into tokens

White space between tokens is every character up to the space, and the delete character. A word is
a run of ASCII letters, a number a run of digits that may go on with a point and more digits, and
every other token is one symbol. Each token takes as many characters as it can; a point belongs to
a number only if a digit follows it. The first character that begins no token is an error.
-/

set_option autoImplicit false

namespace Reckoner

/-- A character that begins no token. -/
structure LexError where
  position : Nat
  char : Char
  deriving DecidableEq, Repr

namespace LexError

/-- The span of the offending character. -/
def span (e : LexError) : Span :=
  ⟨e.position, e.position + 1⟩

/-- The description of the error without its place. -/
def message (e : LexError) : String :=
  "Unrecognized Input Token " ++ Text.quoteChar e.char

end LexError

namespace Token

/-! ### Character classes -/

/-- White space between tokens. -/
def isSpace (c : Char) : Bool :=
  c.toNat ≤ 0x20 || c.toNat == 0x7f

/-- An ASCII letter. -/
def isLetter (c : Char) : Bool :=
  ('A' ≤ c && c ≤ 'Z') || ('a' ≤ c && c ≤ 'z')

/-- An ASCII digit. -/
def isDigit (c : Char) : Bool :=
  '0' ≤ c && c ≤ '9'

/-- The kind of a token of one character. -/
def symbol? (c : Char) : Option TokenKind :=
  match c with
  | '+' => some .plus
  | '-' => some .minus
  | '*' => some .star
  | '/' => some .slash
  | '^' => some .karat
  | '=' => some .equals
  | '(' => some .openParen
  | ')' => some .closeParen
  | ',' => some .comma
  | _ => none

/-! ### Lexemes -/

/-- The characters that a number takes behind its first digit. -/
def numberTail (rest : List Char) : List Char :=
  let whole := rest.takeWhile isDigit
  match rest.drop whole.length with
  | '.' :: d :: further =>
    if isDigit d then whole ++ '.' :: (d :: further).takeWhile isDigit else whole
  | _ => whole

/-- The kind of the token that a character begins, and the characters it takes behind it. -/
def lexeme? (c : Char) (rest : List Char) : Option (TokenKind × List Char) :=
  if isLetter c then some (.word, rest.takeWhile isLetter)
  else if isDigit c then some (.number, numberTail rest)
  else (symbol? c).map fun kind ↦ (kind, [])

/-- The token of a kind that starts at an offset with the given characters. -/
def ofChars (kind : TokenKind) (position : Nat) (chars : List Char) : Token :=
  ⟨kind, String.ofList chars, ⟨position, position + chars.length⟩⟩

/-- The tokens of the characters from an offset on, or the first character that begins none. -/
def scanFrom (position : Nat) : List Char → Except LexError (List Token)
  | [] => .ok []
  | c :: rest =>
    if isSpace c then scanFrom (position + 1) rest
    else
      match lexeme? c rest with
      | none => .error ⟨position, c⟩
      | some (kind, tail) =>
        match scanFrom (position + 1 + tail.length) (rest.drop tail.length) with
        | .ok tokens => .ok (Token.ofChars kind position (c :: tail) :: tokens)
        | .error e => .error e
termination_by chars => chars.length
decreasing_by all_goals simp only [List.length_cons, List.length_drop]; omega

/-- The tokens of a line. -/
def scan (line : List Char) : Except LexError (List Token) :=
  scanFrom 0 line

/-- The tokens of a line given as bytes. -/
def scanBytes (line : List UInt8) : Except LexError (List Token) :=
  scan (Text.decode line)

end Token

end Reckoner
