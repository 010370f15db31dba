import Reckoner.Decimal.Basic
import Reckoner.Number.Binary64

/-!
# Reading number literals

A literal text is a decimal (`12`, `5.`, `.5`, `1e-3`), a hexadecimal number with a binary exponent
(`0x1.8p1`), or the name of an infinity or of the value that is not a number; all but the last may
have a sign. Underscores may separate digits.

A text is read in two ways: to the nearest 64-bit number (`Literal.toBinary64`), and to a wide
format (`Literal.toWide?`), which knows fewer spellings and leaves the others to the 64-bit value.
-/

set_option autoImplicit false

namespace Reckoner

/-- What a literal text denotes. -/
inductive Literal where
  | nan
  | infinite (negative : Bool)
  | decimal (negative : Bool) (value : Decimal)
  | binary (negative : Bool) (mant : Nat) (exp : Int)
  deriving DecidableEq, Repr

namespace Literal

/-! ### Characters -/

/-- The value of a hexadecimal digit. -/
def hexValue (c : Char) : Nat :=
  if c.isDigit then c.toNat - '0'.toNat else c.toLower.toNat - 'a'.toNat + 10

/-- Whether a character is a hexadecimal digit. -/
def isHexDigit (c : Char) : Bool :=
  c.isDigit || ('a' ≤ c.toLower && c.toLower ≤ 'f')

/-- The number that digits denote in a base. -/
def valueOf (base : Nat) (digits : List Char) : Nat :=
  digits.foldl (fun value c ↦ value * base + hexValue c) 0

/-- A sign in front of a text, and the rest; no sign is a plus. -/
def splitSign : List Char → Bool × List Char
  | '-' :: rest => (true, rest)
  | '+' :: rest => (false, rest)
  | chars => (false, chars)

/-- The text without letter case. -/
def lowerCase (chars : List Char) : List Char :=
  chars.map Char.toLower

/-! ### Underscores -/

/-- Whether each underscore stands behind a digit and in front of one. `afterDigit` tells whether
the character before was a digit. -/
def separatorsFit (isDigit : Char → Bool) : Bool → List Char → Bool
  | _, [] => true
  | afterDigit, '_' :: rest =>
    match rest with
    | c :: _ => afterDigit && isDigit c && separatorsFit isDigit false rest
    | [] => false
  | _, c :: rest => separatorsFit isDigit (isDigit c) rest

/-- A text that starts with the mark of a hexadecimal number, without it. -/
def hexBody? : List Char → Option (List Char)
  | '0' :: 'x' :: c :: rest => some (c :: rest)
  | '0' :: 'X' :: c :: rest => some (c :: rest)
  | _ => none

/-! ### Mantissa and exponent -/

/-- Digits with at most one point among them: the digits in front, those behind, and the rest of the
text. There is at least one digit. -/
def mantissa? (isDigit : Char → Bool) (chars : List Char) :
    Option (List Char × List Char × List Char) :=
  let whole := chars.takeWhile isDigit
  let rest := chars.dropWhile isDigit
  let (fraction, rest) :=
    match rest with
    | '.' :: rest => (rest.takeWhile isDigit, rest.dropWhile isDigit)
    | rest => ([], rest)
  if whole.isEmpty && fraction.isEmpty then none else some (whole, fraction, rest)

/-- A signed exponent that fills the text. -/
def exponent? (chars : List Char) : Option Int :=
  let (negative, digits) := splitSign chars
  if digits.isEmpty || !digits.all Char.isDigit then none
  else
    let size : Int := valueOf 10 digits
    some (if negative then -size else size)

/-- A decimal number that fills the text. -/
def decimal? (negative : Bool) (chars : List Char) : Option Literal := do
  let (whole, fraction, rest) ← mantissa? Char.isDigit chars
  let exponent ←
    match rest with
    | [] => some 0
    | c :: rest => if c.toLower = 'e' then exponent? rest else none
  return .decimal negative ⟨valueOf 10 (whole ++ fraction), exponent - fraction.length⟩

/-- A hexadecimal number that fills the text; its exponent is required. -/
def hexadecimal? (negative : Bool) (chars : List Char) : Option Literal := do
  let (whole, fraction, rest) ← mantissa? isHexDigit chars
  let exponent ←
    match rest with
    | [] => none
    | c :: rest => if c.toLower = 'p' then exponent? rest else none
  return .binary negative (valueOf 16 (whole ++ fraction)) (exponent - 4 * fraction.length)

/-- The name of a value that is not finite. -/
def named? (chars : List Char) : Option Literal :=
  let (negative, body) := splitSign (lowerCase chars)
  if body = "inf".toList ∨ body = "infinity".toList then some (.infinite negative)
  else if lowerCase chars = "nan".toList then some .nan
  else none

/-- A signed number. -/
def number? (chars : List Char) : Option Literal :=
  let (negative, body) := splitSign chars
  let plain := body.filter (· ≠ '_')
  match hexBody? body with
  | some digits =>
    if separatorsFit isHexDigit true digits then
      (hexBody? plain).bind (hexadecimal? negative)
    else none
  | none => if separatorsFit Char.isDigit false body then decimal? negative plain else none

/-- The literal that a text denotes. -/
def read? (text : String) : Option Literal :=
  (named? text.toList).or (number? text.toList)

/-! ### Values -/

/-- The nearest 64-bit number; what is out of range is infinite or zero. -/
def toBinary64 : Literal → Binary64
  | .nan => .nan
  | .infinite negative => Binary64.ofNumber ⟨negative, .infinite⟩
  | .decimal negative value => Binary64.ofNumber ⟨negative, Format.binary64.ofDecimal value⟩
  | .binary negative mant exp => Binary64.ofNumber ⟨negative, Magnitude.ofScaled mant exp⟩

/-- Whether the binary exponent that a decimal of the given coefficient starts from is one of 32
bits. -/
def exponentFits (value : Decimal) : Bool :=
  let exponent := (bitLength value.coeff : Int) + value.exp
  decide (-(Nat.pow 2 31 : Nat) ≤ exponent ∧ exponent < (Nat.pow 2 31 : Nat))

/-- The infinities that wide reading knows. -/
def wideInfinity? (chars : List Char) : Option Number :=
  let (negative, body) := splitSign chars
  if body = "Inf".toList ∨ body = "inf".toList then some ⟨negative, .infinite⟩ else none

/-- The nearest wide number to a decimal text without underscores, or an infinity. -/
def readWide? (f : Format) (text : String) : Option Number :=
  match wideInfinity? text.toList with
  | some x => some x
  | none =>
    let (negative, body) := splitSign text.toList
    match decimal? negative body with
    | some (.decimal negative value) =>
      if value.coeff = 0 then some ⟨negative, .zero⟩
      else if exponentFits value then some ⟨negative, f.ofDecimal value⟩
      else none
    | _ => none

end Literal

end Reckoner
