import Reckoner.Literal

/-!
# Reading integers

An integer is written in base ten, or in another base behind its mark: `0b`, `0o` or `0x`, and a
zero in front of other digits means base eight. Underscores may separate digits, also behind the
mark.

Integers have a range of 64 bits. A text is out of range as soon as its digits so far are, even if
what follows is no digit.
-/

set_option autoImplicit false

namespace Reckoner

namespace Integer

/-- Why a text is no integer. -/
inductive Fault where
  | malformed
  | outOfRange
  deriving DecidableEq, Repr

/-- The base that a letter behind a zero stands for. -/
def baseOf? (mark : Char) : Option Nat :=
  match mark.toLower with
  | 'b' => some 2
  | 'o' => some 8
  | 'x' => some 16
  | _ => none

/-- The base of a text and its digits. -/
def splitBase : List Char → Nat × List Char
  | '0' :: mark :: digit :: rest =>
    match baseOf? mark with
    | some base => (base, digit :: rest)
    | none => (8, mark :: digit :: rest)
  | '0' :: rest => (8, rest)
  | chars => (10, chars)

/-- The value of a digit in any base: letters of both cases go on from nine. -/
def digit? (c : Char) : Option Nat :=
  if c.isAlphanum then some (Literal.hexValue c) else none

/-- The greatest integer without a sign. -/
def greatest : Nat := Nat.pow 2 64 - 1

/-- The number that further digits make of the one so far. -/
def extend (base : Nat) (value : Nat) : List Char → Except Fault Nat
  | [] => .ok value
  | '_' :: rest => extend base value rest
  | c :: rest =>
    match digit? c with
    | none => .error .malformed
    | some digit =>
      if base ≤ digit then .error .malformed
      else if greatest < value * base + digit then .error .outOfRange
      else extend base (value * base + digit) rest

/-- Whether the underscores of a text separate digits. -/
def separatorsFit : List Char → Bool
  | '0' :: mark :: rest =>
    match baseOf? mark with
    | some base =>
      Literal.separatorsFit (if base = 16 then Literal.isHexDigit else Char.isDigit) true rest
    | none => Literal.separatorsFit Char.isDigit false ('0' :: mark :: rest)
  | chars => Literal.separatorsFit Char.isDigit false chars

/-- Reads an integer without a sign. -/
def readUnsigned (chars : List Char) : Except Fault Nat :=
  if chars.isEmpty then .error .malformed
  else
    let (base, digits) := splitBase chars
    match extend base 0 digits with
    | .error fault => .error fault
    | .ok value =>
      if chars.contains '_' && !separatorsFit chars then .error .malformed else .ok value

/-- Reads an integer that may have a sign. -/
def readSigned (chars : List Char) : Except Fault Int :=
  let (negative, digits) := Literal.splitSign chars
  match readUnsigned digits with
  | .error fault => .error fault
  | .ok value =>
    if negative then
      if Nat.pow 2 63 < value then .error .outOfRange else .ok (-value)
    else if Nat.pow 2 63 ≤ value then .error .outOfRange
    else .ok value

end Integer

end Reckoner
