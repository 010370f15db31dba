/-!
# Reading bytes as characters

A byte sequence is read as UTF-8, and each byte that is no part of a well-formed character becomes
one replacement character. Well-formed means the shortest form of a code point, no surrogates, and
nothing above U+10FFFF.
-/

set_option autoImplicit false

namespace Reckoner.Text

/-- The character that stands for a byte that cannot be read. -/
def replacement : Char := '\uFFFD'

/-- Whether a byte continues a character. -/
def isTail (b : UInt8) : Bool :=
  0x80 ≤ b && b ≤ 0xbf

/-- The six low bits of a continuation byte. -/
def tailBits (b : UInt8) : Nat :=
  b.toNat % 64

/-- The code point of a character of two bytes. -/
def twoBytes? (a b : UInt8) : Option Nat :=
  if 0xc2 ≤ a && a ≤ 0xdf && isTail b then some (a.toNat % 32 * 64 + tailBits b) else none

/-- The code point of a character of three bytes. -/
def threeBytes? (a b c : UInt8) : Option Nat :=
  let low : UInt8 := if a = 0xe0 then 0xa0 else 0x80
  let high : UInt8 := if a = 0xed then 0x9f else 0xbf
  if 0xe0 ≤ a && a ≤ 0xef && low ≤ b && b ≤ high && isTail c then
    some (a.toNat % 16 * 4096 + tailBits b * 64 + tailBits c)
  else none

/-- The code point of a character of four bytes. -/
def fourBytes? (a b c d : UInt8) : Option Nat :=
  let low : UInt8 := if a = 0xf0 then 0x90 else 0x80
  let high : UInt8 := if a = 0xf4 then 0x8f else 0xbf
  if 0xf0 ≤ a && a ≤ 0xf4 && low ≤ b && b ≤ high && isTail c && isTail d then
    some (a.toNat % 8 * 262144 + tailBits b * 4096 + tailBits c * 64 + tailBits d)
  else none

/-- The code point that begins with a byte, and how many further bytes it takes. -/
def codePoint? (a : UInt8) (rest : List UInt8) : Option (Nat × Nat) :=
  if a < 0x80 then some (a.toNat, 0)
  else
    match rest with
    | [] => none
    | b :: rest =>
      match twoBytes? a b, rest with
      | some code, _ => some (code, 1)
      | none, [] => none
      | none, c :: rest =>
        match threeBytes? a b c, rest with
        | some code, _ => some (code, 2)
        | none, [] => none
        | none, d :: _ => (fourBytes? a b c d).map fun code ↦ (code, 3)

/-- The characters of a byte sequence, with a replacement for each byte that cannot be read. -/
def decode : List UInt8 → List Char
  | [] => []
  | a :: rest =>
    match codePoint? a rest with
    | some (code, further) => Char.ofNat code :: decode (rest.drop further)
    | none => replacement :: decode rest
termination_by bytes => bytes.length
decreasing_by all_goals simp only [List.length_cons, List.length_drop]; omega

/-- Whether every byte of a sequence is part of a well-formed character. -/
def isWellFormed : List UInt8 → Bool
  | [] => true
  | a :: rest =>
    match codePoint? a rest with
    | some (_, further) => isWellFormed (rest.drop further)
    | none => false
termination_by bytes => bytes.length
decreasing_by simp only [List.length_cons, List.length_drop]; omega

/-- The bytes of a text. -/
def encode (text : String) : List UInt8 :=
  text.toUTF8.toList

/-- The text that bytes are read as. -/
def ofBytes (bytes : List UInt8) : String :=
  String.ofList (decode bytes)

end Reckoner.Text
