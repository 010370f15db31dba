/-!
# Bytes written in base 64

Four characters of an alphabet of 64 stand for three bytes. A last group may stand for fewer: one
equals sign at its end means two bytes, two mean one. Line ends between the characters do not count.
-/

set_option autoImplicit false

namespace Reckoner.Text

/-- The value of a character of the alphabet. -/
def sixBits? (c : Char) : Option Nat :=
  if 'A' ≤ c && c ≤ 'Z' then some (c.toNat - 'A'.toNat)
  else if 'a' ≤ c && c ≤ 'z' then some (c.toNat - 'a'.toNat + 26)
  else if c.isDigit then some (c.toNat - '0'.toNat + 52)
  else if c == '+' then some 62
  else if c == '/' then some 63
  else none

/-- The bytes of a number of 24 bits, the highest first. -/
def threeBytesOf (n : Nat) : List UInt8 :=
  [UInt8.ofNat (n / 65536), UInt8.ofNat (n / 256), UInt8.ofNat n]

/-- The bytes of a group of four characters, of which the last `missing` are filled up. -/
def groupBytes? (a b c d : Char) (missing : Nat) : Option (List UInt8) := do
  let a ← sixBits? a
  let b ← sixBits? b
  let c ← sixBits? c
  let d ← sixBits? d
  return (threeBytesOf (((a * 64 + b) * 64 + c) * 64 + d)).take (3 - missing)

/-- The bytes of groups of characters. Only the last group may be filled up. -/
def groupsBytes? : List Char → Option (List UInt8)
  | [] => some []
  | [a, b, '=', '='] => groupBytes? a b 'A' 'A' 2
  | [a, b, c, '='] => groupBytes? a b c 'A' 1
  | a :: b :: c :: d :: rest => do
    let first ← groupBytes? a b c d 0
    let further ← groupsBytes? rest
    return first ++ further
  | _ => none

/-- The bytes that a text in base 64 stands for. -/
def base64? (text : String) : Option (List UInt8) :=
  groupsBytes? (text.toList.filter fun c ↦ c ≠ '\n' && c ≠ '\r')

end Reckoner.Text
