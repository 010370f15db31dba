/-!
# Directives

A directive tells how a number is shown: flags, a width and a precision. This module holds what a
directive does to a text that is already there: it pads the text to the width.
-/

set_option autoImplicit false

namespace Reckoner

namespace Template

/-- The flags of a directive. -/
structure Flags where
  /-- A sign also for numbers that are not negative. -/
  plus : Bool
  /-- Padding on the right. -/
  minus : Bool
  /-- Trailing zeros are kept. -/
  sharp : Bool
  /-- A space in place of a plus. -/
  space : Bool
  /-- Padding with zeros. -/
  zero : Bool

/-- No flags. -/
def Flags.none : Flags :=
  ⟨false, false, false, false, false⟩

/-- How a number is shown. -/
structure Directive where
  flags : Flags
  /-- The least number of characters. -/
  width : Option Nat
  precision : Option Nat

/-- The directive of a number that is shown for want of a better one. -/
def Directive.bare : Directive :=
  ⟨Flags.none, .none, .none⟩

namespace Directive

/-- Whether padding is done with zeros; they stand only on the left. -/
def zeroPads (d : Directive) : Bool :=
  d.flags.zero && !d.flags.minus

/-- The number of characters missing to the width. -/
def missing (d : Directive) (length : Nat) : Nat :=
  d.width.getD 0 - length

/-- A text padded to the width, with zeros if told. -/
def padWith (d : Directive) (zeros : Bool) (text : List Char) : List Char :=
  let count := d.missing text.length
  if d.flags.minus then text ++ List.replicate count ' '
  else List.replicate count (if zeros then '0' else ' ') ++ text

/-- A signed text padded to the width; zeros, if told, go between the sign and the digits. -/
def padSigned (d : Directive) (zeros : Bool) (sign : List Char) (body : List Char) : List Char :=
  if zeros then sign ++ List.replicate (d.missing (sign.length + body.length)) '0' ++ body
  else d.padWith false (sign ++ body)

end Directive

end Template

end Reckoner
