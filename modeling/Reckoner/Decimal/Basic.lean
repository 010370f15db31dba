import Reckoner.Decimal.Digits
import Reckoner.Number.Basic

/-!
# Decimal numbers

A `Decimal` is a natural coefficient times a power of ten. Every dyadic is a decimal exactly
(`Decimal.ofDyadic`), so digits of a number are cut and rounded only in decimal, once, by
`nearestQuotient`. In the other direction `Format.ofDecimal` rounds a decimal to a binary format.

A `Numeral` is what is left for writing: the significant digits without zeros at either end, and the
place of the decimal point relative to the first of them.
-/

set_option autoImplicit false

namespace Reckoner

/-- The number `coeff * 10 ^ exp`. -/
structure Decimal where
  coeff : Nat
  exp : Int
  deriving DecidableEq, Repr

/-- Significant digits and the place of the point: the number `0.d₁d₂d₃… * 10 ^ point`. Zero has no
digits. -/
structure Numeral where
  /-- The digits, the first and the last of them not zero. -/
  digits : List Char
  /-- The number of digits in front of the point; it may be negative. -/
  point : Int
  deriving DecidableEq, Repr

namespace Decimal

/-- The number of decimal digits of a coefficient, zero having one. -/
def digitCount (n : Nat) : Nat :=
  (digits n).length

/-- A positive dyadic as a decimal, exactly: `2 ^ (-k)` is `5 ^ k * 10 ^ (-k)`. -/
def ofDyadic (d : Dyadic) : Decimal :=
  if 0 ≤ d.exp then ⟨d.mant * Nat.pow 2 d.exp.toNat, 0⟩
  else ⟨d.mant * Nat.pow 5 (-d.exp).toNat, d.exp⟩

/-- The size of a number as a decimal; infinities have none and are taken as zero. -/
def ofMagnitude : Magnitude → Decimal
  | .finite d => ofDyadic d
  | _ => ⟨0, 0⟩

/-- Drops `count` digits of the coefficient, rounding to the nearest, a half to even. -/
def dropDigits (x : Decimal) (count : Nat) : Decimal :=
  ⟨nearestQuotient x.coeff (Nat.pow 10 count), x.exp + count⟩

/-- The decimal rounded to at most `count` significant digits. -/
def roundDigits (x : Decimal) (count : Nat) : Decimal :=
  x.dropDigits (digitCount x.coeff - count)

/-- The decimal rounded to at most `places` digits after the point. -/
def roundPlaces (x : Decimal) (places : Nat) : Decimal :=
  x.dropDigits (-(x.exp + places)).toNat

/-- A list of digits without the zeros at its end. -/
def trimZeros (digits : List Char) : List Char :=
  (digits.reverse.dropWhile (· = '0')).reverse

/-- The digits to write. -/
def numeral (x : Decimal) : Numeral :=
  if x.coeff = 0 then ⟨[], 0⟩
  else
    let all := digits x.coeff
    ⟨trimZeros all, all.length + x.exp⟩

end Decimal

/-- A decimal brought to a binary format: the nearest size, a half going to the even mantissa. A
decimal far out of the format's range is infinite or zero without being computed: `10 ^ k` is above
`2 ^ (3 * k)` for a positive exponent and below it for a negative one. -/
def Format.ofDecimal (f : Format) (x : Decimal) : Magnitude :=
  if x.coeff = 0 then .zero
  else if f.sizeCeil < 3 * x.exp then .infinite
  else if 3 * (x.exp + Decimal.digitCount x.coeff) < f.sizeFloor - 1 then .zero
  else if 0 ≤ x.exp then f.roundSize (Magnitude.ofScaled (x.coeff * Nat.pow 10 x.exp.toNat) 0)
  else f.roundSize (Magnitude.ofRatio f.precision x.coeff (Nat.pow 10 (-x.exp).toNat) 0)

end Reckoner
