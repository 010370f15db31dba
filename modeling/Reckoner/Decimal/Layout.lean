import Reckoner.Decimal.Shortest
import Reckoner.Number.Binary64

/-!
# How numbers are written

Three layouts of a numeral: positional with a fixed number of places (`Numeral.positional`),
scientific with a marked exponent (`Numeral.scientific`), and the choice between the two by the size
of the exponent (`Numeral.general`).

From them come the texts of the calculator's numbers: the canonical text of a 64-bit number
(`Binary64.text`), the text of a wide number (`Number.text`), and the texts with a given number of
significant digits. Mantissas in base sixteen are written by `Number.hexText`.
-/

set_option autoImplicit false

namespace Reckoner

namespace Numeral

/-- The digit at a place counted from the first digit, a zero outside. -/
def digitAt (n : Numeral) (i : Int) : Char :=
  if i < 0 then '0' else n.digits.getD i.toNat '0'

/-- The digits in front of the point; at least a zero. -/
def integerPart (n : Numeral) : List Char :=
  if n.point ≤ 0 then ['0'] else (List.range n.point.toNat).map fun (i : Nat) ↦ n.digitAt i

/-- The given number of digits after the point. -/
def fractionPart (n : Numeral) (places : Nat) : List Char :=
  (List.range places).map fun (i : Nat) ↦ n.digitAt (n.point + i)

/-- Digits after a point, and no point without digits. -/
def pointed (whole fraction : List Char) : List Char :=
  if fraction.isEmpty then whole else whole ++ '.' :: fraction

/-- Positional notation with the given number of places. -/
def positional (n : Numeral) (places : Nat) : List Char :=
  pointed n.integerPart (n.fractionPart places)

/-- The exponent of the first digit; zero for zero. -/
def exponent (n : Numeral) : Int :=
  if n.digits.isEmpty then 0 else n.point - 1

/-- An exponent with its sign and at least two digits. -/
def signedExponent (e : Int) : List Char :=
  let digits := Nat.toDigits 10 e.natAbs
  (if e < 0 then '-' else '+') :: (if digits.length < 2 then '0' :: digits else digits)

/-- Scientific notation with the given number of places after the first digit. -/
def scientific (n : Numeral) (mark : Char) (places : Nat) : List Char :=
  pointed [n.digitAt 0] ((List.range places).map fun (i : Nat) ↦ n.digitAt (i + 1)) ++
    mark :: signedExponent n.exponent

/-- The places that positional notation needs to show every digit. -/
def placesNeeded (n : Numeral) : Nat :=
  ((n.digits.length : Int) - n.point).toNat

/-- Scientific notation for an exponent below `-4` or from the threshold on, positional notation for
the others, in either case with every digit and no more. -/
def general (n : Numeral) (mark : Char) (threshold : Int) : List Char :=
  if n.exponent < -4 ∨ threshold ≤ n.exponent then n.scientific mark (n.digits.length - 1)
  else n.positional n.placesNeeded

end Numeral

/-- A minus sign in front of a negative number. -/
def withSign (negative : Bool) (text : List Char) : List Char :=
  if negative then '-' :: text else text

/-- The threshold of the exponent from which shortest digits are written in scientific notation. -/
def shortestThreshold : Int := 6

/-! ### Numbers of 64 bits -/

namespace Binary64

/-- The least size that is written positionally. -/
def leastPositional : Binary64 :=
  ofNumber ⟨false, Format.binary64.ofDecimal ⟨1, -3⟩⟩

/-- The first size that is written in scientific notation again. -/
def positionalLimit : Binary64 :=
  ofNumber ⟨false, Format.binary64.ofDecimal ⟨1, 7⟩⟩

/-- The shortest digits of a size. -/
def numeralOf : Magnitude → Numeral
  | .finite d => (Decimal.shortest Format.binary64 d).numeral
  | _ => ⟨[], 0⟩

/-- A fractional part of at least one digit. -/
def atLeastOnePlace (places : Nat) : Nat :=
  if places = 0 then 1 else places

/-- The canonical digits of a finite size: always a fractional part, and scientific notation with a
capital mark and a plain exponent for sizes outside the positional range. -/
def sizeText (x : Binary64) (size : Magnitude) : List Char :=
  let n := numeralOf size
  if size = .zero ∨ (le leastPositional x.abs ∧ lt x.abs positionalLimit) then
    n.positional (atLeastOnePlace n.placesNeeded)
  else
    Numeral.pointed [n.digitAt 0]
      ((List.range (atLeastOnePlace (n.digits.length - 1))).map
        fun (i : Nat) ↦ n.digitAt (i + 1)) ++
      'E' :: (if n.exponent < 0 then '-' :: Nat.toDigits 10 n.exponent.natAbs
        else Nat.toDigits 10 n.exponent.natAbs)

/-- The canonical text of a number: the shortest digits that read back, always with a fractional
part. -/
def text : Binary64 → String
  | .nan => "NaN"
  | .number ⟨negative, .infinite⟩ _ => if negative then "-Infinity" else "Infinity"
  | .number ⟨negative, size⟩ fits =>
    String.ofList (withSign negative (sizeText (.number ⟨negative, size⟩ fits) size))

end Binary64

/-! ### Texts with a given number of digits -/

/-- The text of an infinity. -/
def infinityText (negative : Bool) : String :=
  if negative then "-Inf" else "+Inf"

/-- A number in scientific notation with `count` significant digits, rounded from its exact
value. -/
def Number.digitsText (x : Number) (count : Nat) : String :=
  match x.size with
  | .infinite => infinityText x.negative
  | size =>
    String.ofList <| withSign x.negative <|
      ((Decimal.ofMagnitude size).roundDigits count).numeral.scientific 'e' (count - 1)

/-- The text of a number of 64 bits, with the given number of significant digits if that is not
zero. -/
def Binary64.textWith (count : Nat) (x : Binary64) : String :=
  match x with
  | .number ⟨_, .infinite⟩ _ => x.text
  | .number n _ => if count = 0 then x.text else n.digitsText count
  | .nan => x.text

/-! ### Wide numbers -/

namespace Number

/-- The digits to write for a size of the given precision. -/
def wideNumeral (precision : Nat) : Magnitude → Numeral
  | .finite d => (Decimal.bracketed precision d).numeral
  | _ => ⟨[], 0⟩

/-- The text of a number of the given precision: its bracketed digits, in scientific notation from a
million on. -/
def text (precision : Nat) (x : Number) : String :=
  match x.size with
  | .infinite => infinityText x.negative
  | size =>
    String.ofList
      (withSign x.negative ((wideNumeral precision size).general 'e' shortestThreshold))

/-- The digits of a natural number in base sixteen. -/
def hexDigits (n : Nat) : List Char :=
  Nat.toDigits 16 n

/-- The mantissa in base sixteen as a fraction of one, and the exponent of two. -/
def hexText (x : Number) : String :=
  match x.size with
  | .infinite => infinityText x.negative
  | .zero => String.ofList (withSign x.negative ['0'])
  | .finite d =>
    let digits := hexDigits (d.mant <<< ((4 - d.bits % 4) % 4))
    let exponent := Nat.toDigits 10 d.top.natAbs
    String.ofList <| withSign x.negative <|
      ['0', 'x', '.'] ++ digits ++ 'p' :: (if d.top < 0 then '-' else '+') :: exponent

end Number

end Reckoner
