import Reckoner.Decimal.Layout
import Reckoner.Number.Storage

/-!
# Texts of a number by verb

A template shows a number by a verb: `e` and `E` in scientific notation, `f` and `F` positionally,
`g`, `G` and `v` in the notation that its exponent asks for, `x`, `X` and `b` with a binary
exponent. A verb may come with a precision; without one the shortest digits or six places are
shown.

The texts here are those of finite sizes, without a sign.
-/

set_option autoImplicit false

namespace Reckoner

/-- A number that a template shows. -/
inductive Shown where
  | plain (x : Binary64)
  /-- A wide number of the given precision, how it is stored, and at which address. -/
  | wide (precision : Nat) (x : Number) (stored : Thunk Stored) (address : Nat)

/-- The digits of a finite size: all of them, and the shortest ones that tell it apart. -/
structure Figure where
  size : Magnitude
  exact : Decimal
  shortest : Numeral

namespace Figure

/-- The digits of a size of 64 bits. -/
def ofPlain (size : Magnitude) : Figure :=
  ⟨size, Decimal.ofMagnitude size, Binary64.numeralOf size⟩

/-- The digits of a wide size. -/
def ofWide (precision : Nat) (size : Magnitude) : Figure :=
  ⟨size, Decimal.ofMagnitude size, Number.wideNumeral precision size⟩

/-! ### Decimal notations -/

/-- Scientific notation with the given number of places, or with the shortest digits. -/
def scientific (fig : Figure) (mark : Char) : Option Nat → List Char
  | none => fig.shortest.scientific mark (fig.shortest.digits.length - 1)
  | some places => (fig.exact.roundDigits (places + 1)).numeral.scientific mark places

/-- Positional notation with the given number of places, or with the shortest digits. -/
def positional (fig : Figure) : Option Nat → List Char
  | none => fig.shortest.positional fig.shortest.placesNeeded
  | some places => (fig.exact.roundPlaces places).numeral.positional places

/-- The notation that the exponent asks for, with at most the given number of digits, of which there
is at least one, or with the shortest digits. -/
def general (fig : Figure) (mark : Char) : Option Nat → List Char
  | none => fig.shortest.general mark shortestThreshold
  | some count =>
    let count := max count 1
    (fig.exact.roundDigits count).numeral.general mark count

/-! ### Binary exponents -/

/-- The mantissa behind the leading one in hexadecimal digits, and the binary exponent. -/
def hexParts (d : Dyadic) (places : Option Nat) : List Char × Int :=
  let below := d.bits - 1
  let places := places.getD ((below + 3) / 4)
  let mant :=
    if 4 * places < below then nearestQuotient d.mant (Nat.pow 2 (below - 4 * places))
    else d.mant <<< (4 * places - below)
  let exponent := d.top - 1
  let leading := Nat.pow 2 (4 * places)
  let (fraction, exponent) :=
    if mant < 2 * leading then (mant - leading, exponent) else (0, exponent + 1)
  let digits := if places = 0 then [] else Nat.toDigits 16 fraction
  (List.replicate (places - digits.length) '0' ++ digits, exponent)

/-- A hexadecimal mantissa from one on, with a binary exponent. -/
def hexadecimal (fig : Figure) (places : Option Nat) : List Char :=
  match fig.size with
  | .finite d =>
    let (fraction, exponent) := hexParts d places
    ['0', 'x'] ++ Numeral.pointed ['1'] fraction ++ 'p' :: Numeral.signedExponent exponent
  | _ =>
    ['0', 'x'] ++ Numeral.pointed ['0'] (List.replicate (places.getD 0) '0') ++
      'p' :: Numeral.signedExponent 0

/-- A binary exponent with its sign and no more digits than it needs. -/
def plainExponent (e : Int) : List Char :=
  (if e < 0 then '-' else '+') :: Nat.toDigits 10 e.natAbs

/-- An integer mantissa of 64 bits with a binary exponent. -/
def plainBinary (fig : Figure) : List Char :=
  match fig.size with
  | .finite d =>
    let unit := max (d.top - 53) (-1074)
    Nat.toDigits 10 (d.mantAt unit) ++ 'p' :: plainExponent unit
  | _ => ['0'] ++ 'p' :: plainExponent (-1074)

/-- An integer mantissa of the given precision with a binary exponent. -/
def wideBinary (fig : Figure) (precision : Nat) : List Char :=
  match fig.size with
  | .finite d =>
    let unit := d.top - precision
    Nat.toDigits 10 (d.mantAt unit) ++ 'p' :: plainExponent unit
  | _ => ['0']

/-! ### Verbs -/

/-- The text of a size of 64 bits by a verb, or none if the verb is not one of numbers. -/
def plainVerb? (fig : Figure) (verb : Char) (precision : Option Nat) : Option (List Char) :=
  match verb with
  | 'e' => some (fig.scientific 'e' (some (precision.getD 6)))
  | 'E' => some (fig.scientific 'E' (some (precision.getD 6)))
  | 'f' | 'F' => some (fig.positional (some (precision.getD 6)))
  | 'g' | 'v' => some (fig.general 'e' precision)
  | 'G' => some (fig.general 'E' precision)
  | 'x' => some (fig.hexadecimal precision)
  | 'X' => some ((fig.hexadecimal precision).map Char.toUpper)
  | 'b' => some fig.plainBinary
  | _ => none

/-- The text of a wide size by a verb, or none if the verb is not one of numbers. -/
def wideVerb? (fig : Figure) (width : Nat) (verb : Char) (precision : Option Nat) :
    Option (List Char) :=
  match verb with
  | 'e' => some (fig.scientific 'e' (some (precision.getD 6)))
  | 'E' => some (fig.scientific 'E' (some (precision.getD 6)))
  | 'f' | 'F' => some (fig.positional (some (precision.getD 6)))
  | 'g' | 'v' => some (fig.general 'e' precision)
  | 'G' => some (fig.general 'E' precision)
  | 'x' => some (fig.hexadecimal (some (precision.getD 6)))
  | 'b' => some (fig.wideBinary width)
  | _ => none

end Figure

end Reckoner
