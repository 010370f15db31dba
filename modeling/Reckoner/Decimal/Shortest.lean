import Reckoner.Decimal.Basic

/-!
# The fewest digits that tell a number apart

`Decimal.shortest` gives, for a dyadic of a format, the decimal with the fewest digits that rounds
back to it, and the nearest such decimal. On each grid of decimals with a given number of digits
only the two neighbours of the value matter: if any point of the grid rounds back, one of them does.
The exact expansion rounds back trivially, so the search always ends.

`Decimal.bracketed` is the rule for wide numbers: the digits of the value are compared, place by
place, with the digits of the two midpoints towards the neighbouring values, each expansion counted
from its own first digit, and the value is cut at the first place where that leaves it inside.
-/

set_option autoImplicit false

namespace Reckoner

namespace Decimal

/-- Whether a decimal rounds to the given dyadic in the format. -/
def readsBack (f : Format) (d : Dyadic) (x : Decimal) : Bool :=
  decide (f.ofDecimal x = .finite d)

/-- The neighbours of a decimal when `count` of its digits are dropped, the nearer one first. -/
def neighbours (x : Decimal) (count : Nat) : List Decimal :=
  let below := x.coeff / Nat.pow 10 count
  let nearest := nearestQuotient x.coeff (Nat.pow 10 count)
  let other := if nearest = below then below + 1 else below
  [⟨nearest, x.exp + count⟩, ⟨other, x.exp + count⟩]

/-- The first decimal that rounds back, dropping fewer and fewer digits. -/
def shortestFrom (f : Format) (d : Dyadic) (exact : Decimal) : Nat → Decimal
  | 0 => exact
  | count + 1 =>
    match (exact.neighbours (count + 1)).find? (readsBack f d) with
    | some x => x
    | none => shortestFrom f d exact count

/-- The decimal of fewest digits that rounds back to the dyadic, the nearest of them. -/
def shortest (f : Format) (d : Dyadic) : Decimal :=
  let exact := ofDyadic d
  shortestFrom f d exact (digitCount exact.coeff - 1)

/-! ### Digits bracketed by two midpoints -/

/-- The digit at a place, a zero beyond the end. -/
def digitAt (digits : List Char) (i : Nat) : Char :=
  digits.getD i '0'

/-- What to do with a value's digits after a place. -/
inductive Cut where
  | nearest
  | down
  | up

/-- The first place, from the `i`-th on, where the value's digits can be cut, given the digits of
the lower and the upper midpoint and whether the midpoints themselves still round to the value. -/
def cutPlace (inclusive : Bool) (lower value upper : List Char) : Nat → Nat → Option (Nat × Cut)
  | 0, _ => none
  | fuel + 1, i =>
    let l := digitAt lower i
    let d := digitAt value i
    let u := digitAt upper i
    let down := l != d || (inclusive && i + 1 == lower.length)
    let up := d != u && (inclusive || d.toNat + 1 < u.toNat || i + 1 < upper.length ||
      (upper.length ≤ i && d.toNat < '9'.toNat))
    match down, up with
    | true, true => some (i, .nearest)
    | true, false => some (i, .down)
    | false, true => some (i, .up)
    | false, false => cutPlace inclusive lower value upper fuel (i + 1)

/-- Keeps the first `kept` digits of a decimal, treating the rest as told. -/
def cut (x : Decimal) (kept : Nat) (how : Cut) : Decimal :=
  let count := digitCount x.coeff - kept
  match how with
  | .nearest => x.dropDigits count
  | .down => ⟨x.coeff / Nat.pow 10 count, x.exp + count⟩
  | .up => ⟨x.coeff / Nat.pow 10 count + 1, x.exp + count⟩

/-- The digits of a dyadic of the given precision, cut at the first place where the midpoints
towards its neighbours allow it. -/
def bracketed (precision : Nat) (d : Dyadic) : Decimal :=
  let shift := precision + 1 - d.bits
  let mant := d.mant <<< shift
  let exp := d.exp - shift
  let expand (m : Nat) : Decimal := ofMagnitude (Magnitude.ofScaled m exp)
  let value := expand mant
  let digits := value.numeral.digits
  match cutPlace (mant % 4 = 0) (expand (mant - 1)).numeral.digits digits
      (expand (mant + 1)).numeral.digits digits.length 0 with
  | none => value
  | some (i, how) => if digits.length ≤ i + 1 then value else value.cut (i + 1) how

end Decimal

end Reckoner
