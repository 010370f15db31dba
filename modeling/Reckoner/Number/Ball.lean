import Reckoner.Number.Basic

/-!
# Balls around real numbers

A `Ball` at scale `w` stands for the real numbers within `rad / 2 ^ w` of `mid / 2 ^ w`. This module
computes balls around `ln 2`, `pi`, and the values of the logarithm, the exponential, the sine and
the cosine, in integer arithmetic only.

Every series here adds terms that are cut downwards. A term inherits at most one unit of error from
the cut that made its predecessor and one from its own, and at most one more from the division by
its index, so three units for each term, of which there are at most `w` and a few, bound the error
of a sum. The radii are written from that count.
-/

set_option autoImplicit false

namespace Reckoner

/-- The reals within `rad` units of `mid`, in units of `2 ^ (-w)` for a scale `w` given
elsewhere. -/
structure Ball where
  mid : Int
  rad : Nat
  deriving Repr

namespace Ball

/-- The ball around an integer multiple. -/
def scale (k : Int) (b : Ball) : Ball :=
  ⟨k * b.mid, k.natAbs * b.rad⟩

/-- The ball around a sum. -/
def add (a b : Ball) : Ball :=
  ⟨a.mid + b.mid, a.rad + b.rad⟩

/-- The ball around a difference. -/
def sub (a b : Ball) : Ball :=
  ⟨a.mid - b.mid, a.rad + b.rad⟩

/-- The ball around the product with `mant * 2 ^ exp`. -/
def mulDyadic (b : Ball) (mant : Int) (exp : Int) : Ball :=
  if 0 ≤ exp then
    ⟨(b.mid * mant) * (Nat.pow 2 exp.toNat : Nat), (b.rad * mant.natAbs) * Nat.pow 2 exp.toNat⟩
  else
    ⟨(b.mid * mant) / (Nat.pow 2 (-exp).toNat : Nat),
      (b.rad * mant.natAbs) / Nat.pow 2 (-exp).toNat + 2⟩

/-- The error of a series of at most `w + 2` terms at three units for each. -/
def seriesError (w : Nat) : Nat :=
  3 * (w + 2) + 4

/-! ### Constants -/

/-- The sum of `sign ^ i * power / ((2 * i + 1) * base ^ (2 * i))` from an index on. -/
def reciprocalSeries (sign : Int) (base : Nat) : Nat → Nat → Nat → Int
  | 0, _, _ => 0
  | fuel + 1, power, i =>
    if power = 0 then 0
    else
      (power / (2 * i + 1) : Nat) +
        sign * reciprocalSeries sign base fuel (power / (base * base)) (i + 1)

/-- The inverse hyperbolic tangent of `1 / base`. -/
def atanhReciprocal (w base : Nat) : Ball :=
  ⟨reciprocalSeries 1 base (w + 2) (Nat.pow 2 w / base) 0, seriesError w⟩

/-- The inverse tangent of `1 / base`. -/
def atanReciprocal (w base : Nat) : Ball :=
  ⟨reciprocalSeries (-1) base (w + 2) (Nat.pow 2 w / base) 0, seriesError w⟩

/-- The natural logarithm of two, as twice the inverse hyperbolic tangent of a third. -/
def ln2 (w : Nat) : Ball :=
  (atanhReciprocal w 3).scale 2

/-- The number pi, as `16 * atan (1/5) - 4 * atan (1/239)`. -/
def pi (w : Nat) : Ball :=
  ((atanReciprocal w 5).scale 16).sub ((atanReciprocal w 239).scale 4)

/-! ### The logarithm -/

/-- The sum of `power * (square / 2 ^ w) ^ i / (2 * i + 1)` from an index on. -/
def oddPowerSeries (w square : Nat) : Nat → Nat → Nat → Nat
  | 0, _, _ => 0
  | fuel + 1, power, i =>
    if power = 0 then 0
    else power / (2 * i + 1) + oddPowerSeries w square fuel ((power * square) >>> w) (i + 1)

/-- A positive dyadic as a power of two times a factor between the root of one half and the root of
two: the exponent of the factor's denominator. -/
def factorShift (d : Dyadic) : Nat :=
  if Nat.pow 2 (2 * d.bits - 1) < d.mant * d.mant then d.bits else d.bits - 1

/-- The number of leading bits that a logarithm near one loses. -/
def cancellation (d : Dyadic) : Nat :=
  let shift := factorShift d
  shift - bitLength ((d.mant : Int) - (Nat.pow 2 shift : Nat)).natAbs

/-- The natural logarithm of a positive dyadic: the logarithm of its power of two, and twice the
inverse hyperbolic tangent of `(factor - 1) / (factor + 1)`. -/
def log (w : Nat) (d : Dyadic) : Ball :=
  let shift := factorShift d
  let difference : Int := (d.mant : Int) - (Nat.pow 2 shift : Nat)
  let ratio := (difference.natAbs <<< w) / (d.mant + Nat.pow 2 shift)
  let square := (ratio * ratio) >>> w
  let sum : Int := 2 * (oddPowerSeries w square (w + 2) ratio 0 : Nat)
  let factor : Ball := ⟨if difference < 0 then -sum else sum, 2 * seriesError w⟩
  ((ln2 w).scale (d.exp + shift)).add factor

/-! ### The exponential -/

/-- The sum of `term * (arg / 2 ^ w) ^ j / (i * (i + 1) * ... )` from an index on. -/
def factorialSeries (w arg : Nat) : Nat → Nat → Nat → Nat
  | 0, _, _ => 0
  | fuel + 1, term, i =>
    if term = 0 then 0
    else term + factorialSeries w arg fuel (((term * arg) >>> w) / i) (i + 1)

/-- The exponential of a ball as a ball and a power of two: the argument is brought between zero and
`ln 2`, where the derivative stays below three. -/
def exp (w : Nat) (t : Ball) : Ball × Int :=
  let unit := ln2 w
  let count := t.mid / unit.mid
  let arg := t.mid - count * unit.mid
  let argError := t.rad + count.natAbs * unit.rad
  (⟨factorialSeries w arg.toNat (w + 2) (Nat.pow 2 w) 1, seriesError w + 3 * argError⟩, count)

/-! ### Sine and cosine -/

/-- The alternating sum of terms that each arise from the last by `square / ((i + 1) * (i + 2))`. -/
def alternatingSeries (w square : Nat) : Nat → Nat → Nat → Int
  | 0, _, _ => 0
  | fuel + 1, term, i =>
    if term = 0 then 0
    else
      (term : Int) -
        alternatingSeries w square fuel (((term * square) >>> w) / ((i + 1) * (i + 2))) (i + 2)

/-- The sine and the cosine of a ball near zero. -/
def sinCosSmall (w : Nat) (r : Ball) : Ball × Ball :=
  let size := r.mid.natAbs
  let square := (size * size) >>> w
  let sin := alternatingSeries w square (w + 2) size 1
  let cos := alternatingSeries w square (w + 2) (Nat.pow 2 w) 0
  (⟨if r.mid < 0 then -sin else sin, seriesError w + r.rad⟩, ⟨cos, seriesError w + r.rad⟩)

/-- The sine and the cosine of a positive dyadic: the argument less the nearest multiple of a right
angle, and the quadrant that the multiple names. -/
def sinCos (w : Nat) (d : Dyadic) : Ball × Ball :=
  let turn := pi w
  let arg : Int := if 0 ≤ d.exp + w then (d.mant * Nat.pow 2 (d.exp + w).toNat : Nat)
    else (d.mant / Nat.pow 2 (-(d.exp + w)).toNat : Nat)
  let right := turn.mid / 2
  let count := (2 * arg + right) / (2 * right)
  let (sin, cos) := sinCosSmall w ⟨arg - count * right, 2 + count.natAbs * (turn.rad + 1)⟩
  if count % 4 = 0 then (sin, cos)
  else if count % 4 = 1 then (cos, sin.scale (-1))
  else if count % 4 = 2 then (sin.scale (-1), cos.scale (-1))
  else (cos.scale (-1), sin)

end Ball

end Reckoner
