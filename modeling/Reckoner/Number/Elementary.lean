import Reckoner.Number.Ball

/-!
# Elementary functions, correctly rounded

Each function here is computed as a pair of dyadic bounds, at more and more bits until both bounds
round to the same number of the format: that number is then the rounding of the exact value. The
values of these functions at dyadic arguments are no dyadics, apart from the cases that are
recognised and computed exactly first (the logarithm of one, powers that are dyadic), so the search
for agreeing bounds ends.
-/

set_option autoImplicit false

namespace Reckoner

/-- A signed real between two positive dyadics. -/
structure Bounds where
  negative : Bool
  lo : Dyadic
  hi : Dyadic
  deriving Repr

namespace Bounds

/-- The bounds of a ball times `2 ^ exp`, if the ball does not touch zero. -/
def ofBall? (b : Ball) (exp : Int) : Option Bounds :=
  if h : b.rad < b.mid.natAbs then
    some ⟨decide (b.mid < 0), Dyadic.ofScaled (b.mid.natAbs - b.rad) exp (by omega),
      Dyadic.ofScaled (b.mid.natAbs + b.rad) exp (by omega)⟩
  else none

/-- The bounds of a quotient of two balls of one scale, if neither touches zero. -/
def ofBallRatio? (width : Nat) (a b : Ball) : Option Bounds :=
  if h : a.rad < a.mid.natAbs ∧ b.rad < b.mid.natAbs then
    some ⟨decide (a.mid < 0) != decide (b.mid < 0),
      Dyadic.ofRatio width (a.mid.natAbs - a.rad) (b.mid.natAbs + b.rad) 0
        ⟨by omega, by omega⟩,
      Dyadic.ofRatio width (a.mid.natAbs + a.rad) (b.mid.natAbs - b.rad) 0
        ⟨by omega, by omega⟩⟩
  else none

end Bounds

namespace Format

/-- The bits beyond the precision that a first attempt works with. -/
def guardBits : Nat := 48

/-- How often the working precision may be doubled. -/
def attempts : Nat := 10

/-- The number both bounds round to, at the first working precision where they agree. -/
def settleFrom (f : Format) (bounds? : Nat → Option Bounds) : Nat → Nat → Number
  | 0, w =>
    match bounds? w with
    | some b => ⟨b.negative, f.roundSize (.finite b.lo)⟩
    | none => Number.zero
  | fuel + 1, w =>
    match bounds? w with
    | some b =>
      if f.roundSize (.finite b.lo) = f.roundSize (.finite b.hi) then
        ⟨b.negative, f.roundSize (.finite b.lo)⟩
      else f.settleFrom bounds? fuel (2 * w)
    | none => f.settleFrom bounds? fuel (2 * w)

/-- The rounded value of a real known by its bounds; `extra` bits are lost to cancellation. -/
def settle (f : Format) (extra : Nat) (bounds? : Nat → Option Bounds) : Number :=
  f.settleFrom bounds? attempts (f.precision + guardBits + extra)

/-- The number pi. -/
def pi (f : Format) : Number :=
  f.settle 0 fun w ↦ Bounds.ofBall? (Ball.pi w) (-w)

/-- The natural logarithm of a positive dyadic. -/
def logDyadic (f : Format) (d : Dyadic) : Number :=
  if d = Dyadic.twoPow 0 then Number.zero
  else f.settle (Ball.cancellation d) fun w ↦ Bounds.ofBall? (Ball.log w d) (-w)

/-- The logarithm of a positive dyadic to base two, which is an integer for a power of two. -/
def log2Dyadic (f : Format) (d : Dyadic) : Number :=
  if d.mant = 1 then f.round (Number.ofInt d.exp)
  else
    f.settle (Ball.cancellation d) fun w ↦
      Bounds.ofBallRatio? f.precision (Ball.log w d) (Ball.ln2 w)

/-- The exponential of a dyadic with a sign. -/
def expDyadic (f : Format) (negative : Bool) (d : Dyadic) : Number :=
  f.settle (-d.top).toNat fun w ↦
    let mant : Int := if negative then -(d.mant : Int) else d.mant
    let (b, exp) := Ball.exp w (Ball.mulDyadic ⟨(Nat.pow 2 w : Nat), 0⟩ mant d.exp)
    Bounds.ofBall? b (exp - w)

/-- The sine of a positive dyadic. -/
def sinDyadic (f : Format) (d : Dyadic) : Number :=
  f.settle d.top.natAbs fun w ↦ Bounds.ofBall? (Ball.sinCos w d).1 (-w)

/-- The cosine of a positive dyadic. -/
def cosDyadic (f : Format) (d : Dyadic) : Number :=
  f.settle d.top.natAbs fun w ↦ Bounds.ofBall? (Ball.sinCos w d).2 (-w)

/-- The tangent of a positive dyadic. -/
def tanDyadic (f : Format) (d : Dyadic) : Number :=
  f.settle d.top.natAbs fun w ↦
    Bounds.ofBallRatio? f.precision (Ball.sinCos w d).1 (Ball.sinCos w d).2

end Format

/-! ### Powers -/

namespace Dyadic

/-- The square root of a dyadic, if it is a dyadic. -/
def sqrt? (d : Dyadic) : Option Dyadic :=
  let root := natSqrt d.mant
  if h : root * root = d.mant ∧ d.exp % 2 = 0 then
    some ⟨root, d.exp / 2, by
      have hodd := d.odd
      rw [← h.1, Nat.mul_mod] at hodd
      have hcases := Nat.mod_two_eq_zero_or_one (natSqrt d.mant)
      rcases hcases with heven | hroot
      · rw [heven] at hodd
        simp at hodd
      · exact hroot⟩
  else none

/-- An integer power, which is exact. -/
def pow (d : Dyadic) (n : Nat) : Dyadic where
  mant := Nat.pow d.mant n
  exp := d.exp * n
  odd := by
    rw [Nat.pow_eq, Nat.pow_mod, d.odd]
    simp

/-- Takes the root of the base and doubles the exponent as often as told; `none` if a root is no
dyadic. -/
def rootTimes? : Nat → Dyadic → Option Dyadic
  | 0, d => some d
  | count + 1, d => d.sqrt?.bind (rootTimes? count)

/-- A power of a dyadic that is a dyadic of few enough bits to matter in a rounding to `width` bits:
a power of two whose exponent stays an integer, or a positive integer power of the base or of a root
of it. -/
def powExact? (width : Nat) (d : Dyadic) (negative : Bool) (y : Dyadic) : Option Dyadic :=
  let signed : Int := if negative then -(y.mant : Int) else y.mant
  if d.mant = 1 then
    if 0 ≤ y.exp then some (twoPow (d.exp * signed * (Nat.pow 2 y.exp.toNat : Nat)))
    else if d.exp % (Nat.pow 2 (-y.exp).toNat : Nat) = 0 then
      some (twoPow (d.exp / (Nat.pow 2 (-y.exp).toNat : Nat) * signed))
    else none
  else if negative then none
  else
    match rootTimes? (-y.exp).toNat d with
    | none => none
    | some base =>
      if width < y.exp.toNat then none
      else
        let n := y.mant * Nat.pow 2 y.exp.toNat
        if n * (base.bits - 1) ≤ width + 2 then some (base.pow n) else none

end Dyadic

namespace Ball

/-- The power of a positive dyadic with exponent `mant * 2 ^ exp`, as a ball and a power of two: the
exponential of the multiplied logarithm. -/
def pow (w : Nat) (d : Dyadic) (mant : Int) (exp : Int) : Ball × Int :=
  Ball.exp w ((Ball.log w d).mulDyadic mant exp)

end Ball

namespace Format

/-- The power of a positive dyadic with a finite non-zero exponent. -/
def powDyadic (f : Format) (d : Dyadic) (negative : Bool) (y : Dyadic) : Number :=
  match d.powExact? f.precision negative y with
  | some power => ⟨false, f.roundSize (.finite power)⟩
  | none =>
    let mant : Int := if negative then -(y.mant : Int) else y.mant
    f.settle y.top.toNat fun w ↦
      let (b, exp) := Ball.pow w d mant y.exp
      Bounds.ofBall? b (exp - w)

end Format

end Reckoner
