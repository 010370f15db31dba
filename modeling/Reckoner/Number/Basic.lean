import Reckoner.Number.Dyadic

/-!
# Signed numbers with infinities

A `Number` is a sign and a size, the size being zero, a positive dyadic or infinite. Zeros and
infinities keep their sign. There is no value for "not a number": an operation that has no result
answers `none`.

Sums and products of numbers are exact here; `Format.round` brings a number to a format of limited
width. A format is a precision in bits together with the range of its exponents. The two that the
calculator uses are `Format.binary64` and the family `Format.wide`.

Main statement: the result of a rounding fits its format (`Format.fits_round`).
-/

set_option autoImplicit false

namespace Reckoner

/-- The size of a number without its sign. -/
inductive Magnitude where
  | zero
  | finite (d : Dyadic)
  | infinite
  deriving DecidableEq, Repr

/-- A sign and a size. -/
structure Number where
  /-- Whether the sign is minus; zeros have a sign too. -/
  negative : Bool
  size : Magnitude
  deriving DecidableEq, Repr

namespace Magnitude

/-- The size `mant * 2 ^ exp`, zero included. -/
def ofScaled (mant : Nat) (exp : Int) : Magnitude :=
  if h : mant = 0 then .zero else .finite (Dyadic.ofScaled mant exp h)

/-- The quotient `num / den * 2 ^ exp`, cut as by `Dyadic.ofRatio`; a zero divisor gives the
infinite size. -/
def ofRatio (width num den : Nat) (exp : Int) : Magnitude :=
  if hnum : num = 0 then .zero
  else if hden : den = 0 then .infinite
  else .finite (Dyadic.ofRatio width num den exp ⟨hnum, hden⟩)

end Magnitude

namespace Number

/-- Positive zero. -/
def zero : Number :=
  ⟨false, .zero⟩

/-- One. -/
def one : Number :=
  ⟨false, .finite (Dyadic.twoPow 0)⟩

/-- Positive infinity. -/
def infinity : Number :=
  ⟨false, .infinite⟩

/-- The number of an integer. -/
def ofInt (n : Int) : Number :=
  ⟨decide (n < 0), Magnitude.ofScaled n.natAbs 0⟩

/-- The number with the other sign. -/
def neg (x : Number) : Number :=
  { x with negative := !x.negative }

/-- The number without its sign. -/
def abs (x : Number) : Number :=
  { x with negative := false }

/-- Whether the number is a zero of either sign. -/
def isZero (x : Number) : Bool :=
  match x.size with
  | .zero => true
  | _ => false

/-- Whether the number is an infinity of either sign. -/
def isInfinite (x : Number) : Bool :=
  match x.size with
  | .infinite => true
  | _ => false

/-- Whether the number is below zero; a negative zero is not. -/
def isNegative (x : Number) : Bool :=
  x.negative && !x.isZero

/-- Whether the number is above zero. -/
def isPositive (x : Number) : Bool :=
  !x.negative && !x.isZero

/-- Whether the number is a finite integer. -/
def isInteger (x : Number) : Bool :=
  match x.size with
  | .zero => true
  | .finite d => decide (0 ≤ d.exp)
  | .infinite => false

/-- Whether the number is an odd integer. -/
def isOdd (x : Number) : Bool :=
  match x.size with
  | .finite d => decide (d.exp = 0)
  | _ => false

/-- The mantissa of a dyadic at a common exponent, with a sign. -/
def signedMant (negative : Bool) (d : Dyadic) (exp : Int) : Int :=
  if negative then -(d.mantAt exp : Int) else (d.mantAt exp : Int)

/-- The exact sum of two finite non-zero numbers; exact cancellation gives positive zero. -/
def addFinite (xneg : Bool) (x : Dyadic) (yneg : Bool) (y : Dyadic) : Number :=
  let exp := min x.exp y.exp
  let sum := signedMant xneg x exp + signedMant yneg y exp
  ⟨decide (sum < 0), Magnitude.ofScaled sum.natAbs exp⟩

/-- The exact sum. Two zeros are negative only together; opposite infinities have no sum. -/
def add (x y : Number) : Option Number :=
  match x.size, y.size with
  | .infinite, .infinite => if x.negative = y.negative then some x else none
  | .infinite, _ => some x
  | _, .infinite => some y
  | .zero, .zero => some ⟨x.negative && y.negative, .zero⟩
  | .zero, .finite _ => some y
  | .finite _, .zero => some x
  | .finite a, .finite b => some (addFinite x.negative a y.negative b)

/-- The exact difference. -/
def sub (x y : Number) : Option Number :=
  x.add y.neg

/-- The exact product; a zero and an infinity have none. -/
def mul (x y : Number) : Option Number :=
  let negative := x.negative != y.negative
  match x.size, y.size with
  | .zero, .infinite => none
  | .infinite, .zero => none
  | .zero, _ => some ⟨negative, .zero⟩
  | _, .zero => some ⟨negative, .zero⟩
  | .infinite, _ => some ⟨negative, .infinite⟩
  | _, .infinite => some ⟨negative, .infinite⟩
  | .finite a, .finite b => some ⟨negative, .finite (a.mul b)⟩

/-- The quotient, cut for a later rounding to at most `width` bits. Two zeros and two infinities
have none; any other number divided by zero is infinite. -/
def div (width : Nat) (x y : Number) : Option Number :=
  let negative := x.negative != y.negative
  match x.size, y.size with
  | .zero, .zero => none
  | .infinite, .infinite => none
  | .zero, _ => some ⟨negative, .zero⟩
  | _, .infinite => some ⟨negative, .zero⟩
  | .infinite, _ => some ⟨negative, .infinite⟩
  | _, .zero => some ⟨negative, .infinite⟩
  | .finite a, .finite b => some ⟨negative, .finite (Dyadic.div width a b)⟩

/-- The square root, cut for a later rounding to at most `width` bits. A zero is its own root, and a
number below zero has none. -/
def sqrt (width : Nat) (x : Number) : Option Number :=
  match x.size with
  | .zero => some x
  | .infinite => if x.negative then none else some x
  | .finite d => if x.negative then none else some ⟨false, .finite (d.sqrt width)⟩

/-- Exact order of two numbers; zeros of both signs are equal. -/
def lt (x y : Number) : Bool :=
  match x.size, y.size with
  | .zero, _ => y.isPositive
  | _, .zero => x.isNegative
  | .infinite, .infinite => x.negative && !y.negative
  | .infinite, .finite _ => x.negative
  | .finite _, .infinite => !y.negative
  | .finite a, .finite b =>
    match x.negative, y.negative with
    | false, false => a.lt b
    | true, true => b.lt a
    | true, false => true
    | false, true => false

end Number

/-! ### Formats of limited width -/

/-- A width in bits and a range of exponents. -/
structure Format where
  precision : Nat
  /-- No number has bits below `2 ^ unitFloor`. -/
  unitFloor : Int
  /-- A positive number below `2 ^ (sizeFloor - 1)` becomes zero. -/
  sizeFloor : Int
  /-- A number that reaches `2 ^ sizeCeil` becomes infinite. -/
  sizeCeil : Int
  precision_pos : 0 < precision

namespace Format

/-- The format of 64 bits: 53 bits of mantissa, gradual underflow. -/
def binary64 : Format where
  precision := 53
  unitFloor := -1074
  sizeFloor := -1074
  sizeCeil := 1024
  precision_pos := by decide

/-- The precision used when none is asked for. -/
def defaultWidth : Nat := 64

/-- The greatest precision: the greatest number of 32 bits. -/
def greatestWidth : Nat := 0xffffffff

/-- The precision a request for a number of bits leads to: none asked for means the default, and
there is a greatest one. -/
def widthOf (bits : Nat) : Nat :=
  if bits = 0 then defaultWidth else min bits greatestWidth

/-- There is always at least one bit. -/
theorem widthOf_pos (bits : Nat) : 0 < widthOf bits := by
  unfold widthOf defaultWidth greatestWidth
  split <;> omega

/-- The format with the given number of bits and exponents of 32 bits. -/
def wide (bits : Nat) : Format where
  precision := widthOf bits
  unitFloor := -(Nat.pow 2 31 : Nat) - widthOf bits
  sizeFloor := -(Nat.pow 2 31 : Nat)
  sizeCeil := (Nat.pow 2 31 - 1 : Nat)
  precision_pos := widthOf_pos bits

/-- The number of low bits that a dyadic loses in the format. -/
def excess (f : Format) (d : Dyadic) : Nat :=
  max (d.bits - f.precision) (f.unitFloor - d.exp).toNat

/-- An infinite size for a size that has grown past the range. -/
def bound (f : Format) : Magnitude → Magnitude
  | .finite d => if f.sizeCeil < d.top then .infinite else .finite d
  | size => size

/-- A size brought to the format: the nearest one, a half going to the even mantissa. -/
def roundSize (f : Format) : Magnitude → Magnitude
  | .finite d =>
    if d.top < f.sizeFloor then .zero
    else
      f.bound (Magnitude.ofScaled (nearestQuotient d.mant (Nat.pow 2 (f.excess d)))
        (d.exp + f.excess d))
  | size => size

/-- A number brought to the format. -/
def round (f : Format) (x : Number) : Number :=
  { x with size := f.roundSize x.size }

/-- The sizes that the format holds. -/
def Fits (f : Format) : Magnitude → Prop
  | .finite d => d.mant < Nat.pow 2 f.precision ∧ f.unitFloor ≤ d.exp ∧ d.top ≤ f.sizeCeil
  | _ => True

instance (f : Format) (size : Magnitude) : Decidable (f.Fits size) := by
  cases size <;> unfold Fits <;> infer_instance

/-- Rounding leaves at most `2 ^ precision` units. -/
theorem nearestQuotient_excess_le (f : Format) (d : Dyadic) :
    nearestQuotient d.mant (Nat.pow 2 (f.excess d)) ≤ Nat.pow 2 f.precision := by
  have hstep := nearestQuotient_le d.mant (Nat.pow 2 (f.excess d))
  have hmant : d.mant < Nat.pow 2 f.precision * Nat.pow 2 (f.excess d) := by
    simp only [Nat.pow_eq]
    rw [← Nat.pow_add]
    refine Nat.lt_of_lt_of_le (lt_two_pow_bitLength d.mant) (Nat.pow_le_pow_right (by omega) ?_)
    have hexcess : d.bits - f.precision ≤ f.excess d := Nat.le_max_left _ _
    unfold Dyadic.bits at hexcess
    omega
  have hquotient : d.mant / Nat.pow 2 (f.excess d) < Nat.pow 2 f.precision :=
    Nat.div_lt_of_lt_mul (by rw [Nat.mul_comm]; exact hmant)
  omega

/-- A size of at most `2 ^ precision` units above the floor fits once the range is bounded. -/
theorem fits_bound_ofScaled (f : Format) (mant : Nat) (exp : Int)
    (hmant : mant ≤ Nat.pow 2 f.precision) (hexp : f.unitFloor ≤ exp) :
    f.Fits (f.bound (Magnitude.ofScaled mant exp)) := by
  unfold Magnitude.ofScaled
  split
  · simp [bound, Fits]
  · rename_i hpos
    unfold bound
    dsimp only
    split
    · trivial
    · rename_i htop
      refine ⟨?_, ?_, by omega⟩
      · have hle := Dyadic.mant_ofScaled_le mant exp hpos
        have hodd := (Dyadic.ofScaled mant exp hpos).odd
        have heven : Nat.pow 2 f.precision % 2 = 0 := by
          have hprecision := f.precision_pos
          obtain ⟨k, hk⟩ : ∃ k, f.precision = k + 1 := ⟨f.precision - 1, by omega⟩
          simp only [Nat.pow_eq]
          rw [hk, Nat.pow_succ]
          omega
        omega
      · have := Dyadic.le_exp_ofScaled mant exp hpos
        omega

/-- The result of a rounding fits its format. -/
theorem fits_round (f : Format) (x : Number) : f.Fits (f.round x).size := by
  unfold round
  dsimp only
  cases x.size with
  | zero => trivial
  | infinite => trivial
  | finite d =>
    unfold roundSize
    dsimp only
    split
    · trivial
    · apply fits_bound_ofScaled
      · exact nearestQuotient_excess_le f d
      · have hexcess : (f.unitFloor - d.exp).toNat ≤ f.excess d := Nat.le_max_right _ _
        omega

/-! ### Rounded arithmetic -/

/-- The rounded sum. -/
def add (f : Format) (x y : Number) : Option Number :=
  (x.add y).map f.round

/-- The rounded difference. -/
def sub (f : Format) (x y : Number) : Option Number :=
  (x.sub y).map f.round

/-- The rounded product. -/
def mul (f : Format) (x y : Number) : Option Number :=
  (x.mul y).map f.round

/-- The rounded quotient. -/
def div (f : Format) (x y : Number) : Option Number :=
  (x.div f.precision y).map f.round

/-- The rounded square root. -/
def sqrt (f : Format) (x : Number) : Option Number :=
  (x.sqrt f.precision).map f.round

end Format

end Reckoner
