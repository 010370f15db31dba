import Reckoner.Number.Elementary

/-!
# Numbers of 64 bits

A `Binary64` is either not a number or a signed number that fits `Format.binary64`. Every operation
computes on plain numbers and rounds once at the end (`Binary64.ofNumber`), and an operation without
a result gives `Binary64.nan`.

Powers follow the usual conventions at the edges: the zeroth power and every power of one are one,
even where the other operand is not a number; a zero, an infinity or minus one as an operand has a
limit or a sign by the parity of the exponent.
-/

set_option autoImplicit false

namespace Reckoner

/-- A number of 64 bits, or not a number. -/
inductive Binary64 where
  | nan
  | number (x : Number) (fits : Format.binary64.Fits x.size)
  deriving DecidableEq

namespace Binary64

/-- The nearest number of 64 bits. -/
def ofNumber (x : Number) : Binary64 :=
  .number (Format.binary64.round x) (Format.fits_round _ x)

/-- The number, unless it is not one. -/
def toNumber? : Binary64 → Option Number
  | .nan => none
  | .number x _ => some x

/-- The nearest number of 64 bits of a result, if there is one. -/
def ofResult : Option Number → Binary64
  | none => .nan
  | some x => ofNumber x

/-- Positive zero. -/
def zero : Binary64 := ofNumber Number.zero

/-- One. -/
def one : Binary64 := ofNumber Number.one

/-- The nearest number to an integer. -/
def ofInt (n : Int) : Binary64 := ofNumber (Number.ofInt n)

/-- The value that a pattern of 64 bits encodes: a sign bit, eleven bits of exponent and 52 of
fraction. -/
def ofBits (pattern : Nat) : Binary64 :=
  let negative := decide (pattern / Nat.pow 2 63 % 2 = 1)
  let exponent : Nat := pattern / Nat.pow 2 52 % Nat.pow 2 11
  let fraction : Nat := pattern % Nat.pow 2 52
  if exponent = 2047 then
    if fraction = 0 then ofNumber ⟨negative, .infinite⟩ else .nan
  else if exponent = 0 then ofNumber ⟨negative, Magnitude.ofScaled fraction (-1074)⟩
  else ofNumber ⟨negative, Magnitude.ofScaled (Nat.pow 2 52 + fraction) ((exponent : Int) - 1075)⟩

/-! ### Arithmetic -/

/-- An operation on two numbers, not a number if either operand is none. -/
def lift₂ (op : Number → Number → Option Number) (x y : Binary64) : Binary64 :=
  match x, y with
  | .number a _, .number b _ => ofResult (op a b)
  | _, _ => .nan

/-- An operation on one number. -/
def lift₁ (op : Number → Option Number) : Binary64 → Binary64
  | .number a _ => ofResult (op a)
  | .nan => .nan

/-- The rounded sum. -/
def add : Binary64 → Binary64 → Binary64 := lift₂ Number.add

/-- The rounded difference. -/
def sub : Binary64 → Binary64 → Binary64 := lift₂ Number.sub

/-- The rounded product. -/
def mul : Binary64 → Binary64 → Binary64 := lift₂ Number.mul

/-- The rounded quotient. -/
def div : Binary64 → Binary64 → Binary64 := lift₂ (Number.div Format.binary64.precision)

/-- The rounded square root. -/
def sqrt : Binary64 → Binary64 := lift₁ (Number.sqrt Format.binary64.precision)

/-! ### Elementary functions -/

/-- The natural logarithm: minus infinity at a zero of either sign, and none below. -/
def logNumber (x : Number) : Option Number :=
  match x.size with
  | .zero => some ⟨true, .infinite⟩
  | .infinite => if x.negative then none else some x
  | .finite d => if x.negative then none else some (Format.binary64.logDyadic d)

/-- The rounded natural logarithm. -/
def log : Binary64 → Binary64 := lift₁ logNumber

/-- The logarithm to base two. -/
def log2Number (x : Number) : Option Number :=
  match x.size with
  | .zero => some ⟨true, .infinite⟩
  | .infinite => if x.negative then none else some x
  | .finite d => if x.negative then none else some (Format.binary64.log2Dyadic d)

/-- The rounded logarithm to base two. -/
def log2 : Binary64 → Binary64 := lift₁ log2Number

/-- An odd function given on positive dyadics; a zero is kept, and an infinity has no value. -/
def oddFunction (onPositive : Dyadic → Number) (x : Number) : Option Number :=
  match x.size with
  | .zero => some x
  | .infinite => none
  | .finite d => some (if x.negative then (onPositive d).neg else onPositive d)

/-- The rounded sine. -/
def sin : Binary64 → Binary64 := lift₁ (oddFunction Format.binary64.sinDyadic)

/-- The rounded tangent. -/
def tan : Binary64 → Binary64 := lift₁ (oddFunction Format.binary64.tanDyadic)

/-- The cosine of a number. -/
def cosNumber (x : Number) : Option Number :=
  match x.size with
  | .zero => some Number.one
  | .infinite => none
  | .finite d => some (Format.binary64.cosDyadic d)

/-- The rounded cosine. -/
def cos : Binary64 → Binary64 := lift₁ cosNumber

/-- The number pi. -/
def pi : Binary64 := ofNumber (Format.binary64.pi)

/-- Twice pi. -/
def tau : Binary64 := mul (ofInt 2) pi

/-- The exponential of a number. -/
def expNumber (x : Number) : Option Number :=
  match x.size with
  | .zero => some Number.one
  | .infinite => some (if x.negative then Number.zero else x)
  | .finite d => some (Format.binary64.expDyadic x.negative d)

/-- The rounded exponential. -/
def exp : Binary64 → Binary64 := lift₁ expNumber

/-- The base of the natural logarithm. -/
def e : Binary64 := exp one

/-- Positive infinity. -/
def infinity : Binary64 := ofNumber Number.infinity

/-! ### Order -/

/-- Whether the first is a number below the second. -/
def lt : Binary64 → Binary64 → Bool
  | .number a _, .number b _ => a.lt b
  | _, _ => false

/-- Whether the first is a number not above the second. -/
def le : Binary64 → Binary64 → Bool
  | .number a _, .number b _ => !b.lt a
  | _, _ => false

/-- The value without its sign. -/
def abs : Binary64 → Binary64
  | .nan => .nan
  | .number x fits => .number x.abs fits

/-! ### Powers

A power is computed in two parts. The whole part of the exponent is taken by repeated squaring of
the base's mantissa, with a rounding at each step; the rest of the exponent, of size at most one
half, by the exponential of the multiplied logarithm. The binary exponents are kept apart, and
joined to the result with one rounding at the end. -/

/-- The value times a power of two. -/
def scale (x : Binary64) (count : Int) : Binary64 :=
  match x with
  | .number ⟨negative, .finite d⟩ _ =>
    ofNumber ⟨negative, .finite ⟨d.mant, d.exp + count, d.odd⟩⟩
  | x => x

/-- One half. -/
def half : Binary64 := ofNumber ⟨false, .finite (Dyadic.twoPow (-1))⟩

/-- A value and a power of two, kept apart. -/
structure Scaled where
  value : Binary64
  exp : Int

/-- The binary exponent beyond which squaring goes no further. -/
def squaringLimit : Int := 4096

/-- Multiplies a result by the powers of a base that the bits of `count` name, lowest bit first,
while the base is squared and kept at one half or above. -/
def multiplyPowers : Nat → Nat → Scaled → Scaled → Scaled
  | 0, _, _, result => result
  | fuel + 1, count, base, result =>
    if count = 0 then result
    else if squaringLimit < base.exp ∨ base.exp < -squaringLimit then
      ⟨result.value, result.exp + base.exp⟩
    else
      let result :=
        if count % 2 = 1 then ⟨result.value.mul base.value, result.exp + base.exp⟩ else result
      let square := base.value.mul base.value
      let base : Scaled :=
        if lt square half then ⟨square.add square, 2 * base.exp - 1⟩ else ⟨square, 2 * base.exp⟩
      multiplyPowers fuel (count / 2) base result

/-- A size divided into its whole part and the rest. -/
def wholeAndRest (d : Dyadic) : Nat × Magnitude :=
  if 0 ≤ d.exp then (d.mant * Nat.pow 2 d.exp.toNat, .zero)
  else
    let unit := Nat.pow 2 (-d.exp).toNat
    (d.mant / unit, Magnitude.ofScaled (d.mant % unit) d.exp)

/-- The first whole part that is too large for repeated squaring. -/
def wholeLimit : Nat := Nat.pow 2 63

/-- Whether a number's size is below one, for a number that is not zero. -/
def belowOne (x : Number) : Bool :=
  match x.size with
  | .zero => true
  | .infinite => false
  | .finite d => decide (d.top ≤ 0)

/-- Whether a number's size is one. -/
def isUnit (x : Number) : Bool :=
  decide (x.size = .finite (Dyadic.twoPow 0))

/-- The limit of the powers of a number as the exponent grows, or falls if `falling`. -/
def powLimit (x : Number) (falling : Bool) : Number :=
  if isUnit x then Number.one
  else ⟨false, if belowOne x = !falling then .zero else .infinite⟩

/-- The power of a finite non-zero base with a finite non-zero exponent in two parts. -/
def powParts (x : Number) (base : Dyadic) (falling : Bool) (whole : Nat) (rest : Binary64) :
    Binary64 :=
  let (whole, rest) := if lt half rest then (whole + 1, rest.sub one) else (whole, rest)
  let start : Binary64 :=
    if rest = zero then one else (rest.mul (ofNumber x).log).exp
  let mantissa := ofNumber ⟨x.negative, .finite ⟨base.mant, -base.bits, base.odd⟩⟩
  let power := multiplyPowers 64 whole ⟨mantissa, base.top⟩ ⟨start, 0⟩
  if falling then (one.div power.value).scale (-power.exp) else power.value.scale power.exp

/-- The power of a finite non-zero base with a finite non-zero exponent. A negative base has only
integer powers. The exponent one half is the square root, and minus one half the reciprocal of it.
-/
def powFinite (x : Number) (base : Dyadic) (y : Number) (exponent : Dyadic) : Binary64 :=
  let (whole, rest) := wholeAndRest exponent
  if x.negative && rest != .zero then .nan
  else if exponent = Dyadic.twoPow (-1) then
    if y.negative then one.div (ofNumber x).sqrt else (ofNumber x).sqrt
  else if wholeLimit ≤ whole then ofNumber (powLimit x y.negative)
  else powParts x base y.negative whole (ofNumber ⟨false, rest⟩)

/-- The power of two numbers: a zero or an infinite operand has a limit, with a sign by the parity
of the exponent. -/
def powNumber (x y : Number) : Binary64 :=
  match x.size, y.size with
  | _, .zero => one
  | .zero, .infinite => ofNumber ⟨false, if y.negative then .infinite else .zero⟩
  | .zero, .finite _ =>
    ofNumber ⟨x.negative && y.isOdd, if y.negative then .infinite else .zero⟩
  | .infinite, .infinite => ofNumber ⟨false, if y.negative then .zero else .infinite⟩
  | .infinite, .finite _ =>
    ofNumber ⟨x.negative && y.isOdd, if y.negative then .zero else .infinite⟩
  | .finite _, .infinite => ofNumber (powLimit x y.negative)
  | .finite base, .finite exponent => powFinite x base y exponent

/-- The rounded power. The zeroth power and every power of one are one, whatever the other operand
is, and the first power is the base. -/
def pow (x y : Binary64) : Binary64 :=
  if y.toNumber?.any Number.isZero || x = one then one
  else if y = one then x
  else
    match x, y with
    | .number a _, .number b _ => powNumber a b
    | _, _ => .nan

end Binary64

end Reckoner
