/-!
# Positive dyadic numbers

A positive dyadic number is an odd mantissa times a power of two. Because the mantissa is odd, every
positive dyadic has one representation, whatever width it is later rounded to, and the number of
bits it needs is the length of its mantissa.

Every rounding of the library goes through one function, `nearestQuotient`: the integer nearest to a
quotient, a half going to the even neighbour. Quotients and square roots that are not dyadic are cut
after a given number of bits and marked by one further bit (`ofRatio`, `sqrt`), so that a later
rounding to fewer bits gives what rounding the exact value would give.
-/

set_option autoImplicit false

namespace Reckoner

/-- The integer nearest to `num / den`; a half goes to the even neighbour. -/
def nearestQuotient (num den : Nat) : Nat :=
  let quotient := num / den
  let rest := num % den
  if 2 * rest < den ∨ (2 * rest = den ∧ quotient % 2 = 0) then quotient else quotient + 1

/-- The nearest integer is the quotient or its successor. -/
theorem nearestQuotient_le (num den : Nat) : nearestQuotient num den ≤ num / den + 1 := by
  unfold nearestQuotient
  dsimp only
  split <;> omega

/-- An exact quotient is not changed by rounding. -/
@[simp] theorem nearestQuotient_one (num : Nat) : nearestQuotient num 1 = num := by
  simp [nearestQuotient, Nat.mod_one]

/-- The number of binary digits, zero having none. -/
def bitLength (n : Nat) : Nat :=
  if n = 0 then 0 else n.log2 + 1

/-- A number lies below the power of two that its length names. -/
theorem lt_two_pow_bitLength (n : Nat) : n < Nat.pow 2 (bitLength n) := by
  unfold bitLength
  split
  · simp only [Nat.pow_eq]
    omega
  · exact Nat.lt_log2_self

/-- Takes factors of two out of a number in at most `limit` steps, and counts them. As long as there
are 32 of them they are taken at once. -/
def takeTwos : Nat → Nat → Nat × Nat
  | 0, n => (n, 0)
  | limit + 1, n =>
    if n % 2 = 0 then
      if n % 4294967296 = 0 then
        let (rest, count) := takeTwos limit (n / 4294967296)
        (rest, count + 32)
      else
        let (rest, count) := takeTwos limit (n / 2)
        (rest, count + 1)
    else (n, 0)

/-- What is taken out and what is left multiply to the number. -/
theorem takeTwos_mul (limit n : Nat) :
    (takeTwos limit n).1 * Nat.pow 2 (takeTwos limit n).2 = n := by
  induction limit generalizing n with
  | zero => simp [takeTwos]
  | succ limit ih =>
    unfold takeTwos
    split
    · split
      · have hrest := ih (n / 4294967296)
        dsimp only
        simp only [Nat.pow_eq] at hrest ⊢
        rw [Nat.pow_add, ← Nat.mul_assoc, hrest]
        omega
      · have hrest := ih (n / 2)
        dsimp only
        simp only [Nat.pow_eq] at hrest ⊢
        rw [Nat.pow_succ, ← Nat.mul_assoc, hrest]
        omega
    · simp

/-- A positive number below `2 ^ (limit + 1)` is left odd. -/
theorem takeTwos_odd {limit n : Nat} (hpos : n ≠ 0) (hlt : n < Nat.pow 2 (limit + 1)) :
    (takeTwos limit n).1 % 2 = 1 := by
  induction limit generalizing n with
  | zero =>
    simp only [takeTwos]
    simp only [Nat.pow_eq, Nat.zero_add, Nat.pow_one] at hlt
    omega
  | succ limit ih =>
    have hhalf : n / 2 < Nat.pow 2 (limit + 1) := by
      simp only [Nat.pow_eq] at hlt ⊢
      rw [Nat.pow_succ] at hlt
      omega
    unfold takeTwos
    split
    · split
      · dsimp only
        apply ih
        · omega
        · omega
      · dsimp only
        apply ih
        · omega
        · exact hhalf
    · dsimp only
      omega

/-- A positive dyadic number `mant * 2 ^ exp` with an odd mantissa. -/
structure Dyadic where
  mant : Nat
  exp : Int
  /-- The mantissa is odd, so the representation is unique. -/
  odd : mant % 2 = 1
  deriving DecidableEq, Repr

namespace Dyadic

/-- The number of bits the mantissa needs. -/
def bits (d : Dyadic) : Nat :=
  bitLength d.mant

/-- The exponent of the least power of two above the number. -/
def top (d : Dyadic) : Int :=
  d.exp + d.bits

/-- The power of two with the given exponent. -/
def twoPow (exp : Int) : Dyadic :=
  ⟨1, exp, rfl⟩

/-- The dyadic `mant * 2 ^ exp` of a positive mantissa, odd or not. -/
def ofScaled (mant : Nat) (exp : Int) (pos : mant ≠ 0) : Dyadic where
  mant := (takeTwos mant.log2 mant).1
  exp := exp + (takeTwos mant.log2 mant).2
  odd := takeTwos_odd pos Nat.lt_log2_self

/-- Normalising keeps the value: the factors of two move to the exponent. -/
theorem ofScaled_mul (mant : Nat) (exp : Int) (pos : mant ≠ 0) :
    (ofScaled mant exp pos).mant * Nat.pow 2 ((ofScaled mant exp pos).exp - exp).toNat = mant := by
  have hexp : ((ofScaled mant exp pos).exp - exp).toNat = (takeTwos mant.log2 mant).2 := by
    simp only [ofScaled]
    omega
  rw [hexp]
  exact takeTwos_mul mant.log2 mant

/-- Normalising never lowers the exponent. -/
theorem le_exp_ofScaled (mant : Nat) (exp : Int) (pos : mant ≠ 0) :
    exp ≤ (ofScaled mant exp pos).exp := by
  simp only [ofScaled]
  omega

/-- Normalising never enlarges the mantissa. -/
theorem mant_ofScaled_le (mant : Nat) (exp : Int) (pos : mant ≠ 0) :
    (ofScaled mant exp pos).mant ≤ mant := by
  have hmul := ofScaled_mul mant exp pos
  calc (ofScaled mant exp pos).mant
      ≤ (ofScaled mant exp pos).mant * Nat.pow 2 ((ofScaled mant exp pos).exp - exp).toNat :=
        Nat.le_mul_of_pos_right _ (Nat.two_pow_pos _)
    _ = mant := hmul

/-- The mantissa of a dyadic is positive. -/
theorem mant_pos (d : Dyadic) : 0 < d.mant := by
  have := d.odd
  omega

/-- The product, which is exact. -/
def mul (a b : Dyadic) : Dyadic where
  mant := a.mant * b.mant
  exp := a.exp + b.exp
  odd := by rw [Nat.mul_mod, a.odd, b.odd]

/-- The mantissa as a multiple of `2 ^ exp`, for an exponent not above the number's own. -/
def mantAt (d : Dyadic) (exp : Int) : Nat :=
  d.mant <<< (d.exp - exp).toNat

/-- Exact order of two positive dyadics. -/
def lt (a b : Dyadic) : Bool :=
  let exp := min a.exp b.exp
  a.mantAt exp < b.mantAt exp

/-- A positive quotient `num / den * 2 ^ exp` cut after at least `width + 1` bits, with one more bit
that tells whether anything was cut off. Rounding it to `width` bits or fewer is rounding the exact
quotient. -/
def ofRatio (width : Nat) (num den : Nat) (exp : Int) (pos : num ≠ 0 ∧ den ≠ 0) : Dyadic :=
  let shift := width + 2 + bitLength den
  let quotient := (num <<< shift) / den
  let rest := (num <<< shift) % den
  have hquotient : 2 * quotient + (if rest = 0 then 0 else 1) ≠ 0 := by
    have hrest : (num <<< shift) ≠ 0 := by
      rw [Nat.shiftLeft_eq]
      exact Nat.mul_ne_zero pos.1 (Nat.ne_of_gt (Nat.two_pow_pos _))
    split
    · rename_i hzero
      have hmod : den * ((num <<< shift) / den) + (num <<< shift) % den = num <<< shift :=
        Nat.div_add_mod _ _
      intro hcontra
      have hq : (num <<< shift) / den = 0 := by
        simp only [quotient] at hcontra
        omega
      rw [hq] at hmod
      simp only [rest] at hzero
      omega
    · omega
  ofScaled (2 * quotient + (if rest = 0 then 0 else 1)) (exp - shift - 1) hquotient

/-- The quotient of two dyadics, cut as by `ofRatio`. -/
def div (width : Nat) (a b : Dyadic) : Dyadic :=
  ofRatio width a.mant b.mant (a.exp - b.exp)
    ⟨Nat.ne_of_gt a.mant_pos, Nat.ne_of_gt b.mant_pos⟩

end Dyadic

/-! ### Integer square roots -/

/-- Adds the bits below `2 ^ count` to a root found so far, the highest first, as long as the square
stays within `n`. -/
def rootBits (n : Nat) : Nat → Nat → Nat
  | 0, root => root
  | count + 1, root =>
    let next := root + Nat.pow 2 count
    if next * next ≤ n then rootBits n count next else rootBits n count root

/-- The bits added keep the square within `n`, and leave less than one unit. -/
theorem rootBits_spec (n count root : Nat) (hlo : root * root ≤ n)
    (hhi : n < (root + Nat.pow 2 count) * (root + Nat.pow 2 count)) :
    rootBits n count root * rootBits n count root ≤ n ∧
      n < (rootBits n count root + 1) * (rootBits n count root + 1) := by
  induction count generalizing root with
  | zero => exact ⟨hlo, hhi⟩
  | succ count ih =>
    unfold rootBits
    dsimp only
    have hsplit : root + Nat.pow 2 (count + 1) =
        root + Nat.pow 2 count + Nat.pow 2 count := by
      simp only [Nat.pow_eq]
      rw [Nat.pow_succ]
      omega
    split
    · rename_i hnext
      apply ih _ hnext
      rw [← hsplit]
      exact hhi
    · rename_i hnext
      exact ih _ hlo (by omega)

/-- The integer square root. -/
def natSqrt (n : Nat) : Nat :=
  rootBits n (n.log2 / 2 + 1) 0

/-- The root's square is within the number, and the next square is not. -/
theorem natSqrt_spec (n : Nat) :
    natSqrt n * natSqrt n ≤ n ∧ n < (natSqrt n + 1) * (natSqrt n + 1) := by
  apply rootBits_spec
  · omega
  · simp only [Nat.pow_eq]
    rw [Nat.zero_add, ← Nat.pow_add]
    exact Nat.lt_of_lt_of_le Nat.lt_log2_self (Nat.pow_le_pow_right (by omega) (by omega))

/-- A positive number has a positive root. -/
theorem natSqrt_ne_zero {n : Nat} (pos : n ≠ 0) : natSqrt n ≠ 0 := by
  intro hzero
  have hspec := (natSqrt_spec n).2
  rw [hzero] at hspec
  omega

namespace Dyadic

/-- The square root cut after at least `width + 1` bits, with one more bit that tells whether
anything was cut off. -/
def sqrt (width : Nat) (d : Dyadic) : Dyadic :=
  let shift := 2 * width + 4 + (d.exp % 2).toNat
  let scaled := d.mant <<< shift
  let root := natSqrt scaled
  have hscaled : scaled ≠ 0 := by
    simp only [scaled, Nat.shiftLeft_eq]
    exact Nat.mul_ne_zero (Nat.ne_of_gt d.mant_pos) (Nat.ne_of_gt (Nat.two_pow_pos _))
  have hroot : 2 * root + (if root * root = scaled then 0 else 1) ≠ 0 := by
    have := natSqrt_ne_zero hscaled
    omega
  ofScaled (2 * root + (if root * root = scaled then 0 else 1)) ((d.exp - shift) / 2 - 1) hroot

end Dyadic

end Reckoner
