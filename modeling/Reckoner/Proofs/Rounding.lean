import Mathlib.Algebra.Order.Field.Power
import Mathlib.Algebra.Order.Floor.Semifield
import Mathlib.Data.Int.Log
import Mathlib.Data.Rat.Floor
import Mathlib.Tactic.FieldSimp
import Mathlib.Tactic.Linarith
import Mathlib.Tactic.Positivity
import Mathlib.Tactic.Ring
import Reckoner.Decimal.Basic
import Reckoner.Proofs.Reciprocal

/-!
# Rounding rational numbers

A positive rational has a nearest number in a format, whatever way it is written: as a dyadic, as a
quotient that was cut, or as a decimal. `Format.roundRat` says which, over the rationals, and the
roundings of the library are shown to compute it:

* a dyadic is rounded as its value is (`Format.roundSize_finite`);
* the bit that marks a cut quotient is enough to round it as the exact quotient
  (`Format.roundSize_ofRatio`);
* a decimal is rounded as its value is, so it does not matter how many zeros it is written with
  (`Format.ofDecimal_eq_roundRat`).

What the format holds is its own rounding (`Format.roundRat_of_fits`).
-/

set_option autoImplicit false

namespace Reckoner

/-! ### Values -/

/-- A rational with a sign. -/
def signed (negative : Bool) (q : ℚ) : ℚ :=
  if negative then -q else q

/-- The size of a number with a sign. -/
theorem abs_signed (negative : Bool) {q : ℚ} (h : 0 ≤ q) : |signed negative q| = q := by
  cases negative
  · exact abs_of_nonneg h
  · exact (abs_neg q).trans (abs_of_nonneg h)

/-- Zero has no sign. -/
@[simp] theorem signed_zero (negative : Bool) : signed negative 0 = 0 := by
  cases negative
  · rfl
  · exact neg_zero

/-- Signs multiply. -/
theorem signed_mul (negative negative' : Bool) (p q : ℚ) :
    signed (negative != negative') (p * q) = signed negative p * signed negative' q := by
  cases negative <;> cases negative' <;> simp [signed]

/-- Signs divide as they multiply. -/
theorem signed_div (negative negative' : Bool) (p q : ℚ) :
    signed (negative != negative') (p / q) = signed negative p / signed negative' q := by
  cases negative <;> cases negative' <;> simp [signed, neg_div, div_neg]

namespace Dyadic

/-- The value of a dyadic. -/
def toRat (d : Dyadic) : ℚ :=
  d.mant * 2 ^ d.exp

/-- A dyadic is positive. -/
theorem toRat_pos (d : Dyadic) : 0 < d.toRat := by
  have hmant : (0 : ℚ) < d.mant := by exact_mod_cast d.mant_pos
  unfold toRat
  positivity

/-- Moving factors of two between mantissa and exponent keeps the value. -/
theorem toRat_ofScaled (mant : Nat) (exp : Int) (pos : mant ≠ 0) :
    (ofScaled mant exp pos).toRat = mant * 2 ^ exp := by
  have hmul := ofScaled_mul mant exp pos
  have hle := le_exp_ofScaled mant exp pos
  generalize ofScaled mant exp pos = d at hmul hle
  obtain ⟨k, hk⟩ := Int.le.dest hle
  rw [← hk, add_sub_cancel_left, Int.toNat_natCast, Nat.pow_eq] at hmul
  rw [toRat, ← hk, ← hmul, zpow_add₀ two_ne_zero, zpow_natCast]
  push_cast
  ring

/-- The value of a product. -/
theorem toRat_mul (a b : Dyadic) : (a.mul b).toRat = a.toRat * b.toRat := by
  simp only [toRat, mul, Nat.cast_mul, zpow_add₀ (two_ne_zero' ℚ)]
  ring

/-- Of two dyadics of equal value, the one with the smaller exponent has that of the other. -/
theorem eq_of_toRat_eq_of_le {a b : Dyadic} (h : a.toRat = b.toRat) (hle : a.exp ≤ b.exp) :
    a = b := by
  obtain ⟨k, hk⟩ := Int.le.dest hle
  have hmant : a.mant = b.mant * 2 ^ k := by
    have hvalue : (a.mant : ℚ) * 2 ^ a.exp = b.mant * 2 ^ k * 2 ^ a.exp := by
      rw [mul_assoc, ← zpow_natCast, ← zpow_add₀ two_ne_zero, add_comm (k : ℤ), hk]
      exact h
    exact_mod_cast mul_right_cancel₀ (zpow_ne_zero _ two_ne_zero) hvalue
  -- an odd mantissa has no further factor of two
  have hzero : k = 0 := by
    have hodd := a.odd
    rw [hmant] at hodd
    cases k with
    | zero => rfl
    | succ k => rw [Nat.pow_succ, ← Nat.mul_assoc] at hodd; omega
  obtain ⟨mant, exp, odd⟩ := a
  obtain ⟨mant', exp', odd'⟩ := b
  simp only [hzero, Nat.pow_zero, Nat.mul_one, Nat.cast_zero, add_zero] at hmant hk
  cases hmant
  cases hk
  rfl

/-- A dyadic is known by its value. -/
theorem toRat_injective {a b : Dyadic} (h : a.toRat = b.toRat) : a = b := by
  rcases Int.le_total a.exp b.exp with hle | hle
  · exact eq_of_toRat_eq_of_le h hle
  · exact (eq_of_toRat_eq_of_le h.symm hle).symm

/-- The number of bits places a mantissa between two powers of two. -/
theorem two_pow_le_toRat (d : Dyadic) : 2 ^ (d.top - 1) ≤ d.toRat ∧ d.toRat < 2 ^ d.top := by
  obtain ⟨k, hk⟩ : ∃ k, d.bits = k + 1 := by
    have hpos := d.mant_pos
    exact ⟨d.mant.log2, if_neg (by omega)⟩
  obtain ⟨hlow, hhigh⟩ := bitLength_eq_succ_iff.mp hk
  have hlow' : (2 : ℚ) ^ k ≤ d.mant := by exact_mod_cast hlow
  have hhigh' : (d.mant : ℚ) < 2 ^ (k + 1) := by exact_mod_cast hhigh
  have hunit : (0 : ℚ) < 2 ^ d.exp := by positivity
  have htop : d.top = (k + 1 : ℕ) + d.exp := by rw [top, hk, add_comm]
  have hbelow : d.top - 1 = (k : ℕ) + d.exp := by rw [htop]; push_cast; ring
  rw [hbelow, htop, zpow_add₀ two_ne_zero, zpow_add₀ two_ne_zero, zpow_natCast, zpow_natCast, toRat]
  exact ⟨mul_le_mul_of_nonneg_right hlow' hunit.le, mul_lt_mul_of_pos_right hhigh' hunit⟩

end Dyadic

/-- The exponent of the greatest power of two below a number is told by the powers around it. -/
theorem log_eq_of_between {q : ℚ} {k : ℤ} (hlow : 2 ^ k ≤ q) (hhigh : q < 2 ^ (k + 1)) :
    Int.log 2 q = k := by
  have hpos : 0 < q := lt_of_lt_of_le (by positivity) hlow
  have hle := (Int.zpow_le_iff_le_log Nat.one_lt_two hpos).mp (by exact_mod_cast hlow)
  have hlt := (Int.lt_zpow_iff_log_lt Nat.one_lt_two hpos).mp (by exact_mod_cast hhigh)
  omega

/-- Multiplying by a power of two moves the exponent. -/
theorem log_mul_two_pow {q : ℚ} (hq : 0 < q) (k : ℤ) :
    Int.log 2 (q * 2 ^ k) = Int.log 2 q + k := by
  have hunit : (0 : ℚ) < 2 ^ k := by positivity
  have hlow : (2 : ℚ) ^ Int.log 2 q ≤ q := by
    exact_mod_cast Int.zpow_log_le_self Nat.one_lt_two hq
  have hhigh : q < 2 ^ (Int.log 2 q + 1) := by
    exact_mod_cast Int.lt_zpow_succ_log_self Nat.one_lt_two q
  apply log_eq_of_between
  · rw [zpow_add₀ two_ne_zero]
    exact mul_le_mul_of_nonneg_right hlow hunit.le
  · rw [add_right_comm, zpow_add₀ two_ne_zero (Int.log 2 q + 1)]
    exact mul_lt_mul_of_pos_right hhigh hunit

/-- The exponent above a dyadic. -/
theorem Dyadic.top_eq_log (d : Dyadic) : d.top = Int.log 2 d.toRat + 1 := by
  obtain ⟨hlow, hhigh⟩ := d.two_pow_le_toRat
  rw [log_eq_of_between hlow (by rwa [sub_add_cancel]), sub_add_cancel]

/-- A size is told by its value. -/
theorem Magnitude.ofScaled_congr {mant mant' : Nat} {exp exp' : Int}
    (h : (mant : ℚ) * 2 ^ exp = mant' * 2 ^ exp') :
    Magnitude.ofScaled mant exp = Magnitude.ofScaled mant' exp' := by
  have hunit (k : ℤ) : (2 : ℚ) ^ k ≠ 0 := zpow_ne_zero k two_ne_zero
  by_cases hmant : mant = 0
  · have hmant' : mant' = 0 := by
      rw [hmant, Nat.cast_zero, zero_mul] at h
      exact_mod_cast (mul_eq_zero.mp h.symm).resolve_right (hunit exp')
    simp [ofScaled, hmant, hmant']
  · have hmant' : mant' ≠ 0 := by
      rintro rfl
      rw [Nat.cast_zero, zero_mul] at h
      exact hmant (by exact_mod_cast (mul_eq_zero.mp h).resolve_right (hunit exp))
    rw [ofScaled, ofScaled, dif_neg hmant, dif_neg hmant']
    congr 1
    exact Dyadic.toRat_injective (by rw [Dyadic.toRat_ofScaled, Dyadic.toRat_ofScaled, h])

/-- A size with the value of a dyadic is this dyadic. -/
theorem Magnitude.ofScaled_eq_finite {mant : Nat} {exp : Int} {d : Dyadic}
    (h : (mant : ℚ) * 2 ^ exp = d.toRat) : Magnitude.ofScaled mant exp = .finite d := by
  have hmant : mant ≠ 0 := by
    rintro rfl
    have hpos := d.toRat_pos
    rw [Nat.cast_zero, zero_mul] at h
    rw [h] at hpos
    exact lt_irrefl _ hpos
  rw [ofScaled, dif_neg hmant]
  congr 1
  exact Dyadic.toRat_injective (by rw [Dyadic.toRat_ofScaled, h])

/-! ### The nearest integer -/

/-- The integer nearest to a rational that is not negative; a half goes to the even neighbour. -/
def nearest (q : ℚ) : ℕ :=
  let below := ⌊q⌋₊
  if 2 * (q - below) < 1 ∨ (2 * (q - below) = 1 ∧ below % 2 = 0) then below else below + 1

/-- The nearest integer to an integer is itself. -/
theorem nearest_natCast (n : ℕ) : nearest n = n := by
  simp [nearest]

/-- The nearest integer to a quotient of integers is found by division with rest. -/
theorem nearest_div (num : ℕ) {den : ℕ} (hden : 0 < den) :
    nearest ((num : ℚ) / den) = nearestQuotient num den := by
  have hpos : (0 : ℚ) < den := by exact_mod_cast hden
  have hrest : 2 * ((num : ℚ) / den - (num / den : ℕ)) = (2 * (num % den) : ℕ) / (den : ℚ) := by
    have hsplit : (num : ℚ) = den * (num / den : ℕ) + (num % den : ℕ) := by
      exact_mod_cast (Nat.div_add_mod num den).symm
    rw [eq_div_iff hpos.ne', mul_assoc, sub_mul, div_mul_cancel₀ _ hpos.ne', hsplit]
    push_cast
    ring
  have hlt : 2 * ((num : ℚ) / den - (num / den : ℕ)) < 1 ↔ 2 * (num % den) < den := by
    rw [hrest, div_lt_one hpos]
    exact_mod_cast Iff.rfl
  have heq : 2 * ((num : ℚ) / den - (num / den : ℕ)) = 1 ↔ 2 * (num % den) = den := by
    rw [hrest, div_eq_one_iff_eq hpos.ne']
    exact_mod_cast Iff.rfl
  simp only [nearest, nearestQuotient, Nat.floor_div_eq_div, hlt, heq]

/-- Rounding to a multiple of an even number reads of what lies below the integers only whether it
is zero: one further bit says it all. -/
theorem nearestQuotient_cut (n : ℕ) {d : ℕ} (hd : 0 < d) (half : ℕ) :
    nearestQuotient (2 * (n / d) + (if n % d = 0 then 0 else 1)) (2 * (2 * half)) =
      nearestQuotient n (d * (2 * half)) := by
  obtain ⟨bit, hbit⟩ : ∃ bit, (if n % d = 0 then 0 else 1) = bit := ⟨_, rfl⟩
  have hzero : bit = 0 ∧ n % d = 0 ∨ bit = 1 ∧ n % d ≠ 0 := by
    split at hbit <;> omega
  have hquotient : (2 * (n / d) + bit) / (2 * (2 * half)) = n / (d * (2 * half)) := by
    rw [← Nat.div_div_eq_div_mul n d, ← Nat.div_div_eq_div_mul _ 2 (2 * half)]
    congr 1
    omega
  have hrest : (2 * (n / d) + bit) % (2 * (2 * half)) = bit + 2 * (n / d % (2 * half)) := by
    rw [Nat.mod_mul]
    congr 2
    · omega
    · congr 1
      omega
  have hrest' : n % (d * (2 * half)) = n % d + d * (n / d % (2 * half)) := Nat.mod_mul
  have hmod := Nat.mod_lt n hd
  rw [hbit]
  simp only [nearestQuotient, hquotient, hrest, hrest']
  generalize n / d % (2 * half) = t
  -- the rest below an integer moves nothing across a half, and only zero stays on it
  have hlt : 2 * (bit + 2 * t) < 2 * (2 * half) ↔ 2 * (n % d + d * t) < d * (2 * half) := by
    rcases Nat.lt_or_ge t half with h | h
    · have hprod : d * t + d ≤ d * half := Nat.mul_le_mul_left d h
      have hdouble : d * (2 * half) = 2 * (d * half) := Nat.mul_left_comm ..
      constructor <;> intro <;> omega
    · have hprod : d * half ≤ d * t := Nat.mul_le_mul_left d h
      have hdouble : d * (2 * half) = 2 * (d * half) := Nat.mul_left_comm ..
      constructor <;> intro <;> omega
  have heq : 2 * (bit + 2 * t) = 2 * (2 * half) ↔ 2 * (n % d + d * t) = d * (2 * half) := by
    have hdouble : d * (2 * half) = 2 * (d * half) := Nat.mul_left_comm ..
    rcases Nat.lt_trichotomy t half with h | rfl | h
    · have hprod : d * t + d ≤ d * half := Nat.mul_le_mul_left d h
      constructor <;> intro <;> omega
    · constructor <;> intro <;> omega
    · have hprod : d * half + d ≤ d * t := Nat.mul_le_mul_left d h
      constructor <;> intro <;> omega
  simp only [hlt, heq]

/-! ### The nearest size of a format -/

namespace Format

/-- The exponent of the last bit that a format keeps of a number. -/
def unitOf (f : Format) (q : ℚ) : ℤ :=
  max (Int.log 2 q + 1 - f.precision) f.unitFloor

/-- The size of a format that is nearest to a positive rational, a half going to the even mantissa.
What is too small becomes zero, what is too large infinite. -/
def roundRat (f : Format) (q : ℚ) : Magnitude :=
  if Int.log 2 q + 1 < f.sizeFloor then .zero
  else f.bound (Magnitude.ofScaled (nearest (q / 2 ^ f.unitOf q)) (f.unitOf q))

/-- A dyadic is rounded as its value is. -/
theorem roundSize_finite (f : Format) (d : Dyadic) :
    f.roundSize (.finite d) = f.roundRat d.toRat := by
  have htop : d.top = d.exp + d.bits := rfl
  have hunit : f.unitOf d.toRat = max (d.top - f.precision) f.unitFloor := by
    rw [unitOf, d.top_eq_log]
  rw [roundSize, roundRat, ← d.top_eq_log]
  split
  · rfl
  congr 1
  by_cases hle : d.exp ≤ f.unitOf d.toRat
  · have hexp : d.exp + f.excess d = f.unitOf d.toRat := by
      unfold excess
      omega
    have hquotient : d.toRat / 2 ^ f.unitOf d.toRat = d.mant / (2 ^ f.excess d : ℕ) := by
      rw [← hexp, Dyadic.toRat, zpow_add₀ two_ne_zero, zpow_natCast, Nat.cast_pow, Nat.cast_ofNat,
        mul_comm (_ ^ d.exp : ℚ), mul_div_mul_right _ _ (zpow_ne_zero _ two_ne_zero)]
    rw [hexp, hquotient, nearest_div _ (Nat.two_pow_pos _), Nat.pow_eq]
  · -- the dyadic has no bits below the unit, so nothing is rounded
    obtain ⟨k, hk⟩ := Int.le.dest (Int.le_of_lt (Int.not_le.mp hle))
    have hexcess : f.excess d = 0 := by
      unfold excess
      omega
    have hquotient : d.toRat / 2 ^ f.unitOf d.toRat = (d.mant * 2 ^ k : ℕ) := by
      rw [div_eq_iff (zpow_ne_zero _ two_ne_zero)]
      conv => lhs; rw [Dyadic.toRat, ← hk, zpow_add₀ two_ne_zero, zpow_natCast]
      push_cast
      ring
    rw [hquotient, nearest_natCast, hexcess]
    apply Magnitude.ofScaled_congr
    rw [← hquotient, div_mul_cancel₀ _ (zpow_ne_zero _ two_ne_zero)]
    simp [Dyadic.toRat]

/-- What the format holds and does not take for zero is its own rounding. -/
theorem roundRat_of_fits {f : Format} {d : Dyadic} (hfits : f.Fits (.finite d))
    (hfloor : f.sizeFloor ≤ d.top) : f.roundRat d.toRat = .finite d := by
  obtain ⟨hmant, hexp, hceil⟩ := hfits
  have hbits : d.bits ≤ f.precision := by
    obtain ⟨k, hk⟩ : ∃ k, d.bits = k + 1 := by
      have hpos := d.mant_pos
      exact ⟨d.mant.log2, if_neg (by omega)⟩
    have hlow : 2 ^ k < 2 ^ f.precision := (bitLength_eq_succ_iff.mp hk).1.trans_lt hmant
    have hlt := (Nat.pow_lt_pow_iff_right Nat.one_lt_two).mp hlow
    omega
  have hexcess : f.excess d = 0 := by
    unfold excess
    omega
  have hsame : Magnitude.ofScaled d.mant d.exp = .finite d := Magnitude.ofScaled_eq_finite rfl
  rw [← roundSize_finite, roundSize, if_neg (not_lt.mpr hfloor), hexcess]
  simp only [Nat.pow_eq, pow_zero, nearestQuotient_one, Nat.cast_zero, add_zero, hsame, bound,
    if_neg (not_lt.mpr hceil)]

/-- Numbers between the same powers of two that have the same nearest multiple of their last bit are
rounded alike. -/
theorem roundRat_congr {f : Format} {q q' : ℚ} (hlog : Int.log 2 q = Int.log 2 q')
    (hnearest : nearest (q / 2 ^ f.unitOf q) = nearest (q' / 2 ^ f.unitOf q)) :
    f.roundRat q = f.roundRat q' := by
  have hunit : f.unitOf q = f.unitOf q' := by rw [unitOf, unitOf, hlog]
  rw [roundRat, roundRat, hlog, hnearest, hunit]

/-- The exponent of a quotient is that of its whole part. -/
theorem log_div {n d k : ℕ} (hd : 0 < d) (h : bitLength (n / d) = k + 1) :
    Int.log 2 ((n : ℚ) / d) = k := by
  obtain ⟨hlow, hhigh⟩ := bitLength_eq_succ_iff.mp h
  have hpos : (0 : ℚ) < d := by exact_mod_cast hd
  apply log_eq_of_between
  · rw [zpow_natCast, le_div_iff₀ hpos]
    exact_mod_cast (Nat.le_div_iff_mul_le hd).mp hlow
  · rw [← Nat.cast_add_one, zpow_natCast, div_lt_iff₀ hpos]
    exact_mod_cast (Nat.div_lt_iff_lt_mul hd).mp hhigh

/-- Assumes: a quotient whose whole part has more bits than the precision. Cut to the whole part and
marked by a bit it is rounded as the exact quotient. -/
theorem roundRat_cut {f : Format} {n d : ℕ} (hd : 0 < d) (exp : ℤ)
    (hlong : 2 ^ f.precision ≤ n / d) :
    f.roundRat ((2 * (n / d) + (if n % d = 0 then 0 else 1) : ℕ) * 2 ^ (exp - 1)) =
      f.roundRat ((n : ℚ) / d * 2 ^ exp) := by
  obtain ⟨cut, hcut⟩ : ∃ cut, 2 * (n / d) + (if n % d = 0 then 0 else 1) = cut := ⟨_, rfl⟩
  have hhalf : cut / 2 = n / d := by
    split at hcut <;> omega
  have hpos : 0 < n / d := (Nat.two_pow_pos _).trans_le hlong
  obtain ⟨k, hk⟩ : ∃ k, bitLength (n / d) = k + 1 := ⟨(n / d).log2, if_neg (by omega)⟩
  have hprecision : f.precision < k + 1 :=
    (Nat.pow_lt_pow_iff_right Nat.one_lt_two).mp
      (hlong.trans_lt (bitLength_eq_succ_iff.mp hk).2)
  have hcutRat : (cut : ℚ) * 2 ^ (exp - 1) = (cut : ℚ) / (2 : ℕ) * 2 ^ exp := by
    rw [zpow_sub_one₀ two_ne_zero]
    push_cast
    ring
  have hlogCut : Int.log 2 ((cut : ℚ) / (2 : ℕ)) = k := log_div Nat.two_pos (by rw [hhalf, hk])
  have hlog : Int.log 2 ((n : ℚ) / d) = k := log_div hd hk
  have hcutPos : (0 : ℚ) < cut / (2 : ℕ) := by
    have : 0 < cut := by omega
    positivity
  have hratPos : (0 : ℚ) < n / d := by
    have : 0 < n := Nat.pos_of_div_pos hpos
    positivity
  rw [hcut, hcutRat]
  refine roundRat_congr (by rw [log_mul_two_pow hcutPos, log_mul_two_pow hratPos, hlogCut, hlog]) ?_
  -- the last bit that is kept lies above the cut
  have hunit : exp + 1 ≤ f.unitOf ((cut : ℚ) / (2 : ℕ) * 2 ^ exp) := by
    rw [unitOf, log_mul_two_pow hcutPos, hlogCut]
    omega
  obtain ⟨j, hj⟩ := Int.le.dest hunit
  have hscale (q : ℚ) : q * 2 ^ exp / 2 ^ (exp + 1 + j) = q / (2 * 2 ^ j : ℕ) := by
    rw [add_assoc, zpow_add₀ two_ne_zero exp, zpow_add₀ two_ne_zero, zpow_one, zpow_natCast,
      mul_comm q, mul_div_mul_left _ _ (zpow_ne_zero _ two_ne_zero)]
    push_cast
    rfl
  have hmod : 0 < 2 * 2 ^ j := by positivity
  rw [← hj, hscale, hscale, div_div, div_div, ← Nat.cast_mul, ← Nat.cast_mul,
    nearest_div _ (by positivity), nearest_div _ (by positivity), ← hcut,
    nearestQuotient_cut n hd (2 ^ j)]

/-- A quotient that was cut is rounded as the exact quotient. -/
theorem roundSize_ofRatio (f : Format) {num den : ℕ} (hnum : num ≠ 0) (hden : den ≠ 0) (exp : ℤ) :
    f.roundSize (Magnitude.ofRatio f.precision num den exp) =
      f.roundRat ((num : ℚ) / den * 2 ^ exp) := by
  have hpos : 0 < den := Nat.pos_of_ne_zero hden
  have hlong (shift : ℕ) (hshift : shift = f.precision + 2 + bitLength den) :
      2 ^ f.precision ≤ num * 2 ^ shift / den := by
    rw [Nat.le_div_iff_mul_le hpos]
    calc 2 ^ f.precision * den
        ≤ 2 ^ f.precision * 2 ^ bitLength den :=
          Nat.mul_le_mul_left _ (Nat.le_of_lt (lt_two_pow_bitLength den))
      _ = 2 ^ (f.precision + bitLength den) := (Nat.pow_add ..).symm
      _ ≤ 2 ^ shift := Nat.pow_le_pow_right Nat.two_pos (by omega)
      _ ≤ num * 2 ^ shift := Nat.le_mul_of_pos_left _ (Nat.pos_of_ne_zero hnum)
  rw [Magnitude.ofRatio, dif_neg hnum, dif_neg hden, roundSize_finite, Dyadic.ofRatio,
    Dyadic.toRat_ofScaled]
  simp only [Nat.shiftLeft_eq]
  rw [roundRat_cut hpos _ (hlong _ rfl)]
  congr 1
  have hexp : exp - (f.precision + 2 + bitLength den : ℕ) =
      exp + -((f.precision + 2 + bitLength den : ℕ) : ℤ) := sub_eq_add_neg ..
  rw [hexp, zpow_add₀ two_ne_zero, zpow_neg, zpow_natCast]
  push_cast
  field_simp

/-! ### Decimals -/

/-- Whether the range of a format contains one. -/
structure ContainsOne (f : Format) : Prop where
  unitFloor_le : f.unitFloor ≤ 0
  /-- One is not taken for zero. -/
  sizeFloor_le : f.sizeFloor ≤ 1
  sizeCeil_nonneg : 0 ≤ f.sizeCeil

/-- The format of 64 bits contains one. -/
theorem containsOne_binary64 : binary64.ContainsOne :=
  ⟨by decide, by decide, by decide⟩

/-- Every wide format contains one. -/
theorem containsOne_wide (bits : Nat) : (wide bits).ContainsOne := by
  refine ⟨?_, ?_, ?_⟩
  · change -2147483648 - (widthOf bits : ℤ) ≤ 0
    omega
  · change (-2147483648 : ℤ) ≤ 1
    omega
  · change (0 : ℤ) ≤ 2147483647
    omega

/-- Zero is rounded to zero. -/
theorem roundRat_zero (f : Format) : f.roundRat 0 = .zero := by
  have hnearest : nearest 0 = 0 := nearest_natCast 0
  unfold roundRat
  split
  · rfl
  · rw [zero_div, hnearest]
    rfl

/-- What is below the least power of two that counts is rounded to zero. -/
theorem roundRat_eq_zero {f : Format} {q : ℚ} (hq : 0 < q) (h : q < 2 ^ (f.sizeFloor - 1)) :
    f.roundRat q = .zero := by
  have hlog := (Int.lt_zpow_iff_log_lt Nat.one_lt_two hq).mp (by exact_mod_cast h)
  rw [roundRat, if_pos (by omega)]

/-- What reaches the upper limit is rounded to the infinite size. -/
theorem roundRat_eq_infinite {f : Format} (hf : f.ContainsOne) {q : ℚ} (h : 2 ^ f.sizeCeil ≤ q) :
    f.roundRat q = .infinite := by
  obtain ⟨hunit, hfloor, hceil⟩ := hf
  have hq : 0 < q := lt_of_lt_of_le (by positivity) h
  have hlog := (Int.zpow_le_iff_le_log Nat.one_lt_two hq).mp (by exact_mod_cast h)
  have hprecision := f.precision_pos
  -- the power of two below the number is a multiple of the last bit that is kept
  have hunitOf : f.unitOf q ≤ Int.log 2 q := by
    unfold unitOf
    omega
  obtain ⟨k, hk⟩ := Int.le.dest hunitOf
  have hlow : (2 : ℚ) ^ Int.log 2 q ≤ q := by
    exact_mod_cast Int.zpow_log_le_self Nat.one_lt_two hq
  have hnearest : 2 ^ k ≤ nearest (q / 2 ^ f.unitOf q) := by
    have hbelow : 2 ^ k ≤ ⌊q / 2 ^ f.unitOf q⌋₊ := by
      apply Nat.le_floor
      rw [le_div_iff₀ (by positivity)]
      rw [← hk, zpow_add₀ two_ne_zero, zpow_natCast, mul_comm] at hlow
      exact_mod_cast hlow
    unfold nearest
    dsimp only
    split <;> omega
  have hne : nearest (q / 2 ^ f.unitOf q) ≠ 0 := by
    have := Nat.two_pow_pos k
    omega
  rw [roundRat, if_neg (by omega), Magnitude.ofScaled, dif_neg hne, bound, if_pos]
  rw [Dyadic.top_eq_log, Dyadic.toRat_ofScaled]
  have hlarge : (2 : ℚ) ^ Int.log 2 q ≤ nearest (q / 2 ^ f.unitOf q) * 2 ^ f.unitOf q := by
    have hcast : (2 : ℚ) ^ k ≤ nearest (q / 2 ^ f.unitOf q) := by exact_mod_cast hnearest
    conv => lhs; rw [← hk, zpow_add₀ two_ne_zero, zpow_natCast, mul_comm]
    exact mul_le_mul_of_nonneg_right hcast (by positivity)
  have hpos : (0 : ℚ) < nearest (q / 2 ^ f.unitOf q) * 2 ^ f.unitOf q :=
    lt_of_lt_of_le (by positivity) hlarge
  have hle := (Int.zpow_le_iff_le_log Nat.one_lt_two hpos).mp (by exact_mod_cast hlarge)
  omega

end Format

/-- The value of a decimal. -/
def Decimal.toRat (x : Decimal) : ℚ :=
  x.coeff * 10 ^ x.exp

/-- A decimal is below the power of ten that its digits name. -/
theorem Decimal.toRat_lt (x : Decimal) : x.toRat < 10 ^ (x.exp + digitCount x.coeff) := by
  have hcoeff : x.coeff < 10 ^ digitCount x.coeff := by
    have hpos : 0 < digitCount x.coeff := by
      rw [digitCount, digits_eq_toDigits]
      exact Nat.length_toDigits_pos
    refine (Nat.length_toDigits_le_iff (by decide) hpos).mp ?_
    rw [digitCount, digits_eq_toDigits]
  have hcast : (x.coeff : ℚ) < 10 ^ digitCount x.coeff := by exact_mod_cast hcoeff
  rw [zpow_add₀ (by norm_num), zpow_natCast, mul_comm, toRat]
  exact mul_lt_mul_of_pos_right hcast (by positivity)

/-- A power of ten is more than three powers of two, so a decimal with a large exponent is large. -/
theorem Decimal.two_pow_le_toRat {x : Decimal} (hcoeff : x.coeff ≠ 0) {k : ℕ} (hexp : x.exp = k)
    {top : ℤ} (h : top ≤ (3 * k : ℕ)) : 2 ^ top ≤ x.toRat := by
  have hone : (1 : ℚ) ≤ x.coeff := by exact_mod_cast Nat.one_le_iff_ne_zero.mpr hcoeff
  calc (2 : ℚ) ^ top ≤ 2 ^ ((3 * k : ℕ) : ℤ) := zpow_le_zpow_right₀ (by norm_num) h
    _ = 8 ^ k := by rw [zpow_natCast, pow_mul]; norm_num
    _ ≤ 10 ^ k := pow_le_pow_left₀ (by norm_num) (by norm_num) k
    _ ≤ x.coeff * 10 ^ k := le_mul_of_one_le_left (by positivity) hone
    _ = x.toRat := by rw [toRat, hexp, zpow_natCast]

/-- A decimal whose digits stand far behind the point is small. -/
theorem Decimal.toRat_lt_two_pow {x : Decimal} {k : ℕ} (hexp : x.exp + digitCount x.coeff = -k)
    {bottom : ℤ} (h : -((3 * k : ℕ) : ℤ) ≤ bottom) : x.toRat < 2 ^ bottom := by
  calc x.toRat < 10 ^ (x.exp + digitCount x.coeff) := x.toRat_lt
    _ = ((10 : ℚ) ^ k)⁻¹ := by rw [hexp, zpow_neg, zpow_natCast]
    _ ≤ ((8 : ℚ) ^ k)⁻¹ :=
        inv_anti₀ (by positivity) (pow_le_pow_left₀ (by norm_num) (by norm_num) k)
    _ = 2 ^ (-((3 * k : ℕ) : ℤ)) := by rw [zpow_neg, zpow_natCast, pow_mul]; norm_num
    _ ≤ 2 ^ bottom := zpow_le_zpow_right₀ (by norm_num) h

namespace Format

/-- A decimal is rounded as its value is. -/
theorem ofDecimal_eq_roundRat {f : Format} (hf : f.ContainsOne) (x : Decimal) :
    f.ofDecimal x = f.roundRat x.toRat := by
  have hfloor := hf.sizeFloor_le
  have hceil := hf.sizeCeil_nonneg
  unfold ofDecimal
  split
  · rename_i hcoeff
    rw [Decimal.toRat, hcoeff, Nat.cast_zero, zero_mul, roundRat_zero]
  rename_i hcoeff
  have hpos : 0 < x.toRat := by
    unfold Decimal.toRat
    positivity
  split
  · rename_i hlarge
    obtain ⟨k, hk⟩ := Int.eq_ofNat_of_zero_le (by omega : 0 ≤ x.exp)
    exact (roundRat_eq_infinite hf (Decimal.two_pow_le_toRat hcoeff hk (by omega))).symm
  split
  · rename_i hsmall
    obtain ⟨k, hk⟩ := Int.eq_ofNat_of_zero_le
      (by omega : 0 ≤ -(x.exp + Decimal.digitCount x.coeff))
    have hexp : x.exp + Decimal.digitCount x.coeff = -(k : ℤ) := by omega
    exact (roundRat_eq_zero hpos (Decimal.toRat_lt_two_pow hexp (by omega))).symm
  split
  · rename_i hexp
    obtain ⟨k, hk⟩ := Int.eq_ofNat_of_zero_le hexp
    have hne : x.coeff * Nat.pow 10 x.exp.toNat ≠ 0 :=
      Nat.mul_ne_zero hcoeff (Nat.ne_of_gt (Nat.pow_pos (by decide)))
    rw [Magnitude.ofScaled, dif_neg hne, roundSize_finite, Dyadic.toRat_ofScaled]
    congr 1
    simp [Decimal.toRat, hk]
  · rename_i hexp
    obtain ⟨k, hk⟩ := Int.eq_ofNat_of_zero_le (by omega : 0 ≤ -x.exp)
    have hden : Nat.pow 10 (-x.exp).toNat ≠ 0 := Nat.ne_of_gt (Nat.pow_pos (by decide))
    have hexp : x.exp = -(k : ℤ) := by omega
    rw [roundSize_ofRatio f hcoeff hden]
    congr 1
    simp [Decimal.toRat, hexp, zpow_neg, div_eq_mul_inv]

end Format

end Reckoner
