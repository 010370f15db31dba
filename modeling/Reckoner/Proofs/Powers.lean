import Mathlib.Analysis.SpecialFunctions.Pow.Real
import Reckoner.Proofs.ExactValues

/-!
# Wide powers

A wide power of a finite number other than zero is meant to be the real power, rounded once: of a
positive number with any exponent, of a negative one with an integer. `Format.roundSigned` says
which number that is, over the reals.

With a library that rounds the powers of positive numbers correctly (`Library.RoundsPowers`) the
effect of a power writes that number. There are two exceptions, the exponents zero and one, which
the library leaves unwritten: then the slot keeps the number that it held, with the other sign if
the base is negative and the exponent is one.

Main statement: `Wide.pow_rounded_or_kept`.
-/

set_option autoImplicit false

namespace Reckoner

/-! ### Rounding real numbers -/

/-- The integer nearest to a real that is not negative; a half goes to the even neighbour. -/
noncomputable def nearestReal (r : ℝ) : ℕ :=
  let below := ⌊r⌋₊
  if 2 * (r - below) < 1 ∨ (2 * (r - below) = 1 ∧ below % 2 = 0) then below else below + 1

/-- Of a rational it is the nearest integer. -/
theorem nearestReal_ratCast (q : ℚ) : nearestReal q = nearest q := by
  have hfloor : ⌊(q : ℝ)⌋₊ = ⌊q⌋₊ := by
    rw [← Int.floor_toNat, ← Int.floor_toNat, Rat.floor_cast]
  have hlt : 2 * ((q : ℝ) - (⌊q⌋₊ : ℕ)) < 1 ↔ 2 * (q - (⌊q⌋₊ : ℕ)) < 1 := by
    exact_mod_cast Iff.rfl
  have heq : 2 * ((q : ℝ) - (⌊q⌋₊ : ℕ)) = 1 ↔ 2 * (q - (⌊q⌋₊ : ℕ)) = 1 := by
    exact_mod_cast Iff.rfl
  simp only [nearestReal, nearest, hfloor, hlt, heq]

/-- A real is not rounded beyond an integer above it. -/
theorem nearestReal_le {r : ℝ} {n : ℕ} (hr : 0 ≤ r) (h : r < n) : nearestReal r ≤ n := by
  have hfloor : ⌊r⌋₊ < n := (Nat.floor_lt hr).mpr h
  unfold nearestReal
  dsimp only
  split
  · exact hfloor.le
  · exact hfloor

/-- The exponent of a rational is the same among the reals. -/
theorem log_ratCast {q : ℚ} (hq : 0 < q) : Int.log 2 (q : ℝ) = Int.log 2 q := by
  have hpos : (0 : ℝ) < q := by exact_mod_cast hq
  have hlow := (Rat.cast_le (K := ℝ)).mpr (Int.zpow_log_le_self Nat.one_lt_two hq)
  have hhigh := (Rat.cast_lt (K := ℝ)).mpr (Int.lt_zpow_succ_log_self Nat.one_lt_two q)
  push_cast at hlow hhigh
  have hle := (Int.zpow_le_iff_le_log Nat.one_lt_two hpos).mp (by exact_mod_cast hlow)
  have hlt := (Int.lt_zpow_iff_log_lt Nat.one_lt_two hpos).mp (by exact_mod_cast hhigh)
  omega

namespace Format

/-- The size of a format that is nearest to a positive real, a half going to the even mantissa. What
is too small becomes zero, what is too large infinite. -/
noncomputable def roundReal (f : Format) (r : ℝ) : Magnitude :=
  let unit := max (Int.log 2 r + 1 - f.precision) f.unitFloor
  if Int.log 2 r + 1 < f.sizeFloor then .zero
  else f.bound (Magnitude.ofScaled (nearestReal (r / 2 ^ unit)) unit)

/-- A rational is rounded as among the rationals. -/
theorem roundReal_ratCast (f : Format) {q : ℚ} (hq : 0 < q) : f.roundReal q = f.roundRat q := by
  have hquotient (k : ℤ) : (q : ℝ) / 2 ^ k = ((q / 2 ^ k : ℚ) : ℝ) := by push_cast; rfl
  simp only [roundReal, roundRat, unitOf, log_ratCast hq, hquotient, nearestReal_ratCast]

/-- The size nearest to a positive real fits. -/
theorem fits_roundReal (f : Format) {r : ℝ} (hr : 0 < r) : f.Fits (f.roundReal r) := by
  unfold roundReal
  dsimp only
  split
  · trivial
  · refine f.fits_bound_ofScaled _ _ (nearestReal_le (by positivity) ?_) (le_max_right _ _)
    have hunit := le_max_left (Int.log 2 r + 1 - f.precision) f.unitFloor
    generalize max (Int.log 2 r + 1 - f.precision) f.unitFloor = unit at hunit
    have hlog : r < (2 : ℝ) ^ (Int.log 2 r + 1) := by
      exact_mod_cast Int.lt_zpow_succ_log_self Nat.one_lt_two r
    have hpow : (2 : ℝ) ^ (Int.log 2 r + 1) ≤ 2 ^ ((f.precision : ℤ) + unit) :=
      zpow_le_zpow_right₀ one_le_two (by omega)
    rw [div_lt_iff₀ (by positivity), Nat.pow_eq, Nat.cast_pow, Nat.cast_ofNat, ← zpow_natCast,
      ← zpow_add₀ two_ne_zero]
    exact hlog.trans_le hpow

/-- The number of a format that is nearest to a real. -/
noncomputable def roundSigned (f : Format) (r : ℝ) : Number :=
  ⟨decide (r < 0), f.roundReal |r|⟩

/-- A positive real is rounded to a number without a minus sign. -/
theorem roundSigned_of_pos (f : Format) {r : ℝ} (h : 0 < r) :
    f.roundSigned r = ⟨false, f.roundReal r⟩ := by
  rw [roundSigned, abs_of_pos h, decide_eq_false (not_lt.mpr h.le)]

/-- A change of sign changes the sign of the rounding. -/
theorem roundSigned_neg (f : Format) {r : ℝ} (h : 0 < r) :
    f.roundSigned (-r) = (f.roundSigned r).neg := by
  rw [roundSigned_of_pos f h, roundSigned, abs_neg, abs_of_pos h,
    decide_eq_true (neg_lt_zero.mpr h)]
  rfl

/-- A positive number of the format is rounded to itself. -/
theorem roundSigned_of_fits {f : Format} {d : Dyadic} (hfits : f.Fits (.finite d))
    (hfloor : f.sizeFloor ≤ d.top) : f.roundSigned d.toRat = ⟨false, .finite d⟩ := by
  rw [roundSigned_of_pos f (by exact_mod_cast d.toRat_pos), roundReal_ratCast f d.toRat_pos,
    roundRat_of_fits hfits hfloor]

end Format

/-! ### Integers among numbers -/

/-- A dyadic that is an integer has no bits behind the point. -/
theorem Dyadic.eq_of_toRat_eq_natCast {d : Dyadic} {n : ℕ} (h : d.toRat = n) :
    0 ≤ d.exp ∧ n = d.mant * 2 ^ d.exp.toNat := by
  have hexp : 0 ≤ d.exp := by
    by_contra hneg
    obtain ⟨k, hk⟩ := Int.le.dest (show d.exp + 1 ≤ 0 by omega)
    have hmant : (d.mant : ℚ) = n * 2 ^ (k + 1) := by
      have hexp : d.exp = -((k + 1 : ℕ) : ℤ) := by push_cast; omega
      rw [← h, toRat, hexp, zpow_neg, zpow_natCast, mul_assoc, inv_mul_cancel₀ (by positivity),
        mul_one]
    have hodd := d.odd
    have heven : d.mant = n * 2 ^ k * 2 := by
      rw [mul_assoc, ← pow_succ]
      exact_mod_cast hmant
    omega
  refine ⟨hexp, ?_⟩
  obtain ⟨k, hk⟩ := Int.eq_ofNat_of_zero_le hexp
  rw [toRat, hk, zpow_natCast] at h
  rw [hk, Int.toNat_natCast]
  exact_mod_cast h.symm

/-- A dyadic without bits behind the point is an integer. -/
theorem Dyadic.toRat_eq_natCast {d : Dyadic} (h : 0 ≤ d.exp) :
    d.toRat = (d.mant * 2 ^ d.exp.toNat : ℕ) := by
  obtain ⟨k, hk⟩ := Int.eq_ofNat_of_zero_le h
  rw [toRat, hk, Int.toNat_natCast, zpow_natCast]
  push_cast
  rfl

/-- An integer is odd if it has no factor of two. -/
theorem Dyadic.odd_mul_two_pow_iff {d : Dyadic} (h : 0 ≤ d.exp) :
    Odd (d.mant * 2 ^ d.exp.toNat) ↔ d.exp = 0 := by
  have hmant : Odd d.mant := Nat.odd_iff.mpr d.odd
  rw [Nat.odd_mul]
  constructor
  · rintro ⟨-, hpow⟩
    by_contra hne
    have heven : Even (2 ^ d.exp.toNat) := Nat.even_pow.mpr ⟨even_two, by omega⟩
    exact Nat.not_odd_iff_even.mpr heven hpow
  · intro hzero
    simp [hzero, hmant]

namespace Number

variable {y : Number} {q : ℚ}

/-- The size of an integer with a sign. -/
theorem natAbs_of_signed_eq {negative : Bool} {d : Dyadic} {n : ℤ}
    (h : signed negative d.toRat = n) : d.toRat = n.natAbs := by
  rw [← abs_signed negative d.toRat_pos.le, h, ← Int.cast_abs, Int.abs_eq_natAbs, Int.cast_natCast]

/-- A number is an integer if its value is. -/
theorem isInteger_iff (h : y.toRat? = some q) : y.isInteger = true ↔ ∃ n : ℤ, q = n := by
  rcases toRat?_cases h with ⟨hsize, rfl⟩ | ⟨d, hsize, rfl⟩
  · simp only [isInteger, hsize, true_iff]
    exact ⟨0, by simp⟩
  · simp only [isInteger, hsize, decide_eq_true_eq]
    constructor
    · intro hexp
      rw [Dyadic.toRat_eq_natCast hexp]
      cases y.negative
      · exact ⟨(d.mant * 2 ^ d.exp.toNat : ℕ), by simp [signed]⟩
      · exact ⟨-(d.mant * 2 ^ d.exp.toNat : ℕ), by simp [signed]⟩
    · rintro ⟨n, hn⟩
      exact (Dyadic.eq_of_toRat_eq_natCast (natAbs_of_signed_eq hn)).1

/-- A number is odd if its value is. -/
theorem isOdd_iff (h : y.toRat? = some q) {n : ℤ} (hn : q = n) : y.isOdd = true ↔ Odd n := by
  rcases toRat?_cases h with ⟨hsize, hq⟩ | ⟨d, hsize, hq⟩
  · have hzero : n = 0 := by
      rw [hn] at hq
      exact_mod_cast hq
    simp [isOdd, hsize, hzero]
  · obtain ⟨hexp, hsplit⟩ := Dyadic.eq_of_toRat_eq_natCast (natAbs_of_signed_eq (hq.symm.trans hn))
    simp only [isOdd, hsize, decide_eq_true_eq]
    rw [← Int.natAbs_odd, hsplit, Dyadic.odd_mul_two_pow_iff hexp]

/-- The odd numbers are those with an odd integer as value. -/
theorem isOdd_iff_exists (h : y.toRat? = some q) :
    y.isOdd = true ↔ ∃ n : ℤ, q = n ∧ Odd n := by
  constructor
  · intro hodd
    have hinteger : y.isInteger = true := by
      unfold isOdd at hodd
      unfold isInteger
      cases hsize : y.size with
      | zero => rfl
      | infinite => simp [hsize] at hodd
      | finite d =>
        simp only [hsize, decide_eq_true_eq] at hodd
        simp [hodd]
    obtain ⟨n, hn⟩ := (isInteger_iff h).mp hinteger
    exact ⟨n, hn, (isOdd_iff h hn).mp hodd⟩
  · rintro ⟨n, hn, hodd⟩
    exact (isOdd_iff h hn).mpr hodd

/-- A number with the value one is one. -/
theorem eq_one_iff (h : y.toRat? = some q) : y = one ↔ q = 1 := by
  have hone : (Dyadic.twoPow 0).toRat = 1 := by simp [Dyadic.toRat, Dyadic.twoPow]
  constructor
  · rintro rfl
    have hvalue : one.toRat? = some (Dyadic.twoPow 0).toRat := rfl
    rw [hone, h] at hvalue
    exact Option.some.inj hvalue
  · rintro rfl
    rcases toRat?_cases h with ⟨-, hzero⟩ | ⟨d, hsize, hd⟩
    · exact absurd hzero one_ne_zero
    · have hpos := d.toRat_pos
      obtain ⟨negative, size⟩ := y
      cases hsize
      cases negative with
      | true =>
        simp only [signed, if_true] at hd
        linarith
      | false =>
        have hsame : Dyadic.twoPow 0 = d := Dyadic.toRat_injective (hone.trans hd)
        rw [← hsame]
        rfl

end Number

/-! ### Libraries that round powers -/

/-- The real power of a positive number is positive. -/
theorem Dyadic.rpow_pos (base : Dyadic) (q : ℚ) : (0 : ℝ) < (base.toRat : ℝ) ^ (q : ℝ) :=
  Real.rpow_pos_of_pos (by exact_mod_cast base.toRat_pos) _

namespace Library

/-- Whether the powers within the range of wide powers are the real powers, rounded once, for all
exponents other than zero and one. -/
def RoundsPowers (lib : Library) : Prop :=
  ∀ (bits : ℕ) (base : Dyadic) (y : Number) (q : ℚ), y.toRat? = some q → q ≠ 0 → q ≠ 1 →
    Wide.powInRange base y = true →
    lib.pow (Format.wide bits) base y =
      some ((Format.wide bits).roundSigned ((base.toRat : ℝ) ^ (q : ℝ)))

/-- The real power, rounded once, unless the exponent is zero, one or infinite. -/
noncomputable def powIdeal (f : Format) (base : Dyadic) (y : Number) : Option Number :=
  y.toRat?.bind fun q ↦
    if q = 0 ∨ q = 1 then none else some (f.roundSigned ((base.toRat : ℝ) ^ (q : ℝ)))

/-- A power that is written is a real power, rounded. -/
theorem powIdeal_cases {f : Format} {base : Dyadic} {y x : Number}
    (h : powIdeal f base y = some x) :
    ∃ q : ℚ, x = ⟨false, f.roundReal ((base.toRat : ℝ) ^ (q : ℝ))⟩ := by
  obtain ⟨q, -, hq⟩ := Option.bind_eq_some_iff.mp h
  split at hq
  · cases hq
  · refine ⟨q, ?_⟩
    rw [← Option.some.inj hq, f.roundSigned_of_pos (base.rpow_pos q)]

/-- A library whose powers are the real powers, rounded once. -/
noncomputable def ideal : Library :=
  { standard with
    pow := powIdeal
    pow_fits := by
      intro f base y x h
      obtain ⟨q, rfl⟩ := powIdeal_cases h
      exact f.fits_roundReal (base.rpow_pos q)
    pow_nonneg := by
      intro f base y x h
      obtain ⟨q, rfl⟩ := powIdeal_cases h
      rfl }

/-- The ideal library rounds powers. -/
theorem roundsPowers_ideal : ideal.RoundsPowers := by
  intro bits base y q hy hzero hone _
  change powIdeal (Format.wide bits) base y = _
  simp [powIdeal, hy, hzero, hone]

/-- The ideal library leaves the powers with the exponents zero and one unwritten. -/
theorem leavesTrivialPowers_ideal : ideal.LeavesTrivialPowers := by
  intro f base y htrivial
  change powIdeal f base y = none
  rcases htrivial with hzero | rfl
  · simp [powIdeal, Number.toRat?, hzero, Magnitude.toRat?]
  · have hone : Number.one.toRat? = some 1 := by
      rw [Number.toRat?_of_size (x := Number.one) rfl]
      simp [Number.one, signed, Dyadic.toRat, Dyadic.twoPow]
    simp [powIdeal, hone]

end Library

/-! ### The effect of a power -/

namespace Wide

variable {lib : Library} {f : Format} {x y : Number} {base : Dyadic} {p q : ℚ}

/-- Assumes: a library that leaves trivial powers. With an exponent of zero or one a power writes
nothing. -/
theorem powPositive_eq_keep (hleaves : lib.LeavesTrivialPowers) (hy : y.toRat? = some q)
    (htrivial : q = 0 ∨ q = 1) : powPositive lib f base y = .keep := by
  have hexponent : y.size = .zero ∨ y = Number.one := by
    rcases htrivial with rfl | rfl
    · rcases Number.toRat?_cases hy with ⟨hsize, -⟩ | ⟨exponent, -, hq⟩
      · exact Or.inl hsize
      · have habs := abs_signed y.negative exponent.toRat_pos.le
        rw [← hq, abs_zero] at habs
        exact absurd habs exponent.toRat_pos.ne
    · exact Or.inr ((Number.eq_one_iff hy).mpr rfl)
  rw [powPositive, hleaves f base y hexponent, Option.elim_none]

/-- A power within the range that has a real value is computed wide: as that of the positive base,
with the other sign for an odd power of a negative base. -/
theorem pow_eq_some (hx : x.size = .finite base) (hy : y.toRat? = some q)
    (hrange : powInRange base y = true) (hsign : x.negative = true → y.isInteger = true) :
    pow lib f x y = some (if x.negative && y.isOdd then (powPositive lib f base y).negated
      else powPositive lib f base y) := by
  have hfinite : y.isInfinite = false := by
    rcases Number.toRat?_cases hy with ⟨hsize, -⟩ | ⟨exponent, hsize, -⟩
    · simp [Number.isInfinite, hsize]
    · simp [Number.isInfinite, hsize]
  simp only [pow, hx, hfinite, hrange]
  cases hnegative : x.negative with
  | false => simp
  | true =>
    have hinteger := hsign hnegative
    cases hodd : y.isOdd <;> simp [hinteger]

/-- The sign of a finite number other than zero is that of its value. -/
theorem negative_iff (hx : x.size = .finite base) (hp : x.toRat? = some p) :
    x.negative = true ↔ p < 0 := by
  have hpos := base.toRat_pos
  have hvalue : p = signed x.negative base.toRat := by
    rw [Number.toRat?, hx] at hp
    exact (Option.some.inj hp).symm
  rw [hvalue]
  cases x.negative
  · simpa [signed] using hpos.le
  · simpa [signed] using hpos

/-- A power that is computed wide is computed in a fresh slot, which holds a zero. -/
theorem arithmetic_of_pow_eq_some {effect : SlotEffect} (h : pow lib f x y = some effect)
    (span : Span) : arithmetic lib f span .pow x y = .ok (effect.apply Number.zero) := by
  simp only [arithmetic, h]

/-- The reciprocal of one is one. -/
theorem div_one_one (bits : ℕ) :
    (Format.wide bits).div Number.one Number.one = some Number.one := by
  have hfits : (Format.wide bits).Fits (.finite (Dyadic.twoPow 0)) := by
    obtain ⟨hunit, -, -⟩ := Format.containsOne_wide bits
    have hceil : (1 : ℤ) ≤ 2147483647 := by decide
    exact ⟨Nat.one_lt_two_pow (Format.widthOf_pos bits).ne', hunit, hceil⟩
  have hround := Format.roundSize_reciprocal_of_eq_one bits hfits rfl
  obtain ⟨y, hy⟩ : ∃ y, (Format.wide bits).div Number.one Number.one = some y := ⟨_, rfl⟩
  rw [hy, div_one_of_finite rfl hy, hround]
  rfl

/-- A first root is the power with exponent one. -/
theorem callEffect_unitRoot {bits : ℕ} (hx : x.size = .finite base) (span : Span)
    {effect : SlotEffect} (h : pow lib (Format.wide bits) x Number.one = some effect) :
    callEffect lib (Format.wide bits) span .root [Number.one, x] = .ok effect := by
  have hinfinite : [Number.one, x].any Number.isInfinite = false := by
    simp [Number.isInfinite, Number.one, hx]
  have hwide : Function.applyWide lib (Format.wide bits) .root [Number.one, x] = some effect := by
    change root lib (Format.wide bits) Number.one x = some effect
    have hzero : Number.one.isZero = false := rfl
    rw [root, hzero, div_one_one]
    exact h
  simp [callEffect, hinfinite, hwide]

/-- The real power of a number, by the power of its size: it has the other sign for an odd power of
a negative number. -/
theorem rpow_eq (hx : x.size = .finite base) (hp : x.toRat? = some p) (hy : y.toRat? = some q)
    (hreal : x.negative = true → y.isInteger = true) :
    (p : ℝ) ^ (q : ℝ) = if x.negative && y.isOdd then -((base.toRat : ℝ) ^ (q : ℝ))
      else (base.toRat : ℝ) ^ (q : ℝ) := by
  have hvalue : p = signed x.negative base.toRat := by
    rw [Number.toRat?, hx] at hp
    exact (Option.some.inj hp).symm
  cases hnegative : x.negative with
  | false => simp [hvalue, hnegative, signed]
  | true =>
    obtain ⟨n, hn⟩ := (Number.isInteger_iff hy).mp (hreal hnegative)
    have hodd := Number.isOdd_iff hy hn
    have hpow (r : ℝ) : r ^ (q : ℝ) = r ^ n := by
      rw [hn, Rat.cast_intCast, Real.rpow_intCast]
    have hcast : (p : ℝ) = -(base.toRat : ℝ) := by simp [hvalue, hnegative, signed]
    rw [hpow, hpow, hcast]
    cases hparity : y.isOdd with
    | true => simp [(hodd.mp hparity).neg_zpow]
    | false =>
      have heven : Even n := by
        rw [← Int.not_odd_iff_even, ← hodd, hparity]
        exact Bool.false_ne_true
      simp [heven.neg_zpow]

/-- Assumes: a library that rounds powers, and a power within the range that has a real value and an
exponent other than zero and one. What is written is the real power, rounded. -/
theorem apply_eq_roundSigned (hrounds : lib.RoundsPowers) (bits : ℕ) (hx : x.size = .finite base)
    (hp : x.toRat? = some p) (hy : y.toRat? = some q) (hrange : powInRange base y = true)
    (hreal : x.negative = true → y.isInteger = true) (hzero : q ≠ 0) (hone : q ≠ 1)
    (old : Number) :
    (if x.negative && y.isOdd then (powPositive lib (Format.wide bits) base y).negated
      else powPositive lib (Format.wide bits) base y).apply old =
      (Format.wide bits).roundSigned ((p : ℝ) ^ (q : ℝ)) := by
  rw [rpow_eq hx hp hy hreal, powPositive, hrounds bits base y q hy hzero hone hrange]
  split
  · rw [Format.roundSigned_neg _ (base.rpow_pos q)]
    rfl
  · rfl

/-- A power with a real value is negative if it is an odd power of a negative number. -/
theorem negative_roundSigned_rpow (hx : x.size = .finite base) (hp : x.toRat? = some p)
    (hy : y.toRat? = some q) (hreal : x.negative = true → y.isInteger = true) :
    (f.roundSigned ((p : ℝ) ^ (q : ℝ))).negative = true ↔ p < 0 ∧ ∃ n : ℤ, q = n ∧ Odd n := by
  have hpos := base.rpow_pos q
  rw [← negative_iff hx hp, ← Number.isOdd_iff_exists hy, rpow_eq hx hp hy hreal,
    ← Bool.and_eq_true]
  cases x.negative && y.isOdd with
  | true => simp [f.roundSigned_neg hpos, f.roundSigned_of_pos hpos, Number.neg]
  | false => simp [f.roundSigned_of_pos hpos]

/-- Assumes: a library that leaves trivial powers. With the exponent zero or one a power keeps the
old number, with the other sign for the first power of a negative number. -/
theorem apply_eq_old (hleaves : lib.LeavesTrivialPowers) (hx : x.size = .finite base)
    (hp : x.toRat? = some p) (hy : y.toRat? = some q) (htrivial : q = 0 ∨ q = 1) (old : Number) :
    (if x.negative && y.isOdd then (powPositive lib f base y).negated
      else powPositive lib f base y).apply old = if p < 0 ∧ q = 1 then old.neg else old := by
  have hodd : y.isOdd = true ↔ q = 1 := by
    rcases htrivial with rfl | rfl
    · simp [Number.isOdd_iff hy (n := 0) (by simp)]
    · simp [Number.isOdd_iff hy (n := 1) (by simp)]
  have hcondition : (x.negative && y.isOdd) = true ↔ p < 0 ∧ q = 1 := by
    rw [Bool.and_eq_true, negative_iff hx hp, hodd]
  rw [powPositive_eq_keep hleaves hy htrivial]
  simp only [hcondition]
  split <;> rfl

/-- Assumes: a library that rounds powers, and leaves those with the exponents zero and one
unwritten; a finite number other than zero and an exponent, with an integer exponent if the number
is negative, and a power within the range. The power is computed wide. With any exponent but zero
and one the slot holds the real power, rounded, whatever it held before; and this is negative for
the odd powers of a negative number only. With the exponent zero or one the slot keeps what it held,
with the other sign for the first power of a negative number: so the operator gives a zero, and the
first root leaves an old number. -/
theorem pow_rounded_or_kept (hrounds : lib.RoundsPowers) (hleaves : lib.LeavesTrivialPowers)
    {bits : ℕ} (hx : x.size = .finite base) (hp : x.toRat? = some p) (hy : y.toRat? = some q)
    (hrange : powInRange base y = true) (hreal : 0 < p ∨ ∃ n : ℤ, q = n) :
    ∃ effect, pow lib (Format.wide bits) x y = some effect ∧
      (q ≠ 0 → q ≠ 1 → ∀ old,
        effect.apply old = (Format.wide bits).roundSigned ((p : ℝ) ^ (q : ℝ)) ∧
          ((effect.apply old).negative = true ↔ p < 0 ∧ ∃ n : ℤ, q = n ∧ Odd n)) ∧
      (q = 0 ∨ q = 1 →
        (∀ old, effect.apply old = if p < 0 ∧ q = 1 then old.neg else old) ∧
        (∀ span, arithmetic lib (Format.wide bits) span .pow x y =
          .ok ⟨decide (p < 0 ∧ q = 1), .zero⟩) ∧
        (q = 1 → ∀ span,
          callEffect lib (Format.wide bits) span .root [Number.one, x] = .ok effect)) := by
  have hinteger : x.negative = true → y.isInteger = true := by
    intro hnegative
    have hbelow := (negative_iff hx hp).mp hnegative
    rw [Number.isInteger_iff hy]
    exact hreal.resolve_left hbelow.le.not_gt
  have hpow := @pow_eq_some lib (Format.wide bits) _ _ _ _ hx hy hrange hinteger
  refine ⟨_, hpow, ?_, ?_⟩
  · intro hzero hone old
    rw [apply_eq_roundSigned hrounds bits hx hp hy hrange hinteger hzero hone old]
    exact ⟨rfl, negative_roundSigned_rpow hx hp hy hinteger⟩
  · intro htrivial
    have hkept := apply_eq_old (f := Format.wide bits) hleaves hx hp hy htrivial
    refine ⟨hkept, ?_, ?_⟩
    · intro span
      rw [arithmetic_of_pow_eq_some hpow, hkept]
      by_cases hsign : p < 0 ∧ q = 1
      · rw [if_pos hsign, decide_eq_true hsign]
        rfl
      · rw [if_neg hsign, decide_eq_false hsign]
        rfl
    · intro hone span
      have hunit := (Number.eq_one_iff hy).mpr hone
      rw [hunit] at hpow ⊢
      exact callEffect_unitRoot hx span hpow

/-- Five. -/
def five : Dyadic :=
  ⟨5, 0, rfl⟩

/-- The value of five. -/
theorem toRat_five : five.toRat = 5 := by
  norm_num [Dyadic.toRat, five]

/-- The fifth power of minus five, rounded to 64 bits. -/
theorem roundSigned_fifth :
    (Format.wide 64).roundSigned ((-5 : ℝ) ^ (5 : ℝ)) = ⟨true, .finite ⟨3125, 0, rfl⟩⟩ := by
  have hvalue : (-5 : ℝ) ^ (5 : ℝ) = -((Dyadic.toRat ⟨3125, 0, rfl⟩ : ℚ) : ℝ) := by
    norm_num [Dyadic.toRat]
  have hround := Format.roundSigned_of_fits (f := Format.wide 64) (d := ⟨3125, 0, rfl⟩) (by decide)
    (by decide)
  rw [hvalue, Format.roundSigned_neg _ (by norm_num [Dyadic.toRat]), hround]
  rfl

/-- With the ideal library the fifth power of minus five is minus 3125, whatever the slot held. The
library of the running program writes the same. -/
theorem pow_rounded_or_kept_fifth :
    Library.ideal.RoundsPowers ∧ Library.ideal.LeavesTrivialPowers ∧
      (∃ effect, pow Library.ideal (Format.wide 64) ⟨true, .finite five⟩ ⟨false, .finite five⟩ =
        some effect ∧ ∀ old, effect.apply old = ⟨true, .finite ⟨3125, 0, rfl⟩⟩) ∧
      pow Library.standard (Format.wide 64) ⟨true, .finite five⟩ ⟨false, .finite five⟩ =
        some (.write ⟨true, .finite ⟨3125, 0, rfl⟩⟩) := by
  have hvalue (negative : Bool) :
      Number.toRat? ⟨negative, .finite five⟩ = some (signed negative 5) := by
    rw [Number.toRat?_of_size (x := ⟨negative, .finite five⟩) rfl, toRat_five]
  obtain ⟨effect, hpow, hwritten, -⟩ := @pow_rounded_or_kept Library.ideal ⟨true, .finite five⟩
    ⟨false, .finite five⟩ five (-5) 5 Library.roundsPowers_ideal Library.leavesTrivialPowers_ideal
    64 rfl (hvalue true) (hvalue false) (by decide +kernel) (Or.inr ⟨5, by norm_num⟩)
  refine ⟨Library.roundsPowers_ideal, Library.leavesTrivialPowers_ideal, ⟨effect, hpow, ?_⟩, rfl⟩
  intro old
  rw [(hwritten (by norm_num) (by norm_num) old).1, ← roundSigned_fifth]
  norm_num

/-- The first power of two, computed in the slot of a zero, is not two: neither with the ideal
library nor with that of the running program. -/
theorem pow_two_one_ne :
    Library.ideal.RoundsPowers ∧ Library.ideal.LeavesTrivialPowers ∧
      ∃ effect effect',
        pow Library.ideal (Format.wide 64) ⟨false, .finite (Dyadic.twoPow 1)⟩ Number.one =
          some effect ∧
        pow Library.standard (Format.wide 64) ⟨false, .finite (Dyadic.twoPow 1)⟩ Number.one =
          some effect' ∧
        effect.apply Number.zero ≠ (Format.wide 64).roundSigned ((2 : ℝ) ^ (1 : ℝ)) ∧
        effect'.apply Number.zero ≠ (Format.wide 64).roundSigned ((2 : ℝ) ^ (1 : ℝ)) := by
  have hround := Format.roundSigned_of_fits (f := Format.wide 64) (d := Dyadic.twoPow 1) (by decide)
    (by decide)
  have hvalue : (2 : ℝ) ^ (1 : ℝ) = ((Dyadic.twoPow 1).toRat : ℚ) := by
    norm_num [Dyadic.toRat, Dyadic.twoPow]
  have hpower : powPositive Library.ideal (Format.wide 64) (Dyadic.twoPow 1) Number.one =
      .keep := by
    rw [powPositive, Library.leavesTrivialPowers_ideal _ _ _ (Or.inr rfl), Option.elim_none]
  have hpow : pow Library.ideal (Format.wide 64) ⟨false, .finite (Dyadic.twoPow 1)⟩ Number.one =
      some (powPositive Library.ideal (Format.wide 64) (Dyadic.twoPow 1) Number.one) := rfl
  rw [hpower] at hpow
  refine ⟨Library.roundsPowers_ideal, Library.leavesTrivialPowers_ideal, .keep, .keep, hpow, rfl,
    ?_, ?_⟩
  · rw [hvalue, hround]
    decide
  · rw [hvalue, hround]
    decide

end Wide

end Reckoner
