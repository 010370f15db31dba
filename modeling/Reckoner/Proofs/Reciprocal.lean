import Mathlib.Algebra.Ring.Nat
import Reckoner.Number.Basic

/-!
# The rounded reciprocal of a wide number

The reciprocal of a number of a wide format, rounded to this format, is never zero, because the
format reaches as far up as down. It is one only for one: the neighbours of one on either side have
reciprocals that are nearer to another number of the format.

A power of two has an exact reciprocal. The reciprocal of any other number is cut to an odd mantissa
of four bits more than the precision (`Dyadic.div_one_of_ne_one`), so rounding it is rounding a
sixteenth of that mantissa (`Format.roundSize_reciprocal_of_ne_one`).

Main statements: `Format.reciprocal_ne_zero` and `Format.eq_one_of_reciprocal`.
-/

set_option autoImplicit false

namespace Reckoner

/-! ### Lengths and factors of two -/

/-- A number has the length that the powers of two around it name. -/
theorem bitLength_eq_succ_iff {n k : Nat} : bitLength n = k + 1 ↔ 2 ^ k ≤ n ∧ n < 2 ^ (k + 1) := by
  unfold bitLength
  split
  · rename_i hzero
    have hpos : 0 < 2 ^ k := Nat.two_pow_pos k
    omega
  · rename_i hne
    rw [← Nat.log2_eq_iff hne]
    omega

/-- An odd divisor of a power of two is one. -/
theorem eq_one_of_odd_of_dvd_two_pow {m k : Nat} (hodd : m % 2 = 1) (hdvd : m ∣ 2 ^ k) :
    m = 1 := by
  have hcoprime : Nat.Coprime m 2 := by
    rw [Nat.coprime_comm, Nat.coprime_iff_gcd_eq_one, Nat.gcd_rec, hodd]
    rfl
  exact (hcoprime.pow_right k).eq_one_of_dvd hdvd

/-- An odd number has no factor of two to take out. -/
theorem takeTwos_of_odd (limit : Nat) {n : Nat} (hodd : n % 2 = 1) :
    takeTwos limit n = (n, 0) := by
  cases limit with
  | zero => rfl
  | succ limit =>
    unfold takeTwos
    exact if_neg (by omega)

namespace Dyadic

/-- A dyadic is given by its mantissa and exponent, whatever shows that it is positive. -/
theorem ofScaled_congr {mant mant' : Nat} {exp exp' : Int} (hmant : mant = mant')
    (hexp : exp = exp') (pos : mant ≠ 0) (pos' : mant' ≠ 0) :
    ofScaled mant exp pos = ofScaled mant' exp' pos' := by
  subst hmant
  subst hexp
  rfl

/-- An odd mantissa is kept as it is. -/
theorem ofScaled_of_odd {mant : Nat} (exp : Int) (pos : mant ≠ 0) (hodd : mant % 2 = 1) :
    ofScaled mant exp pos = ⟨mant, exp, hodd⟩ := by
  simp only [ofScaled, takeTwos_of_odd mant.log2 hodd, mk.injEq, true_and]
  omega

/-- A dyadic with the value of a power of two is this power of two. -/
theorem ofScaled_two_pow (k : Nat) (exp : Int) (pos : 2 ^ k ≠ 0) :
    ofScaled (2 ^ k) exp pos = twoPow (exp + k) := by
  have hmul := ofScaled_mul (2 ^ k) exp pos
  have hle := le_exp_ofScaled (2 ^ k) exp pos
  have hmant : (ofScaled (2 ^ k) exp pos).mant = 1 :=
    eq_one_of_odd_of_dvd_two_pow (ofScaled (2 ^ k) exp pos).odd ⟨_, hmul.symm⟩
  rw [hmant, Nat.one_mul, Nat.pow_eq] at hmul
  have hshift : ((ofScaled (2 ^ k) exp pos).exp - exp).toNat = k :=
    (Nat.pow_right_inj Nat.one_lt_two).mp hmul
  have hexp : (ofScaled (2 ^ k) exp pos).exp = exp + k := by omega
  cases hd : ofScaled (2 ^ k) exp pos with
  | mk mant exp' odd =>
    rw [hd] at hmant hexp
    cases hmant
    cases hexp
    rfl

/-! ### Reciprocals before rounding -/

/-- The mantissa of a reciprocal that is no dyadic, cut for a later rounding to `width` bits; the
last bit stands for what is cut off. -/
def cutReciprocal (width m : Nat) : Nat :=
  2 * (2 ^ (width + 2 + bitLength m) / m) + 1

/-- A reciprocal from its cut mantissa. -/
theorem div_one_eq_ofScaled (width : Nat) (d : Dyadic) {mant : Nat} (pos : mant ≠ 0)
    (hmant : 2 * (2 ^ (width + 2 + d.bits) / d.mant) +
      (if 2 ^ (width + 2 + d.bits) % d.mant = 0 then 0 else 1) = mant) :
    div width (twoPow 0) d = ofScaled mant (-d.exp - (width + 2 + d.bits : Nat) - 1) pos := by
  rw [← Nat.one_shiftLeft] at hmant
  exact ofScaled_congr hmant (congrArg (· - _ - 1) (Int.zero_sub d.exp)) (hmant ▸ pos) pos

/-- A power of two has an exact reciprocal. -/
theorem div_one_of_eq_one (width : Nat) {d : Dyadic} (h : d.mant = 1) :
    div width (twoPow 0) d = twoPow (-d.exp) := by
  have hmant : 2 * (2 ^ (width + 2 + d.bits) / d.mant) +
      (if 2 ^ (width + 2 + d.bits) % d.mant = 0 then 0 else 1) = 2 ^ (width + 2 + d.bits + 1) := by
    rw [h, Nat.div_one, Nat.mod_one, if_pos rfl, Nat.pow_succ]
    omega
  rw [div_one_eq_ofScaled width d (Nat.ne_of_gt (Nat.two_pow_pos _)) hmant, ofScaled_two_pow]
  congr 1
  omega

/-- The reciprocal of a number that is no power of two is cut to an odd mantissa. -/
theorem div_one_of_ne_one (width : Nat) {d : Dyadic} (h : d.mant ≠ 1) :
    (div width (twoPow 0) d).mant = cutReciprocal width d.mant ∧
      (div width (twoPow 0) d).exp = -d.exp - (width + 2 + d.bits : Nat) - 1 := by
  have hrest : 2 ^ (width + 2 + d.bits) % d.mant ≠ 0 := by
    intro hzero
    exact h (eq_one_of_odd_of_dvd_two_pow d.odd (Nat.dvd_of_mod_eq_zero hzero))
  have hmant : 2 * (2 ^ (width + 2 + d.bits) / d.mant) +
      (if 2 ^ (width + 2 + d.bits) % d.mant = 0 then 0 else 1) = cutReciprocal width d.mant := by
    rw [if_neg hrest]
    rfl
  have hodd : cutReciprocal width d.mant % 2 = 1 := by
    unfold cutReciprocal
    omega
  rw [div_one_eq_ofScaled width d (by omega) hmant, ofScaled_of_odd _ _ hodd]
  exact ⟨rfl, rfl⟩

/-- An odd number other than one lies strictly between the powers of two around it. -/
theorem two_pow_lt_of_odd {m : Nat} (hodd : m % 2 = 1) (hne : m ≠ 1) :
    ∃ k, bitLength m = k + 1 ∧ 2 ^ k < m ∧ m < 2 ^ (k + 1) := by
  obtain ⟨k, hk⟩ : ∃ k, bitLength m = k + 1 := by
    unfold bitLength
    exact ⟨m.log2, if_neg (by omega)⟩
  obtain ⟨hle, hlt⟩ := bitLength_eq_succ_iff.mp hk
  refine ⟨k, hk, Nat.lt_of_le_of_ne hle ?_, hlt⟩
  intro heq
  exact hne (eq_one_of_odd_of_dvd_two_pow (k := k) hodd ⟨1, by omega⟩)

/-- The cut reciprocal has four bits more than the width. -/
theorem cutReciprocal_bounds (width : Nat) {m : Nat} (hodd : m % 2 = 1) (hne : m ≠ 1) :
    2 ^ (width + 3) ≤ cutReciprocal width m ∧ cutReciprocal width m < 2 ^ (width + 4) := by
  obtain ⟨k, hk, hlo, hhi⟩ := two_pow_lt_of_odd hodd hne
  have hshift : 2 ^ (width + 2 + (k + 1)) = 2 ^ (width + 2) * 2 ^ (k + 1) := Nat.pow_add ..
  have hlower : 2 ^ (width + 2) ≤ 2 ^ (width + 2 + (k + 1)) / m := by
    rw [Nat.le_div_iff_mul_le (by omega), hshift]
    exact Nat.mul_le_mul_left _ (Nat.le_of_lt hhi)
  have hupper : 2 ^ (width + 2 + (k + 1)) / m < 2 ^ (width + 3) := by
    rw [Nat.div_lt_iff_lt_mul (by omega)]
    calc 2 ^ (width + 2 + (k + 1)) = 2 ^ (width + 3) * 2 ^ k := by
          rw [← Nat.pow_add]
          congr 1
          omega
      _ < 2 ^ (width + 3) * m := Nat.mul_lt_mul_of_pos_left hlo (Nat.two_pow_pos _)
  have hdouble : 2 ^ (width + 3) = 2 * 2 ^ (width + 2) := by
    rw [Nat.pow_succ, Nat.mul_comm]
  have hquadruple : 2 ^ (width + 4) = 2 * 2 ^ (width + 3) := by
    rw [Nat.pow_succ, Nat.mul_comm]
  unfold cutReciprocal
  rw [hk]
  omega

/-! ### Reciprocals after rounding -/

/-- The mantissa of a size that is one is a power of two. -/
theorem eq_two_pow_of_ofScaled {mant : Nat} {exp : Int}
    (h : Magnitude.ofScaled mant exp = .finite (twoPow 0)) : mant = 2 ^ (-exp).toNat := by
  unfold Magnitude.ofScaled at h
  split at h
  · cases h
  · rename_i hpos
    have hd : ofScaled mant exp hpos = twoPow 0 := Magnitude.finite.inj h
    have hmul := ofScaled_mul mant exp hpos
    rw [hd] at hmul
    simp only [twoPow, Nat.one_mul, Nat.pow_eq, Int.zero_sub] at hmul
    exact hmul.symm

end Dyadic

/-- The nearest integer is within a half of the quotient. -/
theorem nearestQuotient_within (num : Nat) {den : Nat} (hden : 0 < den) :
    2 * num ≤ 2 * (nearestQuotient num den * den) + den ∧
      2 * (nearestQuotient num den * den) ≤ 2 * num + den := by
  have hsplit : num / den * den + num % den = num := by
    rw [Nat.mul_comm]
    exact Nat.div_add_mod num den
  have hrest := Nat.mod_lt num hden
  have hsucc : (num / den + 1) * den = num / den * den + den := Nat.succ_mul ..
  unfold nearestQuotient
  dsimp only
  split <;> omega

namespace Format

/-- Bounding a range changes a size only to the infinite one. -/
theorem eq_of_bound_eq_finite {f : Format} {size : Magnitude} {d : Dyadic}
    (h : f.bound size = .finite d) : size = .finite d := by
  cases size with
  | zero => cases h
  | infinite => cases h
  | finite d' =>
    simp only [bound] at h
    split at h
    · cases h
    · exact h

/-- Bounding a range makes nothing zero. -/
theorem bound_finite_ne_zero (f : Format) (d : Dyadic) : f.bound (.finite d) ≠ .zero := by
  simp only [bound]
  split <;> simp

/-- A power of two within the lower limits of a format is rounded only if it is too large. -/
theorem roundSize_twoPow (f : Format) {k : Int} (hsize : f.sizeFloor ≤ k + 1)
    (hunit : f.unitFloor ≤ k) :
    f.roundSize (.finite (Dyadic.twoPow k)) = f.bound (.finite (Dyadic.twoPow k)) := by
  have htop : ¬ (Dyadic.twoPow k).top < f.sizeFloor := by
    change ¬ k + 1 < f.sizeFloor
    omega
  have hexcess : f.excess (Dyadic.twoPow k) = 0 := by
    have hprecision := f.precision_pos
    change max (1 - f.precision) (f.unitFloor - k).toNat = 0
    omega
  have hscaled : Magnitude.ofScaled 1 k = .finite (Dyadic.twoPow k) := by
    have hodd := Dyadic.ofScaled_of_odd k Nat.one_ne_zero rfl
    rw [Magnitude.ofScaled, dif_neg Nat.one_ne_zero, hodd]
    rfl
  rw [roundSize, if_neg htop, hexcess]
  simp only [Dyadic.twoPow, Nat.pow_eq, Nat.pow_zero, nearestQuotient_one, Int.ofNat_zero,
    Int.add_zero, hscaled]

/-- The reciprocal of a power of two of a wide format, rounded: at most too large. -/
theorem roundSize_reciprocal_of_eq_one (bits : Nat) {d : Dyadic}
    (hfits : (wide bits).Fits (.finite d)) (hone : d.mant = 1) :
    (wide bits).roundSize (.finite (Dyadic.div (widthOf bits) (Dyadic.twoPow 0) d)) =
      (wide bits).bound (.finite (Dyadic.twoPow (-d.exp))) := by
  have hexp : d.exp ≤ 2147483646 := by
    have hceil : d.exp + bitLength d.mant ≤ 2147483647 := hfits.2.2
    have hbits : bitLength 1 = 1 := rfl
    rw [hone, hbits] at hceil
    omega
  rw [Dyadic.div_one_of_eq_one _ hone, roundSize_twoPow]
  · change -2147483648 ≤ -d.exp + 1
    omega
  · change -2147483648 - (widthOf bits : Int) ≤ -d.exp
    omega

/-- The reciprocal of a number of a wide format that is no power of two, rounded: the nearest
sixteenth of the cut mantissa. -/
theorem roundSize_reciprocal_of_ne_one (bits : Nat) {d : Dyadic}
    (hfits : (wide bits).Fits (.finite d)) (hne : d.mant ≠ 1) :
    (wide bits).roundSize (.finite (Dyadic.div (widthOf bits) (Dyadic.twoPow 0) d)) =
      (wide bits).bound (Magnitude.ofScaled
        (nearestQuotient (Dyadic.cutReciprocal (widthOf bits) d.mant) 16)
        (1 - d.top - widthOf bits)) := by
  obtain ⟨hmant, hexp⟩ := Dyadic.div_one_of_ne_one (widthOf bits) hne
  generalize Dyadic.div (widthOf bits) (Dyadic.twoPow 0) d = r at hmant hexp ⊢
  have hceil : d.top ≤ 2147483647 := hfits.2.2
  have hbits : r.bits = widthOf bits + 4 := by
    rw [Dyadic.bits, hmant]
    exact bitLength_eq_succ_iff.mpr (Dyadic.cutReciprocal_bounds _ d.odd hne)
  have htop : d.top = d.exp + d.bits := rfl
  have hfloor : ¬ r.top < (wide bits).sizeFloor := by
    change ¬ r.exp + r.bits < -2147483648
    omega
  have hexcess : (wide bits).excess r = 4 := by
    change max (r.bits - widthOf bits) (-2147483648 - (widthOf bits : Int) - r.exp).toNat = 4
    omega
  rw [roundSize, if_neg hfloor, hexcess, hmant]
  congr 2
  omega

/-- Assumes: a finite size of a wide format. Its rounded reciprocal is not zero. -/
theorem reciprocal_ne_zero (bits : Nat) {d : Dyadic} (hfits : (wide bits).Fits (.finite d)) :
    (wide bits).roundSize (.finite (Dyadic.div (widthOf bits) (Dyadic.twoPow 0) d)) ≠ .zero := by
  by_cases hone : d.mant = 1
  · rw [roundSize_reciprocal_of_eq_one bits hfits hone]
    exact bound_finite_ne_zero _ _
  · rw [roundSize_reciprocal_of_ne_one bits hfits hone]
    have hlarge := (Dyadic.cutReciprocal_bounds (widthOf bits) d.odd hone).1
    have hpow : 2 ^ (widthOf bits + 3) = 8 * 2 ^ widthOf bits := by
      rw [Nat.pow_add, Nat.mul_comm]
    have hwidth : 2 ≤ 2 ^ widthOf bits := Nat.le_self_pow (Nat.ne_of_gt (widthOf_pos bits)) 2
    have hwithin :=
      nearestQuotient_within (Dyadic.cutReciprocal (widthOf bits) d.mant) (by omega : 0 < 16)
    rw [Magnitude.ofScaled, dif_neg (by omega)]
    exact bound_finite_ne_zero _ _

/-- A quotient `8 * w * k / m` with a divisor above `k` and below `w` stays away from `8 * w`. -/
theorem quotient_add_four_lt {w k m q : Nat} (hquotient : q * m ≤ 8 * (w * k)) (hlo : k < m)
    (hlt : m < w) : q + 4 < 8 * w := by
  rcases Nat.lt_or_ge (q + 4) (8 * w) with h | h
  · exact h
  · have hscaled : 8 * (w * m) ≤ q * m + 4 * m := by
      rw [← Nat.mul_assoc, ← Nat.add_mul]
      exact Nat.mul_le_mul_right m h
    have hdivisor : w * k + w ≤ w * m := Nat.mul_le_mul_left w hlo
    omega

/-- A quotient `8 * w * k / m` with a divisor below `2 * k` and below `w` stays away from
`4 * w`. -/
theorem lt_quotient {w k m q : Nat} (hquotient : 8 * (w * k) < m * (q + 1)) (hhi : m < 2 * k)
    (hlt : m < w) : 4 * w + 3 < q := by
  rcases Nat.lt_or_ge (4 * w + 3) q with h | h
  · exact h
  · have hscaled : m * (q + 1) ≤ 4 * (w * m) + 4 * m := by
      rw [← Nat.mul_assoc, ← Nat.add_mul, Nat.mul_comm m]
      exact Nat.mul_le_mul_right m (by omega)
    have hdivisor : w * m + w ≤ 2 * (w * k) := by
      rw [Nat.mul_left_comm]
      exact Nat.mul_le_mul_left w hhi
    omega

/-- Assumes: an odd mantissa of the format that is not one. The rounded mantissa of its reciprocal
is no power of two. -/
theorem nearestQuotient_cutReciprocal_ne_two_pow {width m : Nat} (hodd : m % 2 = 1) (hne : m ≠ 1)
    (hlt : m < 2 ^ width) (j : Nat) :
    nearestQuotient (Dyadic.cutReciprocal width m) 16 ≠ 2 ^ j := by
  intro hpower
  obtain ⟨k, hk, hlo, hhi⟩ := Dyadic.two_pow_lt_of_odd hodd hne
  have hshift : 2 ^ (width + 2 + bitLength m) = 8 * (2 ^ width * 2 ^ k) := by
    rw [hk, Nat.pow_add, Nat.pow_add, Nat.pow_succ]
    grind
  have hdouble : 2 ^ (k + 1) = 2 * 2 ^ k := by
    rw [Nat.pow_succ, Nat.mul_comm]
  have hdown := Nat.div_mul_le_self (2 ^ (width + 2 + bitLength m)) m
  have hup := Nat.lt_mul_div_succ (2 ^ (width + 2 + bitLength m)) (by omega : 0 < m)
  rw [hshift] at hdown hup
  have hbelow := quotient_add_four_lt hdown hlo hlt
  have habove := lt_quotient hup (by omega) hlt
  obtain ⟨hleast, hgreatest⟩ :=
    nearestQuotient_within (Dyadic.cutReciprocal width m) (by omega : 0 < 16)
  rw [hpower, Dyadic.cutReciprocal, hshift] at hleast hgreatest
  -- the rounded mantissa lies strictly between two neighbouring powers of two
  have hless : 2 ^ j < 2 ^ width := by omega
  have hgreater : 2 ^ width < 2 ^ (j + 1) := by
    rw [Nat.pow_succ]
    omega
  have hexponent := (Nat.pow_lt_pow_iff_right Nat.one_lt_two).mp hless
  have hexponent' := (Nat.pow_lt_pow_iff_right Nat.one_lt_two).mp hgreater
  omega

/-- Assumes: a finite size of a wide format. If its rounded reciprocal is one, it is one. -/
theorem eq_one_of_reciprocal (bits : Nat) {d : Dyadic} (hfits : (wide bits).Fits (.finite d))
    (h : (wide bits).roundSize (.finite (Dyadic.div (widthOf bits) (Dyadic.twoPow 0) d)) =
      .finite (Dyadic.twoPow 0)) : d = Dyadic.twoPow 0 := by
  by_cases hone : d.mant = 1
  · rw [roundSize_reciprocal_of_eq_one bits hfits hone] at h
    have hpower := Magnitude.finite.inj (eq_of_bound_eq_finite h)
    have hexp : -d.exp = 0 := congrArg Dyadic.exp hpower
    obtain ⟨mant, exp, odd⟩ := d
    have hzero : exp = 0 := by simpa using hexp
    cases hone
    cases hzero
    rfl
  · rw [roundSize_reciprocal_of_ne_one bits hfits hone] at h
    have hmant := Dyadic.eq_two_pow_of_ofScaled (eq_of_bound_eq_finite h)
    exact absurd hmant (nearestQuotient_cutReciprocal_ne_two_pow d.odd hone hfits.1 _)

end Format

end Reckoner
