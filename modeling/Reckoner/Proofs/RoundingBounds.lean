import Reckoner.Proofs.Rounding

/-!
# How far a rounding goes

A rounding does not cross a power of two of its format: what is at most such a power stays at most
that power, and in particular does not become infinite (`Format.atMost_roundSize`). What a format of
gradual underflow rounds to zero is what has at most half of its last unit
(`Format.roundSize_eq_zero_iff`).
-/

set_option autoImplicit false

namespace Reckoner

/-- A nearest integer does not pass an integer that the number does not pass. -/
theorem nearest_le {q : ℚ} {n : ℕ} (hq : 0 ≤ q) (h : q ≤ n) : nearest q ≤ n := by
  rcases h.eq_or_lt with rfl | hlt
  · rw [nearest_natCast]
  · have hfloor := (Nat.floor_lt hq).mpr hlt
    unfold nearest
    dsimp only
    split <;> omega

/-- The nearest integer is zero up to one half. -/
theorem nearest_eq_zero_iff {q : ℚ} : nearest q = 0 ↔ 2 * q ≤ 1 := by
  unfold nearest
  dsimp only
  constructor
  · intro hzero
    split at hzero
    · rename_i hround
      rw [hzero, Nat.cast_zero, sub_zero] at hround
      rcases hround with hlt | ⟨heq, -⟩
      · exact hlt.le
      · exact heq.le
    · omega
  · intro hhalf
    have hfloor : ⌊q⌋₊ = 0 := Nat.floor_eq_zero.mpr (by linarith)
    rw [hfloor, Nat.cast_zero, sub_zero]
    rcases hhalf.lt_or_eq with hlt | heq
    · simp [hlt]
    · simp [heq]

/-- A mantissa has as many bits as the power of two above it names. -/
theorem Dyadic.bits_le_iff {d : Dyadic} {k : ℕ} : d.bits ≤ k ↔ d.mant < 2 ^ k := by
  obtain ⟨j, hj⟩ : ∃ j, d.bits = j + 1 := by
    have hpos := d.mant_pos
    exact ⟨d.mant.log2, if_neg (by omega)⟩
  obtain ⟨hlow, hhigh⟩ := bitLength_eq_succ_iff.mp hj
  rw [hj]
  constructor
  · intro hle
    exact hhigh.trans_le (Nat.pow_le_pow_right (by omega) hle)
  · intro hlt
    exact (Nat.pow_lt_pow_iff_right Nat.one_lt_two).mp (hlow.trans_lt hlt)

/-- Whether a size is at most a bound. -/
def Magnitude.AtMost (bound : ℚ) : Magnitude → Prop
  | .zero => True
  | .finite d => d.toRat ≤ bound
  | .infinite => False

/-- A bound may be raised. -/
theorem Magnitude.AtMost.mono {size : Magnitude} {bound bound' : ℚ} (h : size.AtMost bound)
    (hle : bound ≤ bound') : size.AtMost bound' := by
  cases size with
  | zero => trivial
  | infinite => exact h
  | finite d => exact le_trans (show d.toRat ≤ bound from h) hle

/-- A size given by a mantissa is at most what its value is. -/
theorem Magnitude.atMost_ofScaled {mant : ℕ} {exp : ℤ} {bound : ℚ}
    (h : (mant : ℚ) * 2 ^ exp ≤ bound) : (Magnitude.ofScaled mant exp).AtMost bound := by
  unfold ofScaled
  split
  · trivial
  · rename_i hpos
    change (Dyadic.ofScaled mant exp hpos).toRat ≤ bound
    rwa [Dyadic.toRat_ofScaled]

namespace Format

variable {f : Format} {q : ℚ} {k : ℤ}

/-- A size of at most a power of two below the upper limit is within the range. -/
theorem atMost_bound {size : Magnitude} (hceil : k < f.sizeCeil) (h : size.AtMost (2 ^ k)) :
    (f.bound size).AtMost (2 ^ k) := by
  cases size with
  | zero => trivial
  | infinite => exact h
  | finite d =>
    have htop : 2 ^ (d.top - 1) ≤ (2 : ℚ) ^ k := d.two_pow_le_toRat.1.trans h
    have hle := (zpow_le_zpow_iff_right₀ one_lt_two).mp htop
    rw [bound, if_neg (by omega)]
    exact h

/-- The multiple of the last bit that a format keeps which is nearest to a number. -/
def nearestMultiple (f : Format) (q : ℚ) : ℚ :=
  nearest (q / 2 ^ f.unitOf q) * 2 ^ f.unitOf q

/-- A power of two that is a multiple of the last bit, as that multiple. -/
theorem two_pow_eq_mul {unit : ℤ} (h : unit ≤ k) :
    (2 : ℚ) ^ k = (2 ^ (k - unit).toNat : ℕ) * 2 ^ unit := by
  obtain ⟨j, hj⟩ := Int.le.dest h
  have hsub : (k - unit).toNat = j := by omega
  rw [hsub, ← hj, add_comm, zpow_add₀ two_ne_zero, zpow_natCast]
  push_cast
  rfl

/-- The nearest multiple does not pass a power of two that is one. -/
theorem nearestMultiple_le (hq : 0 < q) (hunit : f.unitOf q ≤ k) (h : q ≤ 2 ^ k) :
    f.nearestMultiple q ≤ 2 ^ k := by
  have hpos : (0 : ℚ) < 2 ^ f.unitOf q := by positivity
  rw [two_pow_eq_mul hunit] at h ⊢
  have hnearest := nearest_le (by positivity) ((div_le_iff₀ hpos).mpr h)
  exact mul_le_mul_of_nonneg_right (by exact_mod_cast hnearest) hpos.le

/-- A positive rational of at most a power of two of the format is rounded to at most that power. -/
theorem atMost_roundRat (hq : 0 < q) (hunit : f.unitFloor ≤ k) (hceil : k < f.sizeCeil)
    (h : q ≤ 2 ^ k) : (f.roundRat q).AtMost (2 ^ k) := by
  unfold roundRat
  split
  · trivial
  · apply atMost_bound hceil
    apply Magnitude.atMost_ofScaled
    -- the power of two is a multiple of the last bit that is kept
    have hlog : Int.log 2 q ≤ k := by
      have hlow : (2 : ℚ) ^ Int.log 2 q ≤ q := by
        exact_mod_cast Int.zpow_log_le_self Nat.one_lt_two hq
      exact (zpow_le_zpow_iff_right₀ one_lt_two).mp (hlow.trans h)
    have hunitOf : f.unitOf q ≤ k := by
      have hprecision := f.precision_pos
      unfold unitOf
      omega
    exact nearestMultiple_le hq hunitOf h

/-- A size of at most a power of two of the format is rounded to at most that power. -/
theorem atMost_roundSize {size : Magnitude} (hunit : f.unitFloor ≤ k) (hceil : k < f.sizeCeil)
    (h : size.AtMost (2 ^ k)) : (f.roundSize size).AtMost (2 ^ k) := by
  cases size with
  | zero => trivial
  | infinite => exact h
  | finite d =>
    rw [roundSize_finite]
    exact atMost_roundRat d.toRat_pos hunit hceil h

/-- A bounded size is zero if the mantissa is. -/
theorem bound_ofScaled_eq_zero_iff {mant : ℕ} {exp : ℤ} :
    f.bound (Magnitude.ofScaled mant exp) = .zero ↔ mant = 0 := by
  unfold Magnitude.ofScaled
  split
  · rename_i hzero
    exact ⟨fun _ ↦ hzero, fun _ ↦ rfl⟩
  · rename_i hne
    exact ⟨fun h ↦ absurd h (bound_finite_ne_zero f _), fun h ↦ absurd h hne⟩

/-- In a format whose least number is its last unit, a positive rational is rounded to zero if it is
at most half of that. -/
theorem roundRat_eq_zero_iff (hfloor : f.sizeFloor = f.unitFloor) (hq : 0 < q) :
    f.roundRat q = .zero ↔ 2 * q ≤ 2 ^ f.unitFloor := by
  have hlow : (2 : ℚ) ^ Int.log 2 q ≤ q := by
    exact_mod_cast Int.zpow_log_le_self Nat.one_lt_two hq
  have hunit : f.unitFloor ≤ f.unitOf q := le_max_right _ _
  have hnearest : nearest (q / 2 ^ f.unitOf q) = 0 ↔ 2 * q ≤ 2 ^ f.unitOf q := by
    rw [nearest_eq_zero_iff, ← mul_div_assoc, div_le_one (by positivity)]
  unfold roundRat
  split
  · rename_i hsmall
    have hhigh : q < 2 ^ (Int.log 2 q + 1) := by
      exact_mod_cast Int.lt_zpow_succ_log_self Nat.one_lt_two q
    have hle : (2 : ℚ) ^ (Int.log 2 q + 1 + 1) ≤ 2 ^ f.unitFloor :=
      zpow_le_zpow_right₀ one_le_two (by omega)
    rw [zpow_add_one₀ two_ne_zero] at hle
    exact ⟨fun _ ↦ by linarith, fun _ ↦ rfl⟩
  · rw [bound_ofScaled_eq_zero_iff, hnearest]
    constructor
    · intro hhalf
      -- half of the last bit that is kept is below the number, unless that is the last unit
      rcases max_choice (Int.log 2 q + 1 - f.precision) f.unitFloor with hmax | hmax
      · have hprecision := f.precision_pos
        have hle : (2 : ℚ) ^ f.unitOf q ≤ 2 ^ Int.log 2 q := by
          apply zpow_le_zpow_right₀ one_le_two
          rw [unitOf, hmax]
          omega
        linarith
      · rwa [unitOf, hmax] at hhalf
    · intro hhalf
      exact hhalf.trans (zpow_le_zpow_right₀ one_le_two hunit)

/-- In 64 bits a size is rounded to zero if it is at most half of the least one. -/
theorem roundSize_eq_zero_iff {d : Dyadic} :
    binary64.roundSize (.finite d) = .zero ↔ d.toRat ≤ 2 ^ (-1075 : ℤ) := by
  have hsplit : (2 : ℚ) ^ binary64.unitFloor = 2 * 2 ^ (-1075 : ℤ) := by
    rw [← zpow_one_add₀ two_ne_zero]
    rfl
  rw [roundSize_finite, roundRat_eq_zero_iff rfl d.toRat_pos, hsplit,
    mul_le_mul_iff_right₀ zero_lt_two]

end Format

end Reckoner
