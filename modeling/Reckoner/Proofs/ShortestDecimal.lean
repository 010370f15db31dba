import Mathlib.Algebra.Order.Group.Pointwise.Interval
import Reckoner.Proofs.NumberText
import Reckoner.Proofs.RoundingBounds

/-!
# The shortest decimal is the shortest

Rounding to a format is monotone (`Format.atMost_roundRat_of_le`): between the same powers of two
the nearest integer is, and a power of two that lies between two numbers is not passed by either of
them. So the numbers that are rounded to a dyadic form an interval around it, and every number
between one of them and the dyadic is rounded to it as well (`Format.roundRat_between`).

The search for the shortest decimal looks at one grid of decimals after the other, from one digit
on, and on each only at the two neighbours of the exact value. Since the interval has no gaps, a
neighbour is found whenever the grid has a point in it. A decimal of few digits need not be on the
grid of that many digits of the value, because it may have another power of ten in front; but then a
power of ten lies between the two, and that one is on every grid
(`Decimal.exists_onGrid_between`).

Main statement: no decimal that is rounded to the same dyadic has fewer digits than the shortest
one, and none of as many is nearer (`Decimal.isShortest_shortest`).
-/

set_option autoImplicit false

namespace Reckoner

/-! ### The nearest integer -/

/-- The nearest integer is half a unit away at most. -/
theorem two_mul_abs_sub_nearest_le {q : ℚ} (hq : 0 ≤ q) : 2 * |q - nearest q| ≤ 1 := by
  have hlow := Nat.floor_le hq
  have hhigh := Nat.lt_floor_add_one q
  unfold nearest
  dsimp only
  split
  · rename_i hdown
    rw [abs_of_nonneg (by linarith)]
    exact hdown.elim le_of_lt fun h ↦ h.1.le
  · rename_i hup
    have hhalf : 1 ≤ 2 * (q - ⌊q⌋₊) := not_lt.mp fun h ↦ hup (Or.inl h)
    rw [Nat.cast_add_one, abs_sub_comm, abs_of_nonneg (by linarith)]
    linarith

/-- No integer is nearer than the nearest one. -/
theorem abs_sub_nearest_le {q : ℚ} (hq : 0 ≤ q) (k : ℕ) : |q - nearest q| ≤ |q - k| := by
  have hhalf := two_mul_abs_sub_nearest_le hq
  by_cases hk : k = nearest q
  · rw [hk]
  · have hone : (1 : ℚ) ≤ |(nearest q : ℚ) - k| := by
      have hne : (nearest q : ℤ) - k ≠ 0 := by omega
      exact_mod_cast Int.one_le_abs hne
    have htriangle := abs_sub_le (nearest q : ℚ) q k
    rw [abs_sub_comm _ q] at htriangle
    linarith

/-- The nearest integer grows with the number: where it fell, both numbers would be the middle
between two integers. -/
theorem nearest_mono {q q' : ℚ} (hq : 0 ≤ q) (h : q ≤ q') : nearest q ≤ nearest q' := by
  by_contra hlt
  have hgap : (nearest q' : ℚ) + 1 ≤ nearest q := by exact_mod_cast not_le.mp hlt
  have hlow := neg_le_abs (q - nearest q)
  have hhigh := le_abs_self (q' - nearest q')
  have hhalf := two_mul_abs_sub_nearest_le hq
  have hhalf' := two_mul_abs_sub_nearest_le (hq.trans h)
  have heq : q = q' := by linarith
  rw [heq] at hlt
  exact hlt le_rfl

/-! ### Rounding is monotone -/

namespace Format

variable {f : Format} {q q' r : ℚ} {d : Dyadic}

/-- The exponent of the last bit grows with the number. -/
theorem unitOf_mono (hq : 0 < q) (h : q ≤ q') : f.unitOf q ≤ f.unitOf q' := by
  have hlog := Int.log_mono_right (b := 2) hq h
  unfold unitOf
  omega

/-- The nearest multiple does not fall below a power of two that is one. -/
theorem le_nearestMultiple {k : ℤ} (hunit : f.unitOf q ≤ k) (h : 2 ^ k ≤ q) :
    2 ^ k ≤ f.nearestMultiple q := by
  have hpos : (0 : ℚ) < 2 ^ f.unitOf q := by positivity
  rw [two_pow_eq_mul hunit] at h ⊢
  have hnearest := nearest_mono (Nat.cast_nonneg _) ((le_div_iff₀ hpos).mpr h)
  rw [nearest_natCast] at hnearest
  exact mul_le_mul_of_nonneg_right (by exact_mod_cast hnearest) hpos.le

/-- The nearest multiple grows with the number. -/
theorem nearestMultiple_mono (hq : 0 < q) (h : q ≤ q') :
    f.nearestMultiple q ≤ f.nearestMultiple q' := by
  rcases (unitOf_mono (f := f) hq h).eq_or_lt with heq | hlt
  · have hpos : (0 : ℚ) < 2 ^ f.unitOf q' := by positivity
    have hnearest := nearest_mono (by positivity) (div_le_div_of_nonneg_right h hpos.le)
    rw [nearestMultiple, nearestMultiple, heq]
    exact mul_le_mul_of_nonneg_right (by exact_mod_cast hnearest) hpos.le
  · -- the units differ, so the power of two below the greater number lies between the two
    have hprecision := f.precision_pos
    have hunit : f.unitOf q' ≤ Int.log 2 q' := by
      unfold unitOf at hlt ⊢
      omega
    have hlog : Int.log 2 q + 1 ≤ Int.log 2 q' := by
      unfold unitOf at hlt
      omega
    have hbelow : q ≤ 2 ^ Int.log 2 q' := by
      have hsucc : q < 2 ^ (Int.log 2 q + 1) := by
        exact_mod_cast Int.lt_zpow_succ_log_self Nat.one_lt_two q
      exact hsucc.le.trans (zpow_le_zpow_right₀ one_le_two hlog)
    have habove : (2 : ℚ) ^ Int.log 2 q' ≤ q' := by
      exact_mod_cast Int.zpow_log_le_self Nat.one_lt_two (hq.trans_le h)
    exact (nearestMultiple_le hq (hlt.le.trans hunit) hbelow).trans
      (le_nearestMultiple hunit habove)

/-- A smaller size stays below what bounds the greater one in the range of a format. -/
theorem atMost_bound_ofScaled {mant mant' : ℕ} {exp exp' : ℤ} {bound : ℚ}
    (h : (mant : ℚ) * 2 ^ exp ≤ mant' * 2 ^ exp')
    (hbound : (f.bound (Magnitude.ofScaled mant' exp')).AtMost bound) :
    (f.bound (Magnitude.ofScaled mant exp)).AtMost bound := by
  by_cases hmant : mant = 0
  · rw [Magnitude.ofScaled, dif_pos hmant]
    trivial
  · have hmant' : mant' ≠ 0 := by
      rintro rfl
      have hpos : (0 : ℚ) < mant * 2 ^ exp := by positivity
      rw [Nat.cast_zero, zero_mul] at h
      exact absurd h (not_le.mpr hpos)
    rw [Magnitude.ofScaled, dif_neg hmant', Format.bound] at hbound
    rw [Magnitude.ofScaled, dif_neg hmant, Format.bound]
    rw [← Dyadic.toRat_ofScaled mant exp hmant, ← Dyadic.toRat_ofScaled mant' exp' hmant'] at h
    generalize Dyadic.ofScaled mant exp hmant = a at h ⊢
    generalize Dyadic.ofScaled mant' exp' hmant' = b at h hbound
    have htop : a.top ≤ b.top := by
      have hlog := Int.log_mono_right (b := 2) a.toRat_pos h
      rw [a.top_eq_log, b.top_eq_log]
      omega
    split at hbound
    · exact hbound.elim
    · rw [if_neg (by omega)]
      exact h.trans hbound

/-- What bounds the rounding of a number bounds that of a smaller one. -/
theorem atMost_roundRat_of_le {bound : ℚ} (hq : 0 < q) (h : q ≤ q')
    (hbound : (f.roundRat q').AtMost bound) : (f.roundRat q).AtMost bound := by
  have hlog := Int.log_mono_right (b := 2) hq h
  rw [roundRat]
  split
  · trivial
  · rw [roundRat, if_neg (by omega)] at hbound
    exact atMost_bound_ofScaled (nearestMultiple_mono hq h) hbound

/-- The greater of two numbers is rounded to the greater dyadic. -/
theorem toRat_le_of_roundRat {a : Dyadic} (hq : 0 < q) (h : q ≤ q') (ha : f.roundRat q = .finite a)
    (hd : f.roundRat q' = .finite d) : a.toRat ≤ d.toRat := by
  have hbound : (f.roundRat q').AtMost d.toRat := by
    rw [hd]
    exact le_rfl
  have hmost := atMost_roundRat_of_le hq h hbound
  rwa [ha] at hmost

/-- A number between two that are rounded to the same dyadic is rounded to it. -/
theorem roundRat_eq_of_le_of_le (hq : 0 < q) (hqr : q ≤ r) (hrq : r ≤ q')
    (hlow : f.roundRat q = .finite d) (hhigh : f.roundRat q' = .finite d) :
    f.roundRat r = .finite d := by
  have hmost : (f.roundRat r).AtMost d.toRat := by
    refine atMost_roundRat_of_le (hq.trans_le hqr) hrq ?_
    rw [hhigh]
    exact le_rfl
  have hleast : ∀ bound : ℚ, (f.roundRat r).AtMost bound → d.toRat ≤ bound := by
    intro bound hbound
    have h := atMost_roundRat_of_le hq hqr hbound
    rwa [hlow] at h
  cases hround : f.roundRat r with
  | zero =>
    rw [hround] at hleast
    exact absurd (hleast 0 trivial) (not_le.mpr d.toRat_pos)
  | infinite =>
    rw [hround] at hmost
    exact hmost.elim
  | finite a =>
    rw [hround] at hmost hleast
    exact congrArg Magnitude.finite (Dyadic.toRat_injective (le_antisymm hmost (hleast _ le_rfl)))

/-- Assumes: a dyadic that is its own rounding. A number between it and one that is rounded to it is
rounded to it. -/
theorem roundRat_between (hd : f.roundRat d.toRat = .finite d) (hq : 0 < q)
    (hround : f.roundRat q = .finite d) (hr : r ∈ Set.uIcc q d.toRat) :
    f.roundRat r = .finite d := by
  rcases Set.mem_uIcc.mp hr with ⟨hlow, hhigh⟩ | ⟨hlow, hhigh⟩
  · exact roundRat_eq_of_le_of_le hq hlow hhigh hround hd
  · exact roundRat_eq_of_le_of_le d.toRat_pos hlow hhigh hd hround

end Format

/-! ### Decimals of few digits -/

/-- Digits have a value below the power of ten that their number names. -/
theorem Literal.valueOf_lt {digits : List Char} (h : ∀ c ∈ digits, c.isDigit = true) :
    valueOf 10 digits < 10 ^ digits.length := by
  induction digits using List.reverseRecOn with
  | nil => decide
  | append_singleton digits c ih =>
    have hfront := ih fun c' hc' ↦ h c' (List.mem_append_left _ hc')
    have hdigit : valueOf 10 [c] < 10 := by
      have hc := h c (List.mem_append_right _ List.mem_cons_self)
      have hle : c.toNat ≤ 57 := (Char.isDigit_iff_toNat.mp hc).2
      have hzero : '0'.toNat = 48 := rfl
      simp only [valueOf, List.foldl_cons, List.foldl_nil, hexValue, if_pos hc, hzero]
      omega
    rw [valueOf_append, List.length_singleton, List.length_append, List.length_singleton, pow_succ]
    omega

namespace Decimal

variable {x y : Decimal}

/-- A zero at the end is taken away. -/
theorem trimZeros_append_zero (digits : List Char) :
    trimZeros (digits ++ ['0']) = trimZeros digits := by
  simp [trimZeros]

/-- Taking zeros away leaves at most as many digits. -/
theorem length_trimZeros_le (digits : List Char) : (trimZeros digits).length ≤ digits.length := by
  obtain ⟨count, hcount⟩ := exists_trimZeros_append digits
  have hlength := congrArg List.length hcount
  rw [List.length_append] at hlength
  omega

/-- A coefficient of at most a power of ten has as many significant digits: the power itself has
one. -/
theorem length_numeral_le {k : ℕ} (hk : 0 < k) (h : x.coeff ≤ 10 ^ k) :
    x.numeral.digits.length ≤ k := by
  unfold numeral
  split
  · exact Nat.zero_le k
  · dsimp only
    rw [digits_eq_toDigits]
    rcases Nat.lt_or_eq_of_le h with hlt | heq
    · exact (length_trimZeros_le _).trans ((Nat.length_toDigits_le_iff (by decide) hk).mpr hlt)
    · obtain ⟨j, rfl⟩ : ∃ j, k = j + 1 := ⟨k - 1, by omega⟩
      have hsplit : Nat.toDigits 10 x.coeff = Nat.toDigits 10 (10 ^ j) ++ ['0'] := by
        have htens := Nat.toDigits_append_toDigits (b := 10) (n := 10 ^ j) (d := 0) (by decide)
          (by positivity) (by decide)
        rw [heq, pow_succ, mul_comm, ← Nat.add_zero (10 * 10 ^ j), ← htens, Nat.toDigits_zero]
      rw [hsplit, trimZeros_append_zero]
      refine (length_trimZeros_le _).trans ((Nat.length_toDigits_le_iff (by decide) hk).mpr ?_)
      exact Nat.pow_lt_pow_right (by decide) (by omega)

/-- Every coefficient has a digit. -/
theorem digitCount_pos (n : ℕ) : 0 < digitCount n := by
  rw [digitCount, digits_eq_toDigits]
  exact Nat.length_toDigits_pos

/-- A coefficient is below the power of ten that its digits name. -/
theorem lt_ten_pow_digitCount (n : ℕ) : n < 10 ^ digitCount n := by
  refine (Nat.length_toDigits_le_iff (by decide) (digitCount_pos n)).mp ?_
  rw [digitCount, digits_eq_toDigits]

/-- A decimal that is not zero is at least the power of ten of its first digit. -/
theorem ten_pow_le_toRat (hx : x.coeff ≠ 0) : 10 ^ (x.exp + digitCount x.coeff - 1) ≤ x.toRat := by
  obtain ⟨k, hk⟩ : ∃ k, digitCount x.coeff = k + 1 := by
    have hpos := digitCount_pos x.coeff
    exact ⟨digitCount x.coeff - 1, by omega⟩
  have hcoeff : 10 ^ k ≤ x.coeff := by
    by_contra hlt
    rcases Nat.eq_zero_or_pos k with rfl | hpos
    · exact hlt (Nat.one_le_iff_ne_zero.mpr hx)
    · have hlength := (Nat.length_toDigits_le_iff (by decide) hpos).mpr (not_le.mp hlt)
      rw [digitCount, digits_eq_toDigits] at hk
      omega
  have hexp : x.exp + digitCount x.coeff - 1 = k + x.exp := by
    rw [hk]
    push_cast
    ring
  rw [hexp, zpow_add₀ (by norm_num), zpow_natCast, toRat]
  exact mul_le_mul_of_nonneg_right (by exact_mod_cast hcoeff) (by positivity)

/-- A power of ten is on every finer grid. -/
theorem exists_toRat_eq_ten_pow {e k : ℤ} (h : e ≤ k) : ∃ m, toRat ⟨m, e⟩ = 10 ^ k := by
  obtain ⟨j, rfl⟩ := Int.le.dest h
  refine ⟨10 ^ j, ?_⟩
  rw [toRat, zpow_add₀ (by norm_num), zpow_natCast]
  push_cast
  ring

/-- A decimal has the value of its significant digits. -/
theorem exists_toRat_eq (y : Decimal) :
    ∃ (m : ℕ) (e : ℤ), m < 10 ^ y.numeral.digits.length ∧ y.toRat = toRat ⟨m, e⟩ :=
  ⟨_, _, Literal.valueOf_lt fun _ ↦ isDigit_of_mem_numeral, y.toRat_numeral.symm⟩

/-- Assumes: two decimals, the second with at most the digits that are left of the first when some
are dropped, but not all. A point on the grid of the digits that are left lies between the two. -/
theorem exists_onGrid_between (hx : x.coeff ≠ 0) {count : ℕ} (hcount : count < digitCount x.coeff)
    (hy : y.numeral.digits.length + count ≤ digitCount x.coeff) :
    ∃ k, toRat ⟨k, x.exp + count⟩ ∈ Set.uIcc y.toRat x.toRat := by
  have hlow := ten_pow_le_toRat hx
  have hhigh := x.toRat_lt
  rcases lt_or_ge y.toRat (10 ^ (x.exp + digitCount x.coeff - 1)) with hbelow | hbelow
  · obtain ⟨k, hk⟩ := exists_toRat_eq_ten_pow
      (by omega : x.exp + count ≤ x.exp + digitCount x.coeff - 1)
    refine ⟨k, Set.mem_uIcc.mpr (Or.inl ?_)⟩
    rw [hk]
    exact ⟨hbelow.le, hlow⟩
  · rcases le_or_gt (10 ^ (x.exp + digitCount x.coeff)) y.toRat with habove | habove
    · obtain ⟨k, hk⟩ := exists_toRat_eq_ten_pow
        (by omega : x.exp + count ≤ x.exp + digitCount x.coeff)
      refine ⟨k, Set.mem_uIcc.mpr (Or.inr ?_)⟩
      rw [hk]
      exact ⟨hhigh.le, habove⟩
    · -- the same power of ten is in front of both, so the second decimal is on the grid itself
      obtain ⟨m, e, hm, hvalue⟩ := y.exists_toRat_eq
      have hexp : x.exp + count ≤ e := by
        have hsmall : y.toRat < 10 ^ (y.numeral.digits.length + e) := by
          rw [hvalue, toRat, zpow_add₀ (by norm_num), zpow_natCast]
          exact mul_lt_mul_of_pos_right (by exact_mod_cast hm) (by positivity)
        have hlt := (zpow_lt_zpow_iff_right₀ (by norm_num)).mp (hbelow.trans_lt hsmall)
        omega
      obtain ⟨j, hj⟩ := Int.le.dest hexp
      refine ⟨m * 10 ^ j, ?_⟩
      have hsame : toRat ⟨m * 10 ^ j, x.exp + count⟩ = y.toRat := by
        rw [hvalue, toRat, toRat, ← hj, zpow_add₀ (by norm_num : (10 : ℚ) ≠ 0) _ (j : ℤ),
          zpow_natCast]
        push_cast
        ring
      rw [hsame]
      exact Set.left_mem_uIcc

/-! ### The search -/

/-- Whether a decimal is one of the fewest digits among those that are rounded to a size, and of
these one of the nearest to the value of the size. -/
structure IsShortest (f : Format) (size : Magnitude) (value : ℚ) (x : Decimal) : Prop where
  ofDecimal_eq : f.ofDecimal x = size
  length_le : ∀ y, f.ofDecimal y = size → x.numeral.digits.length ≤ y.numeral.digits.length
  /-- No other decimal of as many digits that is rounded to the size lies nearer. -/
  abs_sub_le : ∀ y, f.ofDecimal y = size →
    y.numeral.digits.length = x.numeral.digits.length → |value - x.toRat| ≤ |value - y.toRat|

/-- Whether a search that drops at most `limit` digits of a decimal has stopped with the nearest hit
on the grid of `stop` dropped digits, and met no hit on a coarser one. -/
structure StopsAt (f : Format) (d : Dyadic) (exact : Decimal) (limit stop : ℕ) (x : Decimal) :
    Prop where
  stop_le : stop ≤ limit
  /-- At most the digits are left that were not dropped. -/
  length_le : x.numeral.digits.length + stop ≤ digitCount exact.coeff
  abs_sub_le : ∀ k, f.ofDecimal ⟨k, exact.exp + stop⟩ = .finite d →
    |d.toRat - x.toRat| ≤ |d.toRat - toRat ⟨k, exact.exp + stop⟩|
  no_hit : ∀ count k, stop < count → count ≤ limit →
    f.ofDecimal ⟨k, exact.exp + count⟩ ≠ .finite d

variable {f : Format} {d : Dyadic}

/-- A decimal that is rounded to a dyadic is positive. -/
theorem toRat_pos_of_roundRat (h : f.roundRat y.toRat = .finite d) : 0 < y.toRat := by
  have hnonneg : 0 ≤ y.toRat := by
    unfold toRat
    positivity
  refine hnonneg.lt_of_ne fun hzero ↦ ?_
  rw [← hzero, Format.roundRat_zero] at h
  cases h

/-- A positive decimal has digits. -/
theorem digits_numeral_ne_nil (h : 0 < y.toRat) : y.numeral.digits ≠ [] := by
  intro hnil
  rw [← toRat_numeral, Numeral.toRat, hnil] at h
  simp [Literal.valueOf] at h

/-- The value of a decimal, counted in steps of a grid. -/
theorem toRat_eq_steps (x : Decimal) (count : ℕ) :
    x.toRat = (x.coeff : ℚ) / (10 ^ count : ℕ) * 10 ^ (x.exp + count) := by
  rw [toRat, zpow_add₀ (by norm_num), zpow_natCast]
  push_cast
  field_simp

/-- The neighbours of a decimal are the points of the grid right below it, or at it, and right above
it. -/
theorem mem_neighbours_iff {z : Decimal} {count : ℕ} :
    z ∈ x.neighbours count ↔ z = ⟨x.coeff / 10 ^ count, x.exp + count⟩ ∨
      z = ⟨x.coeff / 10 ^ count + 1, x.exp + count⟩ := by
  simp only [neighbours, nearestQuotient, Nat.pow_eq]
  split <;> simp [or_comm]

/-- A neighbour of a decimal lies between it and any point of the grid. -/
theorem exists_neighbour_between (x : Decimal) (count k : ℕ) :
    ∃ z ∈ x.neighbours count, z.toRat ∈ Set.uIcc (toRat ⟨k, x.exp + count⟩) x.toRat := by
  have hunit : (0 : ℚ) ≤ 10 ^ (x.exp + (count : ℤ)) := by positivity
  have hfloor : ⌊(x.coeff : ℚ) / (10 ^ count : ℕ)⌋₊ = x.coeff / 10 ^ count :=
    Nat.floor_div_eq_div ..
  have hlow := Nat.floor_le (by positivity : 0 ≤ (x.coeff : ℚ) / (10 ^ count : ℕ))
  have hhigh := (Nat.lt_floor_add_one ((x.coeff : ℚ) / (10 ^ count : ℕ))).le
  rw [hfloor] at hlow hhigh
  rw [x.toRat_eq_steps count]
  rcases Nat.lt_or_ge (x.coeff / 10 ^ count) k with hk | hk
  · have hcast : ((x.coeff / 10 ^ count : ℕ) : ℚ) + 1 ≤ k := by exact_mod_cast hk
    refine ⟨_, mem_neighbours_iff.mpr (Or.inr rfl), Set.mem_uIcc.mpr (Or.inr ⟨?_, ?_⟩)⟩
    · exact mul_le_mul_of_nonneg_right (by exact_mod_cast hhigh) hunit
    · exact mul_le_mul_of_nonneg_right (by exact_mod_cast hcast) hunit
  · refine ⟨_, mem_neighbours_iff.mpr (Or.inl rfl), Set.mem_uIcc.mpr (Or.inl ⟨?_, ?_⟩)⟩
    · exact mul_le_mul_of_nonneg_right (by exact_mod_cast hk) hunit
    · exact mul_le_mul_of_nonneg_right hlow hunit

/-- The first neighbour is at least as near as any point of the grid. -/
theorem abs_sub_nearestQuotient_le (x : Decimal) (count k : ℕ) :
    |x.toRat - toRat ⟨nearestQuotient x.coeff (10 ^ count), x.exp + count⟩| ≤
      |x.toRat - toRat ⟨k, x.exp + count⟩| := by
  have hnear := abs_sub_nearest_le (by positivity : 0 ≤ (x.coeff : ℚ) / (10 ^ count : ℕ)) k
  rw [nearest_div _ (by positivity)] at hnear
  rw [x.toRat_eq_steps count, toRat, toRat, ← sub_mul, ← sub_mul, abs_mul, abs_mul]
  exact mul_le_mul_of_nonneg_right hnear (abs_nonneg _)

/-- Assumes: a dyadic that is its own rounding. If a point of a grid is rounded to it, a neighbour
is found on the grid, and one that is at least as near. -/
theorem exists_find?_neighbours (hf : f.ContainsOne) (hd : f.roundRat d.toRat = .finite d)
    (hx : x.toRat = d.toRat) {count k : ℕ} (hk : f.ofDecimal ⟨k, x.exp + count⟩ = .finite d) :
    ∃ z, (x.neighbours count).find? (readsBack f d) = some z ∧
      |d.toRat - z.toRat| ≤ |d.toRat - toRat ⟨k, x.exp + count⟩| := by
  obtain ⟨z, hz, hbetween⟩ := x.exists_neighbour_between count k
  have hback : readsBack f d z = true := by
    rw [hx] at hbetween
    rw [Format.ofDecimal_eq_roundRat hf] at hk
    rw [readsBack, decide_eq_true_eq, Format.ofDecimal_eq_roundRat hf]
    exact Format.roundRat_between hd (toRat_pos_of_roundRat hk) hk hbetween
  rw [← hx]
  rw [neighbours, List.mem_pair] at hz
  rw [neighbours]
  rcases hz with rfl | rfl
  · exact ⟨_, List.find?_cons_of_pos hback, x.abs_sub_nearestQuotient_le count k⟩
  · by_cases hfirst : readsBack f d
        ⟨nearestQuotient x.coeff (Nat.pow 10 count), x.exp + count⟩ = true
    · exact ⟨_, List.find?_cons_of_pos hfirst, x.abs_sub_nearestQuotient_le count k⟩
    · refine ⟨_, ?_, Set.abs_sub_right_of_mem_uIcc hbetween⟩
      rw [List.find?_cons_of_neg hfirst, List.find?_cons_of_pos hback]

/-- A neighbour has at most the digits that are left. -/
theorem length_numeral_of_mem_neighbours {z : Decimal} {count : ℕ}
    (hcount : count < digitCount x.coeff) (hz : z ∈ x.neighbours count) :
    z.numeral.digits.length + count ≤ digitCount x.coeff := by
  have hquotient : x.coeff / 10 ^ count < 10 ^ (digitCount x.coeff - count) := by
    refine Nat.div_lt_of_lt_mul ?_
    rw [← pow_add, Nat.add_sub_cancel' hcount.le]
    exact lt_ten_pow_digitCount x.coeff
  have hlength : z.numeral.digits.length ≤ digitCount x.coeff - count := by
    apply length_numeral_le (by omega)
    rcases mem_neighbours_iff.mp hz with rfl | rfl
    · exact hquotient.le
    · exact hquotient
  omega

/-- Assumes: an exact decimal of a dyadic that is its own rounding, and a limit below the number of
its digits. The search stops somewhere. -/
theorem exists_stopsAt_shortestFrom (hf : f.ContainsOne) (hd : f.roundRat d.toRat = .finite d)
    (hx : x.toRat = d.toRat) {limit : ℕ} (hlimit : limit < digitCount x.coeff) :
    ∃ stop, StopsAt f d x limit stop (shortestFrom f d x limit) := by
  induction limit with
  | zero =>
    refine ⟨0, le_rfl, ?_, ?_, by omega⟩
    · exact length_numeral_le hlimit (lt_ten_pow_digitCount x.coeff).le
    · intro k hk
      rw [shortestFrom, hx, sub_self, abs_zero]
      exact abs_nonneg _
  | succ limit ih =>
    rw [shortestFrom]
    split
    · rename_i z hfound
      refine ⟨limit + 1, le_rfl, ?_, ?_, by omega⟩
      · exact length_numeral_of_mem_neighbours hlimit (List.mem_of_find?_eq_some hfound)
      · intro k hk
        obtain ⟨z', hfound', hnear⟩ := exists_find?_neighbours hf hd hx hk
        rw [hfound] at hfound'
        cases hfound'
        exact hnear
    · rename_i hnone
      obtain ⟨stop, hstop⟩ := ih (by omega)
      refine ⟨stop, hstop.stop_le.trans (Nat.le_succ limit), hstop.length_le, hstop.abs_sub_le, ?_⟩
      intro count k hlow hhigh hk
      rcases Nat.lt_or_eq_of_le hhigh with hlt | rfl
      · exact hstop.no_hit count k hlow (by omega) hk
      · obtain ⟨z, hfound, -⟩ := exists_find?_neighbours hf hd hx hk
        rw [hnone] at hfound
        cases hfound

/-- Assumes: an exact decimal of a dyadic that is its own rounding. A decimal of few digits that is
rounded to the dyadic gives a hit on the grid of as many digits of the exact one, and one that is at
least as near. -/
theorem exists_hit_onGrid (hf : f.ContainsOne) (hd : f.roundRat d.toRat = .finite d)
    (hx : x.toRat = d.toRat) (hy : f.ofDecimal y = .finite d) {count : ℕ}
    (hcount : count < digitCount x.coeff)
    (hlength : y.numeral.digits.length + count ≤ digitCount x.coeff) :
    ∃ k, f.ofDecimal ⟨k, x.exp + count⟩ = .finite d ∧
      |d.toRat - toRat ⟨k, x.exp + count⟩| ≤ |d.toRat - y.toRat| := by
  have hcoeff : x.coeff ≠ 0 := by
    intro hzero
    have hpos := d.toRat_pos
    rw [← hx, toRat, hzero, Nat.cast_zero, zero_mul] at hpos
    exact lt_irrefl _ hpos
  obtain ⟨k, hk⟩ := exists_onGrid_between hcoeff hcount hlength
  rw [hx] at hk
  rw [Format.ofDecimal_eq_roundRat hf] at hy
  refine ⟨k, ?_, Set.abs_sub_right_of_mem_uIcc hk⟩
  rw [Format.ofDecimal_eq_roundRat hf]
  exact Format.roundRat_between hd (toRat_pos_of_roundRat hy) hy hk

/-- Assumes: a dyadic that the format holds. Its shortest decimal is the shortest, and the nearest
of them. -/
theorem isShortest_shortest (hf : f.ContainsOne) (hfits : f.Fits (.finite d))
    (hfloor : f.sizeFloor ≤ d.top) : IsShortest f (.finite d) d.toRat (shortest f d) := by
  have hd := Format.roundRat_of_fits hfits hfloor
  have hx := toRat_ofDyadic d
  have hcount := digitCount_pos (ofDyadic d).coeff
  obtain ⟨stop, hstop⟩ := exists_stopsAt_shortestFrom hf hd hx
    (by omega : digitCount (ofDyadic d).coeff - 1 < digitCount (ofDyadic d).coeff)
  have hlimit := hstop.stop_le
  have hlength : (shortest f d).numeral.digits.length + stop ≤ digitCount (ofDyadic d).coeff :=
    hstop.length_le
  refine ⟨ofDecimal_shortest hf hfits hfloor, ?_, ?_⟩
  · intro y hy
    by_contra hfewer
    have hfewer : y.numeral.digits.length < (shortest f d).numeral.digits.length :=
      not_le.mp hfewer
    have hdigit : 0 < y.numeral.digits.length := by
      rw [Format.ofDecimal_eq_roundRat hf] at hy
      exact List.length_pos_of_ne_nil (digits_numeral_ne_nil (toRat_pos_of_roundRat hy))
    -- with fewer digits there would be a hit on a grid that the search has passed
    obtain ⟨count, hsum⟩ : ∃ count,
        y.numeral.digits.length + count = digitCount (ofDyadic d).coeff :=
      Nat.le.dest (by omega)
    obtain ⟨k, hk, -⟩ := exists_hit_onGrid hf hd hx hy (by omega) hsum.le
    exact hstop.no_hit count k (by omega) (by omega) hk
  · intro y hy hsame
    obtain ⟨k, hk, hnear⟩ := exists_hit_onGrid hf hd hx hy (by omega : stop < _)
      (by rw [hsame]; exact hlength)
    exact (hstop.abs_sub_le k hk).trans hnear

end Decimal

end Reckoner
