import Reckoner.Proofs.FreshEvaluation
import Reckoner.Proofs.LiteralReading
import Reckoner.Proofs.Rounding
import Reckoner.Proofs.Substitution

/-!
# Expressions whose values are exact

An expression of literals, variables and the four operations has an exact rational value, if its
variables are finite and it divides by no zero (`Expr.exactValue?`). Where the exact value of each
of its parts is a number of 64 bits and has no more bits than a wide format, no step of evaluation
rounds anything, and both evaluators give the exact value.

What a format holds (`Format.Holds`) is not changed by rounding, so each operation is exact as soon
as its result is held. A literal is read twice, by two routes; both round the same decimal.

Main statement: `Statement.execute_exact`.
-/

set_option autoImplicit false

namespace Reckoner

/-! ### Exact values of numbers -/

/-- The value of a size; the infinite one has none. -/
def Magnitude.toRat? : Magnitude → Option ℚ
  | .zero => some 0
  | .finite d => some d.toRat
  | .infinite => none

/-- The value of a number; infinities have none. -/
def Number.toRat? (x : Number) : Option ℚ :=
  x.size.toRat?.map (signed x.negative)

/-- The value of a number of 64 bits; infinities and what is not a number have none. -/
def Binary64.toRat? (x : Binary64) : Option ℚ :=
  x.toNumber?.bind Number.toRat?

/-- The value of a size with a given mantissa. -/
theorem Magnitude.toRat?_ofScaled (mant : ℕ) (exp : ℤ) :
    (Magnitude.ofScaled mant exp).toRat? = some ((mant : ℚ) * 2 ^ exp) := by
  unfold ofScaled
  split
  · rename_i hzero
    simp [toRat?, hzero]
  · rw [toRat?, Dyadic.toRat_ofScaled]

/-- A size that has a value is zero or finite, and the value is not negative. -/
theorem Magnitude.toRat?_cases {size : Magnitude} {q : ℚ} (h : size.toRat? = some q) :
    (size = .zero ∧ q = 0) ∨ ∃ d, size = .finite d ∧ q = d.toRat := by
  cases size with
  | zero => exact Or.inl ⟨rfl, (Option.some.inj h).symm⟩
  | finite d => exact Or.inr ⟨d, rfl, (Option.some.inj h).symm⟩
  | infinite => cases h

namespace Number

/-- A number that has a value is a sign with a zero or with a dyadic. -/
theorem toRat?_cases {x : Number} {q : ℚ} (h : x.toRat? = some q) :
    (x.size = .zero ∧ q = 0) ∨ ∃ d, x.size = .finite d ∧ q = signed x.negative d.toRat := by
  obtain ⟨size, hsize, rfl⟩ := Option.map_eq_some_iff.mp h
  rcases Magnitude.toRat?_cases hsize with ⟨hzero, rfl⟩ | ⟨d, hd, rfl⟩
  · exact Or.inl ⟨hzero, signed_zero _⟩
  · exact Or.inr ⟨d, hd, rfl⟩

/-- The value of a number from that of its size. -/
theorem toRat?_of_size {x : Number} {size : ℚ} (h : x.size.toRat? = some size) :
    x.toRat? = some (signed x.negative size) := by
  rw [toRat?, h, Option.map_some]

/-- The number that a signed mantissa makes has its value. -/
theorem toRat?_ofScaled (mant exp : ℤ) :
    toRat? ⟨decide (mant < 0), Magnitude.ofScaled mant.natAbs exp⟩ =
      some ((mant : ℚ) * 2 ^ exp) := by
  rw [toRat?_of_size (Magnitude.toRat?_ofScaled mant.natAbs exp)]
  congr 1
  have habs : ((mant.natAbs : ℕ) : ℚ) = |(mant : ℚ)| := by
    rw [← Int.cast_natCast, Int.natCast_natAbs, Int.cast_abs]
  by_cases hneg : mant < 0
  · have hcast : (mant : ℚ) < 0 := by exact_mod_cast hneg
    simp [signed, hneg, habs, abs_of_neg hcast]
  · have hcast : (0 : ℚ) ≤ mant := by exact_mod_cast not_lt.mp hneg
    simp [signed, hneg, habs, abs_of_nonneg hcast]

/-- The value of a number with the other sign. -/
theorem toRat?_neg {x : Number} {q : ℚ} (h : x.toRat? = some q) : x.neg.toRat? = some (-q) := by
  obtain ⟨size, hsize, rfl⟩ := Option.map_eq_some_iff.mp h
  rw [toRat?_of_size (show x.neg.size.toRat? = some size from hsize), neg]
  cases x.negative <;> simp [signed]

/-- A mantissa brought to a common exponent keeps its value. -/
theorem signedMant_mul (negative : Bool) (d : Dyadic) {exp : ℤ} (h : exp ≤ d.exp) :
    (signedMant negative d exp : ℚ) * 2 ^ exp = signed negative d.toRat := by
  obtain ⟨k, hk⟩ := Int.le.dest h
  have hmant : (d.mantAt exp : ℚ) * 2 ^ exp = d.toRat := by
    have hshift : (d.exp - exp).toNat = k := by omega
    rw [Dyadic.mantAt, hshift, Nat.shiftLeft_eq, Dyadic.toRat, ← hk, zpow_add₀ two_ne_zero,
      zpow_natCast]
    push_cast
    ring
  cases negative
  · simpa [signedMant, signed] using hmant
  · simpa [signedMant, signed] using hmant

/-- A sum has the sum of the values. -/
theorem toRat?_add {x y : Number} {p q : ℚ} (hx : x.toRat? = some p) (hy : y.toRat? = some q) :
    ∃ z, x.add y = some z ∧ z.toRat? = some (p + q) := by
  rcases toRat?_cases hx with ⟨hxsize, rfl⟩ | ⟨a, hxsize, hp⟩
  · rcases toRat?_cases hy with ⟨hysize, rfl⟩ | ⟨b, hysize, -⟩
    · refine ⟨⟨x.negative && y.negative, .zero⟩, by simp [add, hxsize, hysize], ?_⟩
      simp [toRat?, Magnitude.toRat?]
    · exact ⟨y, by simp [add, hxsize, hysize], by rw [zero_add, hy]⟩
  · rcases toRat?_cases hy with ⟨hysize, rfl⟩ | ⟨b, hysize, hq⟩
    · exact ⟨x, by simp [add, hxsize, hysize], by rw [add_zero, hx]⟩
    · refine ⟨addFinite x.negative a y.negative b, by simp [add, hxsize, hysize], ?_⟩
      rw [addFinite, toRat?_ofScaled, Int.cast_add, add_mul,
        signedMant_mul _ _ (Int.min_le_left _ _), signedMant_mul _ _ (Int.min_le_right _ _), hp, hq]

/-- A difference has the difference of the values. -/
theorem toRat?_sub {x y : Number} {p q : ℚ} (hx : x.toRat? = some p) (hy : y.toRat? = some q) :
    ∃ z, x.sub y = some z ∧ z.toRat? = some (p - q) := by
  rw [sub_eq_add_neg]
  exact toRat?_add hx (toRat?_neg hy)

/-- A product has the product of the values. -/
theorem toRat?_mul {x y : Number} {p q : ℚ} (hx : x.toRat? = some p) (hy : y.toRat? = some q) :
    ∃ z, x.mul y = some z ∧ z.toRat? = some (p * q) := by
  rcases toRat?_cases hx with ⟨hxsize, rfl⟩ | ⟨a, hxsize, hp⟩
  · refine ⟨⟨x.negative != y.negative, .zero⟩, ?_, by simp [toRat?, Magnitude.toRat?]⟩
    rcases toRat?_cases hy with ⟨hysize, rfl⟩ | ⟨b, hysize, -⟩ <;> simp [mul, hxsize, hysize]
  · rcases toRat?_cases hy with ⟨hysize, rfl⟩ | ⟨b, hysize, hq⟩
    · exact ⟨⟨x.negative != y.negative, .zero⟩, by simp [mul, hxsize, hysize],
        by simp [toRat?, Magnitude.toRat?]⟩
    · refine ⟨⟨x.negative != y.negative, .finite (a.mul b)⟩, by simp [mul, hxsize, hysize], ?_⟩
      rw [hp, hq, ← signed_mul, ← Dyadic.toRat_mul]
      rfl

end Number

/-! ### What a format holds -/

namespace Format

/-- Whether a rational is a number of a format: zero, or a dyadic that fits and is not taken for
zero, with either sign. -/
def Holds (f : Format) (q : ℚ) : Prop :=
  q = 0 ∨ ∃ d : Dyadic, d.toRat = |q| ∧ f.Fits (.finite d) ∧ f.sizeFloor ≤ d.top

variable {f : Format} {q : ℚ}

/-- What a format holds is its own rounding. -/
theorem Holds.toRat?_roundRat (h : f.Holds q) : (f.roundRat |q|).toRat? = some |q| := by
  rcases h with rfl | ⟨d, hd, hfits, hfloor⟩
  · rw [abs_zero, roundRat_zero]
    rfl
  · rw [← hd, roundRat_of_fits hfits hfloor]
    rfl

/-- Rounding leaves the value of a number that the format holds. -/
theorem Holds.toRat?_round (h : f.Holds q) {x : Number} (hx : x.toRat? = some q) :
    (f.round x).toRat? = some q := by
  rcases Number.toRat?_cases hx with ⟨hsize, rfl⟩ | ⟨d, hsize, rfl⟩
  · rw [round, hsize]
    simp [Number.toRat?, roundSize, Magnitude.toRat?]
  · have hround := h.toRat?_roundRat
    rw [abs_signed _ d.toRat_pos.le, ← roundSize_finite] at hround
    rw [round, hsize]
    exact Number.toRat?_of_size hround

/-- A quotient of numbers is exact if the format holds the quotient of their values. -/
theorem Holds.exists_div {p q : ℚ} (h : f.Holds (p / q)) (hq : q ≠ 0) {x y : Number}
    (hx : x.toRat? = some p) (hy : y.toRat? = some q) :
    ∃ z, x.div f.precision y = some z ∧ (f.round z).toRat? = some (p / q) := by
  rcases Number.toRat?_cases hy with ⟨-, rfl⟩ | ⟨b, hysize, hq'⟩
  · exact absurd rfl hq
  rcases Number.toRat?_cases hx with ⟨hxsize, rfl⟩ | ⟨a, hxsize, hp⟩
  · refine ⟨⟨x.negative != y.negative, .zero⟩, by simp [Number.div, hxsize, hysize], ?_⟩
    rw [zero_div]
    simp [Number.toRat?, round, roundSize, Magnitude.toRat?]
  · have ha := Nat.ne_of_gt a.mant_pos
    have hb := Nat.ne_of_gt b.mant_pos
    have hvalue : (a.mant : ℚ) / b.mant * 2 ^ (a.exp - b.exp) = a.toRat / b.toRat := by
      rw [Dyadic.toRat, Dyadic.toRat, zpow_sub₀ two_ne_zero, div_mul_div_comm]
    have hpositive : 0 ≤ a.toRat / b.toRat := (div_pos a.toRat_pos b.toRat_pos).le
    have hcut : Magnitude.ofRatio f.precision a.mant b.mant (a.exp - b.exp) =
        .finite (Dyadic.div f.precision a b) := by
      rw [Magnitude.ofRatio, dif_neg ha, dif_neg hb]
      rfl
    have hround := h.toRat?_roundRat
    rw [hp, hq', ← signed_div, abs_signed _ hpositive, ← hvalue, ← roundSize_ofRatio f ha hb,
      hcut, hvalue] at hround
    refine ⟨⟨x.negative != y.negative, .finite (Dyadic.div f.precision a b)⟩,
      by simp [Number.div, hxsize, hysize], ?_⟩
    rw [hp, hq', ← signed_div]
    exact Number.toRat?_of_size hround

end Format

/-- A number of 64 bits is held by the format of 64 bits. -/
theorem Binary64.holds {x : Binary64} {q : ℚ} (h : x.toRat? = some q) :
    Format.binary64.Holds q := by
  cases x with
  | nan => cases h
  | number n fits =>
    rcases Number.toRat?_cases h with ⟨-, rfl⟩ | ⟨d, hsize, rfl⟩
    · exact Or.inl rfl
    · rw [hsize] at fits
      refine Or.inr ⟨d, (abs_signed _ d.toRat_pos.le).symm, fits, ?_⟩
      have hexp : -1074 ≤ d.exp := fits.2.1
      change -1074 ≤ d.exp + (d.bits : ℤ)
      omega

/-- Whether a rational is held both in 64 bits and in the bits of a wide format. -/
def HeldInBoth (bits : ℕ) (q : ℚ) : Prop :=
  (∃ x : Binary64, x.toRat? = some q) ∧
    ∃ mant exp : ℤ, |mant| < 2 ^ Format.widthOf bits ∧ q = mant * 2 ^ exp

/-- A dyadic that fits 64 bits and has few enough bits is held in both, with either sign. -/
theorem Dyadic.heldInBoth (d : Dyadic) (bits : ℕ) (hfits : Format.binary64.Fits (.finite d))
    (hmant : d.mant < 2 ^ Format.widthOf bits) (negative : Bool) :
    HeldInBoth bits (signed negative d.toRat) := by
  refine ⟨⟨.number ⟨negative, .finite d⟩ hfits, rfl⟩,
    if negative then -d.mant else d.mant, d.exp, ?_, ?_⟩
  · cases negative
    · simpa using mod_cast hmant
    · simpa using mod_cast hmant
  · cases negative <;> simp [signed, toRat]

namespace HeldInBoth

variable {bits : ℕ} {q : ℚ}

/-- It is held in 64 bits. -/
theorem holds_binary64 (h : HeldInBoth bits q) : Format.binary64.Holds q := by
  obtain ⟨x, hx⟩ := h.1
  exact Binary64.holds hx

/-- It is held in the wide format, whose range is larger than that of 64 bits. -/
theorem holds_wide (h : HeldInBoth bits q) : (Format.wide bits).Holds q := by
  rcases h.holds_binary64 with rfl | ⟨d, hd, ⟨-, hexp, hceil⟩, -⟩
  · exact Or.inl rfl
  obtain ⟨mant, exp, hmant, rfl⟩ := h.2
  have hunit : (0 : ℚ) < 2 ^ exp := by positivity
  have habs : |(mant : ℚ) * 2 ^ exp| = (mant.natAbs : ℚ) * 2 ^ exp := by
    rw [abs_mul, abs_of_pos hunit, ← Int.cast_abs, ← Int.natCast_natAbs, Int.cast_natCast]
  have hne : mant.natAbs ≠ 0 := by
    intro hzero
    have hpos := d.toRat_pos
    rw [hd, habs, hzero] at hpos
    simp at hpos
  have heq : d = Dyadic.ofScaled mant.natAbs exp hne :=
    Dyadic.toRat_injective (by rw [hd, habs, Dyadic.toRat_ofScaled])
  have hlt : d.mant < 2 ^ Format.widthOf bits := by
    have hle := Dyadic.mant_ofScaled_le mant.natAbs exp hne
    rw [← heq] at hle
    zify
    zify at hle
    exact hle.trans_lt hmant
  have hlow : -1074 ≤ d.exp := hexp
  have hhigh : d.exp + (d.bits : ℤ) ≤ 1024 := hceil
  refine Or.inr ⟨d, hd, ⟨hlt, ?_, ?_⟩, ?_⟩
  · change -2147483648 - (Format.widthOf bits : ℤ) ≤ d.exp
    omega
  · change d.exp + (d.bits : ℤ) ≤ 2147483647
    omega
  · change -2147483648 ≤ d.exp + (d.bits : ℤ)
    omega

end HeldInBoth

/-! ### Exact operations -/

/-- The exact result of an operation. A division by zero has none, and powers are left out. -/
def Operator.onRat? : Operator → ℚ → ℚ → Option ℚ
  | add, p, q => some (p + q)
  | sub, p, q => some (p - q)
  | mul, p, q => some (p * q)
  | div, p, q => if q = 0 then none else some (p / q)
  | pow, _, _ => none

/-- An operation on numbers before rounding to a format; powers are left out. -/
def Operator.unrounded (f : Format) : Operator → Number → Number → Option Number
  | add => Number.add
  | sub => Number.sub
  | mul => Number.mul
  | div => Number.div f.precision
  | pow => fun _ _ ↦ none

/-- An operation whose exact result the format holds has this result after rounding. -/
theorem Operator.exists_unrounded {f : Format} {op : Operator} {p q r : ℚ}
    (hr : op.onRat? p q = some r) (h : f.Holds r) {x y : Number} (hx : x.toRat? = some p)
    (hy : y.toRat? = some q) :
    ∃ z, op.unrounded f x y = some z ∧ (f.round z).toRat? = some r := by
  cases op with
  | add =>
    obtain ⟨z, hz, hvalue⟩ := Number.toRat?_add hx hy
    exact ⟨z, hz, h.toRat?_round (hvalue.trans hr)⟩
  | sub =>
    obtain ⟨z, hz, hvalue⟩ := Number.toRat?_sub hx hy
    exact ⟨z, hz, h.toRat?_round (hvalue.trans hr)⟩
  | mul =>
    obtain ⟨z, hz, hvalue⟩ := Number.toRat?_mul hx hy
    exact ⟨z, hz, h.toRat?_round (hvalue.trans hr)⟩
  | div =>
    simp only [onRat?, Option.ite_none_left_eq_some, Option.some.injEq] at hr
    obtain ⟨hne, rfl⟩ := hr
    exact h.exists_div hne hx hy
  | pow => cases hr

/-- An operation in 64 bits whose exact result is held in 64 bits gives this result. -/
theorem Operator.apply_exact {op : Operator} {p q r : ℚ} (hr : op.onRat? p q = some r)
    (h : Format.binary64.Holds r) {x y : Binary64} (hx : x.toRat? = some p)
    (hy : y.toRat? = some q) : (op.apply x y).toRat? = some r := by
  cases x with
  | nan => cases hx
  | number n fits =>
    cases y with
    | nan => cases hy
    | number m fits' =>
      obtain ⟨z, hz, hvalue⟩ := exists_unrounded hr h hx hy
      have happly : op.apply (.number n fits) (.number m fits') =
          Binary64.ofResult (op.unrounded Format.binary64 n m) := by
        cases op with
        | pow => cases hr
        | _ => rfl
      rw [happly, hz]
      exact hvalue

/-- A wide operation whose exact result the format holds gives this result. -/
theorem Wide.arithmetic_exact {lib : Library} {f : Format} {op : Operator} {p q r : ℚ}
    (hr : op.onRat? p q = some r) (h : f.Holds r) {x y : Number} (hx : x.toRat? = some p)
    (hy : y.toRat? = some q) (span : Span) :
    ∃ z, Wide.arithmetic lib f span op x y = .ok z ∧ z.toRat? = some r := by
  obtain ⟨z, hz, hvalue⟩ := Operator.exists_unrounded hr h hx hy
  have harithmetic : Wide.arithmetic lib f span op x y =
      ((op.unrounded f x y).map f.round).elim (.error ⟨span, .notANumber op.symbol⟩) .ok := by
    cases op with
    | pow => cases hr
    | _ => rfl
  exact ⟨f.round z, by rw [harithmetic, hz]; rfl, hvalue⟩

/-! ### Exact literals -/

/-- The exact value of a literal; what is not finite has none. -/
def Literal.toRat? : Literal → Option ℚ
  | .nan => none
  | .infinite _ => none
  | .decimal negative value => some (signed negative value.toRat)
  | .binary negative mant exp => some (signed negative (mant * 2 ^ exp))

/-- A decimal is not negative. -/
theorem Decimal.toRat_nonneg (x : Decimal) : 0 ≤ x.toRat := by
  unfold toRat
  positivity

/-- A decimal with a sign whose value the format holds is read exactly. -/
theorem Format.Holds.toRat?_ofDecimal {f : Format} (hf : f.ContainsOne) {negative : Bool}
    {value : Decimal} (h : f.Holds (signed negative value.toRat)) :
    Number.toRat? ⟨negative, f.ofDecimal value⟩ = some (signed negative value.toRat) := by
  have hround := h.toRat?_roundRat
  rw [abs_signed _ value.toRat_nonneg, ← ofDecimal_eq_roundRat hf] at hround
  exact Number.toRat?_of_size hround

namespace Literal

/-- A literal whose value is held in 64 bits is read exactly. -/
theorem toBinary64_exact {literal : Literal} {q : ℚ} (hvalue : literal.toRat? = some q)
    (h : Format.binary64.Holds q) : literal.toBinary64.toRat? = some q := by
  cases literal with
  | nan => cases hvalue
  | infinite negative => cases hvalue
  | decimal negative value =>
    obtain rfl := Option.some.inj hvalue
    exact h.toRat?_round (h.toRat?_ofDecimal Format.containsOne_binary64)
  | binary negative mant exp =>
    obtain rfl := Option.some.inj hvalue
    exact h.toRat?_round (Number.toRat?_of_size (Magnitude.toRat?_ofScaled mant exp))

/-- The infinities that wide reading knows are infinities. -/
theorem named?_of_wideInfinity? {chars : List Char} {x : Number}
    (h : wideInfinity? chars = some x) : ∃ negative, named? chars = some (.infinite negative) := by
  unfold wideInfinity? splitSign at h
  simp only [Option.ite_none_right_eq_some] at h
  obtain ⟨hbody, -⟩ := h
  split at hbody
  all_goals rcases hbody with rfl | rfl <;> exact ⟨_, rfl⟩

/-- A literal with a value that is read wide is read exactly if the format holds the value. -/
theorem readWide?_exact {f : Format} (hf : f.ContainsOne) {text : String} {literal : Literal}
    (hread : read? text = some literal) {q : ℚ} (hvalue : literal.toRat? = some q)
    (h : f.Holds q) {x : Number} (hx : readWide? f text = some x) : x.toRat? = some q := by
  unfold readWide? at hx
  split at hx
  · rename_i y hinfinity
    obtain ⟨negative, hnamed⟩ := named?_of_wideInfinity? hinfinity
    rw [read?, hnamed, Option.some_or] at hread
    obtain rfl := Option.some.inj hread
    cases hvalue
  · simp only at hx
    split at hx
    · rename_i negative value hdecimal
      -- the decimal that wide reading finds is the one the literal was read as
      rw [read?_of_decimal? hdecimal] at hread
      obtain rfl := Option.some.inj hread
      obtain rfl := Option.some.inj hvalue
      split at hx
      · rename_i hzero
        obtain rfl := Option.some.inj hx
        simp [Number.toRat?, Magnitude.toRat?, Decimal.toRat, hzero]
      · obtain ⟨-, hx⟩ := Option.ite_none_right_eq_some.mp hx
        obtain rfl := Option.some.inj hx
        exact h.toRat?_ofDecimal hf
    · cases hx

end Literal

/-- A number of 64 bits that a wide format holds is wide exactly. -/
theorem Wide.ofBinary64_exact {f : Format} {q : ℚ} (h : f.Holds q) {x : Binary64}
    (hx : x.toRat? = some q) (span : Span) (operation : String) :
    ∃ y, Wide.ofBinary64 f span operation x = .ok y ∧ y.toRat? = some q := by
  cases x with
  | nan => cases hx
  | number n fits => exact ⟨f.round n, rfl, h.toRat?_round hx⟩

/-- A literal whose value is held in both formats is wide exactly, whichever way it is read. -/
theorem Wide.literal_exact {bits : ℕ} {text : String} {literal : Literal}
    (hread : Literal.read? text = some literal) {q : ℚ} (hvalue : literal.toRat? = some q)
    (h : HeldInBoth bits q) (span : Span) :
    ∃ x, Wide.literal (Format.wide bits) text literal.toBinary64 span = .ok x ∧
      x.toRat? = some q := by
  unfold Wide.literal
  cases hwide : Literal.readWide? (Format.wide bits) text with
  | some x =>
    exact ⟨x, rfl,
      Literal.readWide?_exact (Format.containsOne_wide bits) hread hvalue h.holds_wide hwide⟩
  | none =>
    exact Wide.ofBinary64_exact h.holds_wide (Literal.toBinary64_exact hvalue h.holds_binary64)
      span "literal"

/-! ### Exact expressions -/

namespace Expr

/-- The exact value of an expression of literals, variables and the four operations: its literals
stand for what their texts say, and its variables for what is stored. There is none with a literal
or a variable that is not finite, and none with a division by zero. -/
def exactValue? (env : Environment) : Expr → Option ℚ
  | literal text _ _ => (Literal.read? text).bind Literal.toRat?
  | var name _ => (env.lookup? name).bind Binary64.toRat?
  | call _ _ _ _ => none
  | binary op left right =>
    (left.exactValue? env).bind fun p ↦ (right.exactValue? env).bind fun q ↦ op.onRat? p q

mutual

/-- Whether the literals of an expression have the 64-bit values of their texts. -/
def LiteralsRead : Expr → Prop
  | literal text value _ => (Literal.read? text).map Literal.toBinary64 = some value
  | var _ _ => True
  | call _ _ args _ => LiteralsReadAll args
  | binary _ left right => left.LiteralsRead ∧ right.LiteralsRead

/-- Whether the literals of arguments have the 64-bit values of their texts. -/
def LiteralsReadAll : List Expr → Prop
  | [] => True
  | arg :: rest => arg.LiteralsRead ∧ LiteralsReadAll rest

end

/-- Whether the literals of what is read from a category have the values of their texts. -/
def LiteralsReadOf : (c : Category) → c.Reading → Prop
  | .expression _, e => LiteralsRead e
  | .arguments, args => LiteralsReadAll args

/-- The parser gives literals the values of their texts; the zero in front of a minus sign has
one too. -/
theorem literalsReadOf_reading {c : Category} (d : Derivation c) :
    LiteralsReadOf c d.reading := by
  induction d with
  | start first ih | unsigned operand ih | plus _ _ operand ih => exact ih
  | group opening opens inner closing closes ih => exact ih
  | step front token op stands joins back ihfront ihback => exact ⟨ihfront, ihback⟩
  | minus token isMinus operand ih =>
    have hzero : (signZero token.span).LiteralsRead := by
      change (Literal.read? "0").map Literal.toBinary64 = some Binary64.zero
      rfl
    exact ⟨hzero, ih⟩
  | number token isNumber value reads =>
    change (Literal.read? token.text).map Literal.toBinary64 = some value.toBinary64
    rw [reads, Option.map_some]
  | word => trivial
  | callNone => trivial
  | call callee isWord opening opens args closing closes ih => exact ih
  | last arg ih => exact ⟨ih, trivial⟩
  | more arg comma isComma rest iharg ihrest => exact ⟨iharg, ihrest⟩

/-- Literals that come from tokens have the values of their texts. -/
theorem literalsRead_of_ofTokens {tokens : List Token} {e : Expr} (h : ofTokens tokens = .ok e) :
    e.LiteralsRead := by
  obtain ⟨d, rfl, -⟩ := derivation_of_ofTokens h
  rw [ofTokens_reading] at h
  rw [← Except.ok.inj h]
  exact literalsReadOf_reading d

variable {lib : Library} {env : Environment} {bits : ℕ}

/-- What has an exact value calls no function. -/
theorem calls_of_exactValue? {f : Format} (e : Expr) {q : ℚ} (h : e.exactValue? env = some q) :
    e.calls lib f env = [] := by
  cases e with
  | literal text value span => rfl
  | var name span => rfl
  | call callee calleeSpan args span => cases h
  | binary op left right =>
    obtain ⟨p, hleft, h⟩ := Option.bind_eq_some_iff.mp h
    obtain ⟨r, hright, -⟩ := Option.bind_eq_some_iff.mp h
    rw [calls, calls_of_exactValue? left hleft, calls_of_exactValue? right hright]
    split <;> rfl

/-- Assumes: literals with the values of their texts, and exact values of all parts that are held in
both formats. Both evaluations give the exact value. -/
theorem eval_exact (lib : Library) (e : Expr) (hliterals : e.LiteralsRead)
    (hparts : ∀ part ∈ e.parts, ∃ q, part.exactValue? env = some q ∧ HeldInBoth bits q) :
    ∃ q x y, e.exactValue? env = some q ∧ e.eval env = .ok x ∧ x.toRat? = some q ∧
      e.evalFresh lib (Format.wide bits) env = .ok y ∧ y.toRat? = some q := by
  obtain ⟨q, hvalue, hheld⟩ := hparts e e.mem_parts_self
  cases e with
  | literal text value span =>
    obtain ⟨literal, hread, hliteral⟩ := Option.bind_eq_some_iff.mp hvalue
    have hplain : literal.toBinary64 = value := by
      have hmap : (Literal.read? text).map Literal.toBinary64 = some value := hliterals
      rw [hread, Option.map_some] at hmap
      exact Option.some.inj hmap
    obtain ⟨y, hwide, hy⟩ := Wide.literal_exact hread hliteral hheld span
    rw [hplain] at hwide
    have hx := Literal.toBinary64_exact hliteral hheld.holds_binary64
    rw [hplain] at hx
    exact ⟨q, value, y, hvalue, rfl, hx, hwide, hy⟩
  | var name span =>
    obtain ⟨x, hlookup, hx⟩ := Option.bind_eq_some_iff.mp hvalue
    cases x with
    | nan => cases hx
    | number n fits =>
      refine ⟨q, .number n fits, (Format.wide bits).round n, hvalue, ?_, hx, ?_,
        hheld.holds_wide.toRat?_round hx⟩
      · rw [eval, hlookup]
      · rw [evalFresh, Wide.variableValue, hlookup]
  | call callee calleeSpan args span => cases hvalue
  | binary op left right =>
    have hleftParts : ∀ part ∈ left.parts, ∃ q, part.exactValue? env = some q ∧ HeldInBoth bits q :=
      fun part hpart ↦ hparts part (by simp [parts, hpart])
    have hrightParts :
        ∀ part ∈ right.parts, ∃ q, part.exactValue? env = some q ∧ HeldInBoth bits q :=
      fun part hpart ↦ hparts part (by simp [parts, hpart])
    obtain ⟨p, x, y, hp, hx, hxp, hy, hyp⟩ := eval_exact lib left hliterals.1 hleftParts
    obtain ⟨r, x', y', hr, hx', hxr, hy', hyr⟩ := eval_exact lib right hliterals.2 hrightParts
    have hexact : op.onRat? p r = some q := by
      rw [exactValue?, hp, hr] at hvalue
      exact hvalue
    obtain ⟨z, hz, hzq⟩ := Wide.arithmetic_exact hexact hheld.holds_wide hyp hyr
      (left.span.union right.span)
    refine ⟨q, op.apply x x', z, hvalue, ?_,
      Operator.apply_exact hexact hheld.holds_binary64 hxp hxr, ?_, hzq⟩
    · rw [eval, hx, hx']
      rfl
    · rw [evalFresh, hy, hy']
      exact hz

/-- What has an exact value has the wide value that evaluation without slots gives. -/
theorem preciseValue_of_evalFresh {e : Expr} {q : ℚ} {y : Number}
    (hvalue : e.exactValue? env = some q) (h : e.evalFresh lib (Format.wide bits) env = .ok y) :
    e.preciseValue lib (Format.wide bits) env = .ok y := by
  have hcalls : AllWrite lib (Format.wide bits) (e.calls lib (Format.wide bits) env) := by
    rw [calls_of_exactValue? e hvalue]
    simp [AllWrite]
  have hlive := live_evalPrecise e hcalls Slots.empty
  rw [h] at hlive
  unfold preciseValue
  cases hslots : e.evalPrecise lib (Format.wide bits) env Slots.empty with
  | error fault =>
    rw [hslots] at hlive
    cases hlive
  | ok slots =>
    rw [hslots] at hlive
    have hstack : slots.live = [y] := Except.ok.inj hlive
    change Except.ok (slots.live.headD Number.zero) = Except.ok y
    rw [hstack]
    rfl

end Expr

namespace Statement

/-- Assumes: tokens that are read as an expression, and an environment in which every part of the
expression has an exact value that is a finite number of 64 bits and an integer of at most as many
bits as are asked for times a power of two. Executing the expression succeeds, in 64 bits and wide
with every library, and both results are the exact value of the whole expression. -/
theorem execute_exact (lib : Library) {tokens : List Token} {e : Expr}
    (hread : ofTokens tokens = .ok (expression e)) {env : Environment} {bits : ℕ}
    (hparts : ∀ part ∈ e.parts, ∃ q, part.exactValue? env = some q ∧ HeldInBoth bits q) :
    ∃ q x y, e.exactValue? env = some q ∧
      (expression e).execute env = .ok (env, some x) ∧ x.toRat? = some q ∧
      (expression e).executePrecise lib env bits = .ok (env, some y) ∧ y.toRat? = some q := by
  have hliterals := Expr.literalsRead_of_ofTokens (ofTokens_of_expression hread)
  obtain ⟨q, x, y, hvalue, hx, hxq, hy, hyq⟩ := e.eval_exact lib hliterals hparts
  have hwide := Expr.preciseValue_of_evalFresh hvalue hy
  refine ⟨q, x, y, hvalue, ?_, hxq, ?_, hyq⟩
  · rw [execute, hx]
    rfl
  · rw [executePrecise, hwide]
    rfl

/-- The tokens of `-x / 5e-1`. -/
def negatedQuotientTokens : List Token :=
  [.ofChars .minus 0 ['-'], .ofChars .word 1 ['x'], .ofChars .slash 3 ['/'],
    .ofChars .number 5 ['5', 'e', '-', '1']]

/-- The derivation of `-x / 5e-1`. -/
def negatedQuotientDerivation : SumDerivation :=
  .start (.minus (.ofChars .minus 0 ['-']) rfl
    (.unsigned (.step (.start (.start (.word (.ofChars .word 1 ['x']) rfl)))
      (.ofChars .slash 3 ['/']) .div rfl rfl
      (.unsigned (.start (.number (.ofChars .number 5 ['5', 'e', '-', '1']) rfl
        (.decimal false ⟨5, -1⟩) rfl))))))

/-- The expression `-x / 5e-1`. -/
def negatedQuotient : Expr :=
  .binary .sub (Expr.signZero ⟨0, 1⟩) (.binary .div (.var "x" ⟨1, 2⟩)
    (.literal "5e-1" (Literal.decimal false ⟨5, -1⟩).toBinary64 ⟨5, 9⟩))

/-- An environment with three stored in `x`. -/
def threeInX : Environment :=
  Environment.empty.set "x" (.number ⟨false, .finite ⟨3, 0, rfl⟩⟩ (by decide))

/-- The exact values of `-x / 5e-1` and of its parts if `x` is three, all of two bits. -/
theorem negatedQuotient_parts :
    negatedQuotient.exactValue? threeInX = some (-6) ∧
      ∀ part ∈ negatedQuotient.parts,
        ∃ q, part.exactValue? threeInX = some q ∧ HeldInBoth 2 q := by
  have hread : Literal.read? "5e-1" = some (.decimal false ⟨5, -1⟩) := rfl
  have hzero : (Expr.signZero ⟨0, 1⟩).exactValue? threeInX = some 0 := by
    have hread : Literal.read? "0" = some (.decimal false ⟨0, 0⟩) := rfl
    simp [Expr.signZero, Expr.exactValue?, hread, Literal.toRat?, signed, Decimal.toRat]
  have hx : (Expr.var "x" ⟨1, 2⟩).exactValue? threeInX = some 3 := by
    rw [Expr.exactValue?, threeInX, Environment.lookup?_set_self]
    simp [Binary64.toRat?, Binary64.toNumber?, Number.toRat?, Magnitude.toRat?, signed,
      Dyadic.toRat]
  have hhalf : (Expr.literal "5e-1" (Literal.decimal false ⟨5, -1⟩).toBinary64 ⟨5, 9⟩).exactValue?
      threeInX = some (1 / 2) := by
    rw [Expr.exactValue?, hread]
    norm_num [Literal.toRat?, signed, Decimal.toRat]
  have hquotient : (Expr.binary .div (.var "x" ⟨1, 2⟩)
      (.literal "5e-1" (Literal.decimal false ⟨5, -1⟩).toBinary64 ⟨5, 9⟩)).exactValue? threeInX =
        some 6 := by
    rw [Expr.exactValue?, hx, hhalf]
    norm_num [Operator.onRat?]
  have hwhole : negatedQuotient.exactValue? threeInX = some (-6) := by
    rw [negatedQuotient, Expr.exactValue?, hzero, hquotient]
    norm_num [Operator.onRat?]
  refine ⟨hwhole, ?_⟩
  intro part hpart
  simp only [negatedQuotient, Expr.signZero, Expr.parts, List.mem_cons, List.mem_append,
    List.not_mem_nil, or_false] at hpart
  rcases hpart with rfl | rfl | rfl | rfl | rfl
  · refine ⟨-6, hwhole, ?_⟩
    convert Dyadic.heldInBoth ⟨3, 1, rfl⟩ 2 (by decide) (by decide) true using 1
    norm_num [signed, Dyadic.toRat]
  · exact ⟨0, hzero, ⟨Binary64.zero, rfl⟩, 0, 0, by simp, by simp⟩
  · refine ⟨6, hquotient, ?_⟩
    convert Dyadic.heldInBoth ⟨3, 1, rfl⟩ 2 (by decide) (by decide) false using 1
    norm_num [signed, Dyadic.toRat]
  · refine ⟨3, hx, ?_⟩
    convert Dyadic.heldInBoth ⟨3, 0, rfl⟩ 2 (by decide) (by decide) false using 1
    norm_num [signed, Dyadic.toRat]
  · refine ⟨1 / 2, hhalf, ?_⟩
    convert Dyadic.heldInBoth ⟨1, -1, rfl⟩ 2 (by decide) (by decide) false using 1
    norm_num [signed, Dyadic.toRat]

/-- With three stored in `x`, the expression `-x / 5e-1` is exactly minus six, in 64 bits and in two
bits. -/
theorem execute_exact_negatedQuotient :
    ofTokens negatedQuotientTokens = .ok (expression negatedQuotient) ∧
      (∀ part ∈ negatedQuotient.parts,
        ∃ q, part.exactValue? threeInX = some q ∧ HeldInBoth 2 q) ∧
      ∃ x y, (expression negatedQuotient).execute threeInX = .ok (threeInX, some x) ∧
        x.toRat? = some (-6) ∧
        (expression negatedQuotient).executePrecise Library.standard threeInX 2 =
          .ok (threeInX, some y) ∧
        y.toRat? = some (-6) := by
  have hread : ofTokens negatedQuotientTokens = .ok (expression negatedQuotient) := by
    have hvalue : Expr.ofTokens negatedQuotientTokens = .ok negatedQuotient :=
      Expr.ofTokens_reading negatedQuotientDerivation
    have hkinds : ∀ token ∈ negatedQuotientTokens, token.kind ≠ .equals :=
      negatedQuotientDerivation.kind_ne_equals
    rw [ofTokens_expression hkinds, hvalue]
    rfl
  obtain ⟨hwhole, hparts⟩ := negatedQuotient_parts
  obtain ⟨q, x, y, hvalue, hx, hxq, hy, hyq⟩ :=
    execute_exact Library.standard hread hparts
  obtain rfl : q = -6 := Option.some.inj (hvalue.symm.trans hwhole)
  exact ⟨hread, hparts, x, y, hx, hxq, hy, hyq⟩

end Statement

end Reckoner
