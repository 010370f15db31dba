import Reckoner.Proofs.Powers
import Reckoner.Proofs.RoundingBounds

/-!
# Powers of negative numbers

A negative number has integer powers only, and the odd ones are negative. In 64 bits this holds as
it stands: such a power is not a number if the exponent is finite and no integer, and else has the
sign that the parity gives (`Binary64.sign?_pow`). Repeated squaring has an invariant for that: all
its values are of size one at most, so that no zero meets an infinity, and after the first step the
base is no longer negative, so that the first bit of the exponent decides about the sign.

A wide power of a negative number that is out of range or has no integer exponent is computed in 64
bits, with both operands rounded first. So the power fails only if it is no integer power after that
rounding, and an odd exponent can become even.

Main statement: `Wide.arithmetic_pow_of_negative`.
-/

set_option autoImplicit false

namespace Reckoner

namespace Number

/-- Whether a number is finite and not zero. -/
def isOrdinary (x : Number) : Bool :=
  match x.size with
  | .finite _ => true
  | _ => false

/-- Whether a number is finite and no integer. -/
def isFraction (x : Number) : Bool :=
  match x.size with
  | .finite d => decide (d.exp < 0)
  | _ => false

/-- A number with a positive value has no minus sign, and the size of its value. -/
theorem of_toRat?_pos {x : Number} {q : ℚ} (h : x.toRat? = some q) (hq : 0 < q) :
    x.negative = false ∧ x.size.AtMost q := by
  rcases toRat?_cases h with ⟨-, hzero⟩ | ⟨d, hsize, hd⟩
  · exact absurd hzero hq.ne'
  · have hpos := d.toRat_pos
    rw [hsize]
    cases hsign : x.negative with
    | true =>
      rw [hsign, signed, if_pos rfl] at hd
      linarith
    | false =>
      rw [hsign, signed, if_neg Bool.false_ne_true] at hd
      exact ⟨rfl, hd.ge⟩

end Number

/-- The order of dyadics is that of their values. -/
theorem Dyadic.lt_iff {a b : Dyadic} : a.lt b = true ↔ a.toRat < b.toRat := by
  have hmant (d : Dyadic) (hle : min a.exp b.exp ≤ d.exp) :
      (d.mantAt (min a.exp b.exp) : ℚ) * 2 ^ min a.exp b.exp = d.toRat :=
    Number.signedMant_mul false d hle
  rw [← hmant a (min_le_left _ _), ← hmant b (min_le_right _ _),
    mul_lt_mul_iff_left₀ (by positivity), Nat.cast_lt, lt, decide_eq_true_eq]

/-! ### Signs of 64-bit results -/

namespace Binary64

/-- The sign of a number of 64 bits; what is not a number has none. -/
def sign? (x : Binary64) : Option Bool :=
  x.toNumber?.map Number.negative

/-- Whether a value is a number with the given sign and of size one at most. -/
def Within (negative : Bool) (x : Binary64) : Prop :=
  ∃ z, x.toNumber? = some z ∧ z.negative = negative ∧ z.size.AtMost 1

variable {x y : Binary64} {s t : Bool}

/-- The sign of such a value. -/
theorem Within.sign?_eq (h : Within s x) : x.sign? = some s := by
  obtain ⟨z, hz, rfl, -⟩ := h
  rw [sign?, hz]
  rfl

/-- Rounding keeps the sign and the bound. -/
theorem within_ofNumber {z : Number} (hsign : z.negative = s) (hsize : z.size.AtMost 1) :
    Within s (ofNumber z) := by
  refine ⟨Format.binary64.round z, rfl, hsign, ?_⟩
  rw [← zpow_zero (2 : ℚ)] at hsize ⊢
  exact Format.atMost_roundSize (by decide) (by decide) hsize

/-- One is such a value. -/
theorem within_one : Within false one :=
  within_ofNumber rfl (by simp [Number.one, Magnitude.AtMost, Dyadic.toRat, Dyadic.twoPow])

/-- An operation on two numbers of 64 bits is that on plain numbers, rounded. -/
theorem lift₂_of_toNumber? {op : Number → Number → Option Number} {a b c : Number}
    (hx : x.toNumber? = some a) (hy : y.toNumber? = some b) (h : op a b = some c) :
    lift₂ op x y = ofNumber c := by
  cases x with
  | nan => cases hx
  | number _ _ =>
    cases y with
    | nan => cases hy
    | number _ _ =>
      cases hx
      cases hy
      rw [lift₂, h]
      rfl

/-- A product of sizes of one at most is one at most. -/
theorem within_mul (hx : Within s x) (hy : Within t y) : Within (s != t) (x.mul y) := by
  obtain ⟨⟨negative, size⟩, hx, rfl, hsize⟩ := hx
  obtain ⟨⟨negative', size'⟩, hy, rfl, hsize'⟩ := hy
  have hproduct : ∃ c, Number.mul ⟨negative, size⟩ ⟨negative', size'⟩ = some c ∧
      c.negative = (negative != negative') ∧ c.size.AtMost 1 := by
    cases size with
    | infinite => exact hsize.elim
    | zero =>
      cases size' with
      | infinite => exact hsize'.elim
      | zero => exact ⟨_, rfl, rfl, trivial⟩
      | finite d' => exact ⟨_, rfl, rfl, trivial⟩
    | finite d =>
      cases size' with
      | infinite => exact hsize'.elim
      | zero => exact ⟨_, rfl, rfl, trivial⟩
      | finite d' =>
        refine ⟨_, rfl, rfl, ?_⟩
        change (d.mul d').toRat ≤ 1
        rw [Dyadic.toRat_mul]
        exact mul_le_one₀ hsize d'.toRat_pos.le hsize'
  obtain ⟨c, hc, hsign, hbound⟩ := hproduct
  rw [mul, lift₂_of_toNumber? hx hy hc]
  exact within_ofNumber hsign hbound

/-- The sum of a value below one half with itself is one at most. -/
theorem within_add_self (hx : Within false x) (hhalf : lt x half = true) :
    Within false (x.add x) := by
  obtain ⟨⟨negative, size⟩, hx, hsign, hsize⟩ := hx
  cases hsign
  have hsum : ∃ c, Number.add ⟨false, size⟩ ⟨false, size⟩ = some c ∧ c.negative = false ∧
      c.size.AtMost 1 := by
    cases size with
    | infinite => exact hsize.elim
    | zero => exact ⟨_, rfl, rfl, trivial⟩
    | finite d =>
      have hvalue : Number.toRat? ⟨false, .finite d⟩ = some d.toRat := rfl
      obtain ⟨c, hc, hdouble⟩ := Number.toRat?_add hvalue hvalue
      have hbelow : d.toRat < 1 / 2 := by
        cases x with
        | nan => cases hx
        | number _ _ =>
          cases hx
          have hlt : d.lt (Dyadic.twoPow (-1)) = true := hhalf
          simpa [Dyadic.toRat, Dyadic.twoPow] using Dyadic.lt_iff.mp hlt
      have hpos := d.toRat_pos
      obtain ⟨hnegative, hbound⟩ := Number.of_toRat?_pos hdouble (by linarith)
      exact ⟨c, hc, hnegative, hbound.mono (by linarith)⟩
  obtain ⟨c, hc, hnegative, hbound⟩ := hsum
  rw [add, lift₂_of_toNumber? hx hx hc]
  exact within_ofNumber hnegative hbound

/-! ### Repeated squaring -/

/-- The square of a base, kept at one half or above. -/
def Scaled.squared (base : Scaled) : Scaled :=
  let square := base.value.mul base.value
  if lt square half then ⟨square.add square, 2 * base.exp - 1⟩ else ⟨square, 2 * base.exp⟩

/-- A result, multiplied by a base if the exponent that is left is odd. -/
def Scaled.multiplied (result base : Scaled) (count : Nat) : Scaled :=
  if count % 2 = 1 then ⟨result.value.mul base.value, result.exp + base.exp⟩ else result

variable {base result : Scaled}

/-- One step of repeated squaring. -/
theorem multiplyPowers_succ (fuel count : Nat) (base result : Scaled) :
    multiplyPowers (fuel + 1) count base result =
      if count = 0 then result
      else if squaringLimit < base.exp ∨ base.exp < -squaringLimit then
        ⟨result.value, result.exp + base.exp⟩
      else multiplyPowers fuel (count / 2) base.squared (result.multiplied base count) :=
  rfl

/-- A squared base is not negative, and one at most. -/
theorem within_squared (h : Within t base.value) : Within false base.squared.value := by
  have hsquare := within_mul h h
  rw [bne_self_eq_false] at hsquare
  unfold Scaled.squared
  dsimp only
  split
  · rename_i hhalf
    exact within_add_self hsquare hhalf
  · exact hsquare

/-- The sign of a result changes if it is multiplied by a negative base. -/
theorem within_multiplied (hresult : Within s result.value) (hbase : Within t base.value)
    (count : Nat) :
    Within (s != (t && decide (count % 2 = 1))) (result.multiplied base count).value := by
  unfold Scaled.multiplied
  split
  · rename_i hodd
    simpa [hodd] using within_mul hresult hbase
  · rename_i heven
    simpa [heven] using hresult

/-- With a base that is not negative, repeated squaring keeps the sign of the result. -/
theorem within_multiplyPowers (fuel count : Nat) (hbase : Within false base.value)
    (hresult : Within s result.value) :
    Within s (multiplyPowers fuel count base result).value := by
  induction fuel generalizing count base result with
  | zero => exact hresult
  | succ fuel ih =>
    rw [multiplyPowers_succ]
    split
    · exact hresult
    · split
      · exact hresult
      · apply ih _ (within_squared hbase)
        simpa using within_multiplied hresult hbase count

/-- With any base, the parity of the exponent decides about the sign. -/
theorem within_multiplyPowers_succ (fuel : Nat) {count : Nat} (hcount : count ≠ 0)
    (hexp : -squaringLimit ≤ base.exp ∧ base.exp ≤ squaringLimit) (hbase : Within t base.value)
    (hresult : Within s result.value) :
    Within (s != (t && decide (count % 2 = 1)))
      (multiplyPowers (fuel + 1) count base result).value := by
  rw [multiplyPowers_succ, if_neg hcount, if_neg (by omega)]
  exact within_multiplyPowers fuel _ (within_squared hbase) (within_multiplied hresult hbase count)

/-! ### Powers of negative numbers in 64 bits -/

/-- Scaling by a power of two keeps the sign. -/
theorem sign?_scale (x : Binary64) (count : Int) : (x.scale count).sign? = x.sign? := by
  cases x with
  | nan => rfl
  | number z fits =>
    obtain ⟨negative, size⟩ := z
    cases size <;> rfl

/-- The reciprocal keeps the sign. -/
theorem sign?_one_div (x : Binary64) : (one.div x).sign? = x.sign? := by
  cases x with
  | nan => rfl
  | number z fits =>
    obtain ⟨negative, size⟩ := z
    cases negative <;> cases size <;> rfl

variable {a b : Number} {d e : Dyadic}

/-- The mantissa of a negative number, brought below one. -/
def mantissaBelow (d : Dyadic) : Binary64 :=
  ofNumber ⟨true, .finite ⟨d.mant, -d.bits, d.odd⟩⟩

/-- It is one at most. -/
theorem within_mantissaBelow (d : Dyadic) : Within true (mantissaBelow d) := by
  apply within_ofNumber rfl
  have htop := (Dyadic.two_pow_le_toRat ⟨d.mant, -d.bits, d.odd⟩).2
  have hzero : Dyadic.top ⟨d.mant, -d.bits, d.odd⟩ = 0 := by
    change -(d.bits : ℤ) + d.bits = 0
    omega
  rw [hzero, zpow_zero] at htop
  exact htop.le

/-- An integer power of a negative number is computed by repeated squaring alone. -/
theorem exists_powParts (hnegative : a.negative = true) (whole : Nat) (falling : Bool) :
    ∃ power, multiplyPowers 64 whole ⟨mantissaBelow d, d.top⟩ ⟨one, 0⟩ = power ∧
      powParts a d falling whole zero =
        if falling then (one.div power.value).scale (-power.exp)
        else power.value.scale power.exp := by
  obtain ⟨negative, size⟩ := a
  cases hnegative
  exact ⟨_, rfl, rfl⟩

/-- Assumes: a negative base of 64 bits. An integer power by repeated squaring has the sign that the
parity of the exponent gives. -/
theorem sign?_powParts (hfits : Format.binary64.Fits (.finite d)) (hnegative : a.negative = true)
    {whole : Nat} (hwhole : whole ≠ 0) (falling : Bool) :
    (powParts a d falling whole zero).sign? = some (decide (whole % 2 = 1)) := by
  have hexp : -squaringLimit ≤ d.top ∧ d.top ≤ squaringLimit := by
    have hlow : -1074 ≤ d.exp := hfits.2.1
    have hhigh : d.top ≤ 1024 := hfits.2.2
    have htop : d.top = d.exp + d.bits := rfl
    change -4096 ≤ d.top ∧ d.top ≤ 4096
    omega
  obtain ⟨power, hpower, hparts⟩ := exists_powParts (d := d) hnegative whole falling
  have hwithin : Within (false != (true && decide (whole % 2 = 1)))
      (multiplyPowers 64 whole ⟨mantissaBelow d, d.top⟩ ⟨one, 0⟩).value :=
    within_multiplyPowers_succ 63 hwhole hexp (within_mantissaBelow d) within_one
  rw [hpower, Bool.true_and, Bool.false_bne] at hwithin
  rw [hparts]
  split
  · rw [sign?_scale, sign?_one_div, hwithin.sign?_eq]
  · rw [sign?_scale, hwithin.sign?_eq]

/-- A size without bits behind the point is its own whole part. -/
theorem wholeAndRest_of_nonneg (h : 0 ≤ e.exp) :
    wholeAndRest e = (e.mant * 2 ^ e.exp.toNat, .zero) :=
  if_pos h

/-- A size with bits behind the point has a rest. -/
theorem wholeAndRest_of_neg (h : e.exp < 0) : (wholeAndRest e).2 ≠ .zero := by
  have hrest : e.mant % 2 ^ (-e.exp).toNat ≠ 0 := by
    intro hzero
    have hdvd : 2 ∣ e.mant :=
      (dvd_pow_self 2 (by omega)).trans (Nat.dvd_of_mod_eq_zero hzero)
    have hodd := e.odd
    omega
  rw [wholeAndRest, if_neg (by omega)]
  simp [Magnitude.ofScaled, hrest]

/-- The limits of the powers of a number are not negative. -/
theorem negative_powLimit (a : Number) (falling : Bool) :
    (powLimit a falling).negative = false := by
  unfold powLimit
  split <;> rfl

/-- Assumes: finite operands other than zero of 64 bits, with a negative base. Their power is not a
number if the exponent is no integer, and else has the sign that its parity gives. -/
theorem sign?_powFinite (hfits : Format.binary64.Fits (.finite d)) (hnegative : a.negative = true)
    (hb : b.size = .finite e) (hfits' : Format.binary64.Fits (.finite e)) :
    (powFinite a d b e).sign? = if b.isFraction then none else some b.isOdd := by
  have hfraction : b.isFraction = decide (e.exp < 0) := by rw [Number.isFraction, hb]
  have hodd : b.isOdd = decide (e.exp = 0) := by rw [Number.isOdd, hb]
  rw [hfraction, hodd]
  rcases lt_or_ge e.exp 0 with hexp | hexp
  · have hrest := wholeAndRest_of_neg hexp
    generalize hparts : wholeAndRest e = parts at hrest
    simp [powFinite, hparts, hnegative, hrest, hexp, sign?, toNumber?]
  · have hhalf : e ≠ Dyadic.twoPow (-1) := by
      rintro rfl
      exact absurd hexp (by decide)
    have hpower : powFinite a d b e =
        if wholeLimit ≤ e.mant * 2 ^ e.exp.toNat then ofNumber (powLimit a b.negative)
        else powParts a d b.negative (e.mant * 2 ^ e.exp.toNat) zero := by
      simp only [powFinite, wholeAndRest_of_nonneg hexp, bne_self_eq_false, Bool.and_false,
        Bool.false_eq_true, if_false, if_neg hhalf]
      rfl
    have hparity := Dyadic.odd_mul_two_pow_iff hexp
    rw [Nat.odd_iff] at hparity
    rw [decide_eq_false (not_lt.mpr hexp), if_neg Bool.false_ne_true, hpower]
    split
    · -- such an exponent has more bits than a mantissa, so it is even
      rename_i hlarge
      have hmant : e.mant < 2 ^ 53 := hfits'.1
      have heven : e.exp ≠ 0 := by
        intro hzero
        have hlimit : 2 ^ 63 ≤ e.mant * 2 ^ e.exp.toNat := hlarge
        rw [hzero] at hlimit
        simp only [Int.toNat_zero, pow_zero, mul_one] at hlimit
        omega
      simp [sign?, ofNumber, toNumber?, Format.round, negative_powLimit, heven]
    · have hwhole : e.mant * 2 ^ e.exp.toNat ≠ 0 :=
        Nat.mul_ne_zero e.mant_pos.ne' (Nat.two_pow_pos _).ne'
      rw [sign?_powParts hfits hnegative hwhole]
      simp [hparity]

/-- Assumes: numbers of 64 bits, the base negative and the exponent not zero. The same for the power
with its limits at zeros and infinities. -/
theorem sign?_powNumber (ha : Format.binary64.Fits a.size) (hb : Format.binary64.Fits b.size)
    (hnegative : a.negative = true) (hzero : b.size ≠ .zero) :
    (powNumber a b).sign? = if a.isOrdinary && b.isFraction then none else some b.isOdd := by
  obtain ⟨negative, size⟩ := a
  obtain ⟨negative', size'⟩ := b
  cases hnegative
  cases size' with
  | zero => exact absurd rfl hzero
  | infinite =>
    cases size with
    | zero => rfl
    | infinite => rfl
    | finite d => exact congrArg some (negative_powLimit _ _)
  | finite e =>
    cases size with
    | zero => rfl
    | infinite => rfl
    | finite d => exact sign?_powFinite ha rfl rfl hb

/-- The exponents zero and one apart, a power of a negative number is that of `powNumber`. -/
theorem pow_of_negative (ha : Format.binary64.Fits a.size) (hb : Format.binary64.Fits b.size)
    (hnegative : a.negative = true) :
    pow (.number a ha) (.number b hb) =
      if b.size = .zero then one else if b = Number.one then .number a ha else powNumber a b := by
  have hbase : Binary64.number a ha ≠ one := by
    intro h
    obtain ⟨rfl⟩ := Binary64.number.inj h
    exact Bool.false_ne_true hnegative
  have hone : Binary64.number b hb = one ↔ b = Number.one := by
    have hround : one = .number Number.one (by decide) := rfl
    rw [hround, Binary64.number.injEq]
  have hzero : b.isZero = true ↔ b.size = .zero := by
    unfold Number.isZero
    cases b.size <;> simp
  simp only [pow, toNumber?, Option.any_some, hbase, decide_false, Bool.or_false, hzero, hone]

/-- Assumes: numbers of 64 bits, the base negative. Their power is not a number if the base is
finite and not zero and the exponent is finite and no integer, and else has the sign that the parity
of the exponent gives. -/
theorem sign?_pow (ha : Format.binary64.Fits a.size) (hb : Format.binary64.Fits b.size)
    (hnegative : a.negative = true) :
    (pow (.number a ha) (.number b hb)).sign? =
      if a.isOrdinary && b.isFraction then none else some b.isOdd := by
  rw [pow_of_negative ha hb hnegative]
  split
  · rename_i hzero
    have hinteger : b.isFraction = false := by rw [Number.isFraction, hzero]
    have heven : b.isOdd = false := by rw [Number.isOdd, hzero]
    rw [hinteger, heven, Bool.and_false]
    rfl
  · rename_i hzero
    split
    · rename_i hone
      subst hone
      have hinteger : Number.one.isFraction = false := rfl
      rw [hinteger, Bool.and_false]
      exact congrArg some hnegative
    · exact sign?_powNumber ha hb hnegative hzero

end Binary64

/-! ### Rounding an exponent to 64 bits -/

namespace Format

variable {d d' : Dyadic}

/-- Rounding an integer to 64 bits brings no bits behind the point, and takes those away that are
more than a mantissa has. -/
theorem le_exp_of_roundSize (hexp : 0 ≤ d.exp)
    (h : binary64.roundSize (.finite d) = .finite d') : d.exp + (d.bits - 53 : ℕ) ≤ d'.exp := by
  have hexcess : binary64.excess d = d.bits - 53 := by
    change max (d.bits - 53) (-1074 - d.exp).toNat = d.bits - 53
    omega
  have hfloor : ¬ d.top < binary64.sizeFloor := by
    change ¬ d.exp + (d.bits : ℤ) < -1074
    omega
  rw [roundSize, if_neg hfloor, hexcess] at h
  have hscaled := eq_of_bound_eq_finite h
  unfold Magnitude.ofScaled at hscaled
  split at hscaled
  · cases hscaled
  · rw [← Magnitude.finite.inj hscaled]
    exact Dyadic.le_exp_ofScaled _ _ _

/-- An odd number of at most 53 bits is its own rounding to 64 bits. -/
theorem roundSize_of_odd (hexp : d.exp = 0) (hmant : d.mant < 2 ^ 53) :
    binary64.roundSize (.finite d) = .finite d := by
  have hbits := Dyadic.bits_le_iff.mpr hmant
  have hfits : binary64.Fits (.finite d) := by
    refine ⟨hmant, ?_, ?_⟩
    · change -1074 ≤ d.exp
      omega
    · change d.exp + (d.bits : ℤ) ≤ 1024
      omega
  have hfloor : binary64.sizeFloor ≤ d.top := by
    change -1074 ≤ d.exp + (d.bits : ℤ)
    omega
  rw [roundSize_finite, roundRat_of_fits hfits hfloor]

end Format

namespace Number

variable {y : Number} {n : ℤ}

/-- An integer is rounded to no fraction. -/
theorem isFraction_round (hy : y.toRat? = some (n : ℚ)) :
    (Format.binary64.round y).isFraction = false := by
  have hinteger := (isInteger_iff hy).mpr ⟨n, rfl⟩
  unfold isInteger at hinteger
  unfold isFraction Format.round
  cases hsize : y.size with
  | zero => rfl
  | infinite => rfl
  | finite d =>
    cases hround : Format.binary64.roundSize (.finite d) with
    | zero => rfl
    | infinite => rfl
    | finite d' =>
      have hexp : 0 ≤ d.exp := by simpa [hsize] using hinteger
      have hexp' := Format.le_exp_of_roundSize hexp hround
      simp only [decide_eq_false_iff_not]
      omega

/-- An integer is rounded to an odd number if it is odd and below `2 ^ 53`. -/
theorem isOdd_round (hy : y.toRat? = some (n : ℚ)) :
    (Format.binary64.round y).isOdd = true ↔ Odd n ∧ |n| < 2 ^ 53 := by
  rw [← isOdd_iff hy rfl]
  rcases toRat?_cases hy with ⟨hsize, -⟩ | ⟨d, hsize, hd⟩
  · simp [isOdd, Format.round, Format.roundSize, hsize]
  · obtain ⟨hexp, hsplit⟩ := Dyadic.eq_of_toRat_eq_natCast (natAbs_of_signed_eq hd.symm)
    have hmant (hzero : d.exp = 0) : |n| = d.mant := by
      rw [Int.abs_eq_natAbs, hsplit, hzero]
      simp
    simp only [isOdd, Format.round, hsize, decide_eq_true_eq]
    constructor
    · intro hodd
      cases hround : Format.binary64.roundSize (.finite d) with
      | zero => simp [hround] at hodd
      | infinite => simp [hround] at hodd
      | finite d' =>
        simp only [hround, decide_eq_true_eq] at hodd
        have hraised := Format.le_exp_of_roundSize hexp hround
        have hbits := Dyadic.bits_le_iff.mp (show d.bits ≤ 53 by omega)
        refine ⟨by omega, ?_⟩
        rw [hmant (by omega)]
        exact_mod_cast hbits
    · rintro ⟨hzero, hlt⟩
      rw [hmant hzero] at hlt
      rw [Format.roundSize_of_odd hzero (by exact_mod_cast hlt)]
      simp [hzero]

end Number

/-! ### Wide powers of negative numbers -/

/-- Changing the sign after an effect changes the sign of its number. -/
theorem SlotEffect.apply_negated (effect : SlotEffect) (old : Number) :
    effect.negated.apply old = (effect.apply old).neg := by
  cases effect with
  | write x => rfl
  | keep => rfl
  | negate =>
    obtain ⟨negative, size⟩ := old
    cases negative <;> rfl

namespace Wide

variable {lib : Library} {f : Format} {x y : Number} {base : Dyadic} {q : ℚ}

/-- A wide integer power of a negative number, computed in a fresh slot, has the sign that the
parity of the exponent gives. -/
theorem negative_apply_pow (lib : Library) (f : Format) (base : Dyadic) (y : Number) :
    ((if y.isOdd then (powPositive lib f base y).negated else powPositive lib f base y).apply
      Number.zero).negative = y.isOdd := by
  have hpositive : ((powPositive lib f base y).apply Number.zero).negative = false := by
    unfold powPositive
    cases hpow : lib.pow f base y with
    | none => rfl
    | some x => exact lib.pow_nonneg hpow
  cases hodd : y.isOdd with
  | true => simp [SlotEffect.apply_negated, Number.neg, hpositive]
  | false => simpa using hpositive

/-- What a power of a negative number comes to that is not computed wide: a failure if in 64 bits
the number is finite and not zero and the exponent finite and no integer, and else a number with the
sign that the parity of the exponent in 64 bits gives. -/
theorem arithmetic_of_pow_eq_none (hnegative : x.negative = true) (hnone : pow lib f x y = none)
    (span : Span) :
    if (Format.binary64.round x).isOrdinary && (Format.binary64.round y).isFraction then
      arithmetic lib f span .pow x y = .error ⟨span, .notANumber "^"⟩
    else ∃ z, arithmetic lib f span .pow x y = .ok z ∧
      z.negative = (Format.binary64.round y).isOdd := by
  have hsign := Binary64.sign?_pow (Format.fits_round _ x) (Format.fits_round _ y) hnegative
  have hfallback : arithmetic lib f span .pow x y =
      ofBinary64 f span "^" ((Binary64.ofNumber x).pow (Binary64.ofNumber y)) := by
    simp only [arithmetic, hnone]
    rfl
  change ((Binary64.ofNumber x).pow (Binary64.ofNumber y)).sign? = _ at hsign
  rw [hfallback]
  cases hpower : (Binary64.ofNumber x).pow (Binary64.ofNumber y) with
  | nan =>
    rw [hpower] at hsign
    split
    · rfl
    · rename_i hcondition
      rw [if_neg hcondition] at hsign
      cases hsign
  | number z fits =>
    rw [hpower] at hsign
    split
    · rename_i hcondition
      rw [if_pos hcondition] at hsign
      cases hsign
    · rename_i hcondition
      rw [if_neg hcondition] at hsign
      exact ⟨_, rfl, Option.some.inj hsign⟩

/-- A power of a negative number is left to 64 bits if it is out of range or no integer power. -/
theorem pow_eq_none (hx : x.size = .finite base) (hnegative : x.negative = true)
    (h : ¬ (powInRange base y = true ∧ y.isInteger = true)) : pow lib f x y = none := by
  simp only [pow, hx, hnegative]
  cases hrange : powInRange base y with
  | false => simp
  | true =>
    have hinteger : y.isInteger = false := by simpa [hrange] using h
    simp [hinteger]

/-- Assumes: a finite number below zero and a finite exponent. With every library and at every
number of bits, their power fails exactly if in 64 bits the number is finite and not zero and the
exponent is finite and no integer. An integer power never fails. It is negative if the exponent is
odd and, unless the power is within the range of wide powers, also below `2 ^ 53`: then it is odd in
64 bits too. -/
theorem arithmetic_pow_of_negative (lib : Library) (bits : ℕ) (hx : x.size = .finite base)
    (hnegative : x.negative = true) (hy : y.toRat? = some q) (span : Span) :
    (arithmetic lib (Format.wide bits) span .pow x y = .error ⟨span, .notANumber "^"⟩ ↔
      (Format.binary64.round x).isOrdinary = true ∧
        (Format.binary64.round y).isFraction = true) ∧
    ∀ n : ℤ, q = n → ∃ z, arithmetic lib (Format.wide bits) span .pow x y = .ok z ∧
      (z.negative = true ↔ Odd n ∧ (powInRange base y = true ∨ |n| < 2 ^ 53)) := by
  by_cases hwide : powInRange base y = true ∧ y.isInteger = true
  · obtain ⟨hrange, hinteger⟩ := hwide
    obtain ⟨m, rfl⟩ := (Number.isInteger_iff hy).mp hinteger
    have hpow := @pow_eq_some lib (Format.wide bits) _ _ _ _ hx hy hrange fun _ ↦ hinteger
    rw [hnegative, Bool.true_and] at hpow
    have hok := arithmetic_of_pow_eq_some hpow span
    constructor
    · rw [hok, Number.isFraction_round hy]
      simp
    · intro n hn
      refine ⟨_, hok, ?_⟩
      rw [negative_apply_pow, Number.isOdd_iff hy hn, hrange]
      simp
  · have hfallback := arithmetic_of_pow_eq_none hnegative
      (@pow_eq_none lib (Format.wide bits) _ _ _ hx hnegative hwide) span
    constructor
    · rw [← Bool.and_eq_true]
      split at hfallback
      · rename_i hcondition
        exact ⟨fun _ ↦ hcondition, fun _ ↦ hfallback⟩
      · rename_i hcondition
        obtain ⟨z, hz, -⟩ := hfallback
        rw [hz]
        exact ⟨fun h ↦ (nomatch h), fun h ↦ absurd h hcondition⟩
    · rintro n rfl
      have hrange : ¬ powInRange base y = true :=
        fun h ↦ hwide ⟨h, (Number.isInteger_iff hy).mpr ⟨n, rfl⟩⟩
      rw [Number.isFraction_round hy, Bool.and_false, if_neg Bool.false_ne_true] at hfallback
      obtain ⟨z, hz, hsign⟩ := hfallback
      refine ⟨z, hz, ?_⟩
      rw [hsign, Number.isOdd_round hy]
      simp [hrange]

/-- A number below zero has no square root, and its fifth power is negative. -/
theorem arithmetic_pow_of_negative_two :
    arithmetic Library.standard (Format.wide 64) ⟨0, 6⟩ .pow ⟨true, .finite (Dyadic.twoPow 1)⟩
        ⟨false, .finite (Dyadic.twoPow (-1))⟩ = .error ⟨⟨0, 6⟩, .notANumber "^"⟩ ∧
      ∃ z, arithmetic Library.standard (Format.wide 64) ⟨0, 6⟩ .pow
        ⟨true, .finite (Dyadic.twoPow 1)⟩ ⟨false, .finite five⟩ = .ok z ∧ z.negative = true := by
  have hfive : Number.toRat? ⟨false, .finite five⟩ = some ((5 : ℤ) : ℚ) := by
    rw [Number.toRat?_of_size (x := ⟨false, .finite five⟩) rfl, toRat_five]
    rfl
  obtain ⟨z, hz, hsign⟩ :=
    (arithmetic_pow_of_negative Library.standard 64 (x := ⟨true, .finite (Dyadic.twoPow 1)⟩) rfl rfl
      hfive ⟨0, 6⟩).2 5 rfl
  exact ⟨(arithmetic_pow_of_negative Library.standard 64 rfl rfl rfl ⟨0, 6⟩).1.mpr ⟨rfl, rfl⟩, z,
    hz, hsign.mpr ⟨by decide, Or.inr (by decide)⟩⟩

/-- A number below zero that is too large for 64 bits has a square root. -/
theorem arithmetic_pow_half_of_huge :
    Number.isInteger ⟨false, .finite (Dyadic.twoPow (-1))⟩ = false ∧
      arithmetic Library.standard (Format.wide 64) ⟨0, 6⟩ .pow ⟨true, .finite (Dyadic.twoPow 1200)⟩
        ⟨false, .finite (Dyadic.twoPow (-1))⟩ = .ok Number.infinity :=
  ⟨rfl, rfl⟩

end Wide

end Reckoner
