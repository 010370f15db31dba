import Reckoner.Proofs.ExactValues
import Reckoner.Proofs.NegativeBase
import Reckoner.Proofs.ShortestDecimal

/-!
# The form of a canonical text

The canonical text of a finite 64-bit number is either positional, with digits on both sides of a
point, or scientific, with one digit that is not zero in front of the point and an exponent without
needless zeros. Which of the two is a question about the number, asked with the 64-bit numbers
nearest to a thousandth and to ten million; no number of 64 bits lies between a thousandth and the
one nearest to it, so the answer is that of the exact bounds (`Binary64.written_iff`).

The digits are those of the shortest decimal, whose first digit need not have the exponent of the
number itself. But rounding is monotone, so a shortest decimal between one and ten belongs to a
number between one and ten (`Binary64.exponent_numeralOf_ne_zero`). Hence the exponent of a
scientific text is never zero, and taking the zeros from its front leaves digits. So the text is
also what comes out of the standard texts of the same digits when a missing fraction is added and
the exponent is stripped (`Binary64.withPoint_positional`, `Binary64.restyled_scientific`).

Main statement: `Binary64.text_spelling`.
-/

set_option autoImplicit false

namespace Reckoner

/-! ### First digits -/

/-- The digits of a positive number do not start with a zero. -/
theorem head?_toDigits_ne_zero {n : ℕ} (h : n ≠ 0) : (Nat.toDigits 10 n).head? ≠ some '0' := by
  induction n using Nat.strongRecOn with
  | _ n ih =>
    rw [Nat.toDigits_eq_if (by decide)]
    split
    · simpa using h
    · rename_i hlarge
      have hne : Nat.toDigits 10 (n / 10) ≠ [] := List.ne_nil_of_length_pos Nat.length_toDigits_pos
      rw [List.head?_append_of_ne_nil _ hne]
      exact ih (n / 10) (by omega) (by omega)

namespace Decimal

variable {x : Decimal}

/-- The digits of a decimal do not start with a zero. -/
theorem head?_numeral_ne_zero (x : Decimal) : x.numeral.digits.head? ≠ some '0' := by
  unfold numeral
  split
  · simp
  · rename_i hcoeff
    obtain ⟨count, hcount⟩ := exists_trimZeros_append (digits x.coeff)
    have hhead := head?_toDigits_ne_zero hcoeff
    rw [← digits_eq_toDigits, hcount] at hhead
    intro hzero
    exact hhead (by rw [List.head?_append, hzero, Option.some_or])

/-- The exponent of the first digit places a positive decimal between two powers of ten. -/
theorem exponent_numeral (hx : 0 < x.toRat) :
    10 ^ x.numeral.exponent ≤ x.toRat ∧ x.toRat < 10 ^ (x.numeral.exponent + 1) := by
  have hcoeff : x.coeff ≠ 0 := by
    intro hzero
    rw [toRat, hzero, Nat.cast_zero, zero_mul] at hx
    exact lt_irrefl _ hx
  have hexponent : x.numeral.exponent = x.exp + digitCount x.coeff - 1 := by
    rw [Numeral.exponent, if_neg (by simpa using digits_numeral_ne_nil hx), numeral, if_neg hcoeff,
      digitCount, add_comm x.exp]
  rw [hexponent, sub_add_cancel]
  exact ⟨ten_pow_le_toRat hcoeff, x.toRat_lt⟩

end Decimal

/-! ### The range of positional notation -/

namespace Binary64

/-- Whether a size of the given value is written positionally. -/
def Positional (v : ℚ) : Prop :=
  v = 0 ∨ (1 / 1000 ≤ v ∧ v < 10 ^ 7)

/-- The dyadic of 64 bits that is nearest to a thousandth. -/
def thousandth : Dyadic :=
  ⟨1152921504606847, -60, by decide⟩

/-- Ten million as a dyadic. -/
def tenMillion : Dyadic :=
  ⟨78125, 7, by decide⟩

/-- A thousandth is rounded to the dyadic nearest to it. -/
theorem roundRat_thousandth : Format.binary64.roundRat (1 / 1000) = .finite thousandth := by
  have hvalue : Decimal.toRat ⟨1, -3⟩ = 1 / 1000 := by norm_num [Decimal.toRat]
  rw [← hvalue, ← Format.ofDecimal_eq_roundRat Format.containsOne_binary64]
  rfl

/-- The dyadic nearest to a thousandth is not below it. -/
theorem le_toRat_thousandth : 1 / 1000 ≤ thousandth.toRat := by
  norm_num [thousandth, Dyadic.toRat]

/-- The value of ten million. -/
theorem toRat_tenMillion : tenMillion.toRat = 10 ^ 7 := by
  norm_num [tenMillion, Dyadic.toRat]

/-- Ten million is a number of 64 bits. -/
theorem fits_tenMillion : Format.binary64.Fits (.finite tenMillion) := by
  decide

/-- The bounds of positional notation are these two dyadics. -/
theorem bounds_eq :
    (∃ fits, leastPositional = .number ⟨false, .finite thousandth⟩ fits) ∧
      ∃ fits, positionalLimit = .number ⟨false, .finite tenMillion⟩ fits := by
  have hleast : Format.binary64.ofDecimal ⟨1, -3⟩ = .finite thousandth := rfl
  have hlimit : Format.binary64.ofDecimal ⟨1, 7⟩ = .finite tenMillion := rfl
  rw [leastPositional, positionalLimit, hleast, hlimit]
  exact ⟨⟨by decide, ofNumber_of_fits _⟩, ⟨fits_tenMillion, ofNumber_of_fits _⟩⟩

/-- Assumes: a dyadic of 64 bits. It is within the 64-bit bounds of positional notation if it is
within the exact ones. -/
theorem within_bounds_iff {d : Dyadic} (negative : Bool) (fits : Format.binary64.Fits (.finite d)) :
    (le leastPositional (abs (.number ⟨negative, .finite d⟩ fits)) = true ∧
        lt (abs (.number ⟨negative, .finite d⟩ fits)) positionalLimit = true) ↔
      1 / 1000 ≤ d.toRat ∧ d.toRat < 10 ^ 7 := by
  obtain ⟨⟨leastFits, hleast⟩, ⟨limitFits, hlimit⟩⟩ := bounds_eq
  have hlow : le leastPositional (abs (.number ⟨negative, .finite d⟩ fits)) = true ↔
      thousandth.toRat ≤ d.toRat := by
    rw [hleast, ← not_lt, ← Dyadic.lt_iff, Bool.not_eq_true, ← Bool.not_eq_true']
    rfl
  have hhigh : lt (abs (.number ⟨negative, .finite d⟩ fits)) positionalLimit = true ↔
      d.toRat < 10 ^ 7 := by
    rw [hlimit, ← toRat_tenMillion, ← Dyadic.lt_iff]
    rfl
  -- nothing that 64 bits hold lies between a thousandth and what it is rounded to
  have hnear : thousandth.toRat ≤ d.toRat ↔ 1 / 1000 ≤ d.toRat := by
    refine ⟨le_toRat_thousandth.trans, fun h ↦ ?_⟩
    exact Format.toRat_le_of_roundRat (by norm_num) h roundRat_thousandth
      (Format.roundRat_of_fits fits (sizeFloor_le_top fits))
  rw [hlow, hhigh, hnear]

/-- Assumes: a size of 64 bits with a value. The canonical digits are positional if the value is in
the exact range. -/
theorem written_iff {negative : Bool} {size : Magnitude} (fits : Format.binary64.Fits size) {v : ℚ}
    (hv : size.toRat? = some v) :
    (size = .zero ∨ (le leastPositional (abs (.number ⟨negative, size⟩ fits)) = true ∧
        lt (abs (.number ⟨negative, size⟩ fits)) positionalLimit = true)) ↔ Positional v := by
  rcases Magnitude.toRat?_cases hv with ⟨rfl, rfl⟩ | ⟨d, rfl, rfl⟩
  · simp [Positional]
  · rw [within_bounds_iff, Positional]
    simp [d.toRat_pos.ne']

/-- Assumes: a size of 64 bits with a value out of the positional range. The first of its shortest
digits is not the unit. -/
theorem exponent_numeralOf_ne_zero {size : Magnitude} (fits : Format.binary64.Fits size) {v : ℚ}
    (hv : size.toRat? = some v) (hout : ¬ Positional v) : (numeralOf size).exponent ≠ 0 := by
  rcases Magnitude.toRat?_cases hv with ⟨rfl, rfl⟩ | ⟨d, rfl, rfl⟩
  · exact absurd (Or.inl rfl) hout
  · have hround := ofDecimal_decimalOf (by simp) fits
    rw [Format.ofDecimal_eq_roundRat Format.containsOne_binary64] at hround
    obtain ⟨hlow, hhigh⟩ := Decimal.exponent_numeral (Decimal.toRat_pos_of_roundRat hround)
    rw [← numeralOf_eq] at hlow hhigh
    intro hzero
    rw [hzero] at hlow hhigh
    norm_num at hlow hhigh
    have hleast : 1 / 1000 ≤ d.toRat := le_toRat_thousandth.trans
      (Format.toRat_le_of_roundRat (by norm_num) (by linarith) roundRat_thousandth hround)
    have hmost : d.toRat ≤ 2 ^ (4 : ℤ) := by
      have hbound : (Format.binary64.roundRat (decimalOf (.finite d)).toRat).AtMost (2 ^ (4 : ℤ)) :=
        Format.atMost_roundRat (Decimal.toRat_pos_of_roundRat hround) (by decide) (by decide)
          (by norm_num; linarith)
      rwa [hround] at hbound
    exact hout (Or.inr ⟨hleast, by norm_num at hmost ⊢; linarith⟩)

/-! ### Two forms -/

/-- Whether characters are digits, and at least one. -/
def AreDigits (cs : List Char) : Prop :=
  cs ≠ [] ∧ ∀ c ∈ cs, c.isDigit = true

/-- Whether a text is digits, a point, and digits. -/
def IsPositional (cs : List Char) : Prop :=
  ∃ whole fraction, AreDigits whole ∧ AreDigits fraction ∧ cs = whole ++ '.' :: fraction

/-- Whether a text is a digit that is not zero, a point, digits, a mark, and an exponent that may
have a minus sign and does not start with a zero. -/
def IsScientific (cs : List Char) : Prop :=
  ∃ first fraction negative exponent, first.isDigit = true ∧ first ≠ '0' ∧ AreDigits fraction ∧
    AreDigits exponent ∧ exponent.head? ≠ some '0' ∧
    cs = first :: '.' :: (fraction ++ 'E' :: withSign negative exponent)

/-- No text has both forms: one has a mark, and the other has none. -/
theorem IsPositional.not_isScientific {cs : List Char} (h : IsPositional cs) :
    ¬ IsScientific cs := by
  obtain ⟨whole, fraction, hwhole, hfraction, rfl⟩ := h
  rintro ⟨first, fraction', negative, exponent, -, -, -, -, -, heq⟩
  have hmem : 'E' ∈ whole ++ '.' :: fraction := by
    rw [heq]
    simp
  rcases List.mem_append.mp hmem with hmem | hmem
  · exact absurd (hwhole.2 _ hmem) (by decide)
  · rcases List.mem_cons.mp hmem with hmem | hmem
    · exact absurd hmem (by decide)
    · exact absurd (hfraction.2 _ hmem) (by decide)

/-- Windows of digits are digits. -/
theorem areDigits_window {n : Numeral} (hn : ∀ c ∈ n.digits, c.isDigit = true) (start : ℤ)
    {count : ℕ} (hcount : 0 < count) : AreDigits (n.window start count) := by
  refine ⟨?_, Numeral.isDigit_of_mem_window hn⟩
  simp [Numeral.window, hcount.ne']

/-- The digits in front of the point are digits. -/
theorem areDigits_integerPart {n : Numeral} (hn : ∀ c ∈ n.digits, c.isDigit = true) :
    AreDigits n.integerPart := by
  unfold Numeral.integerPart
  split
  · exact ⟨by simp, by simp⟩
  · rename_i hpoint
    have hwindow := areDigits_window hn 0 (by omega : 0 < n.point.toNat)
    simpa only [Numeral.window, zero_add] using hwindow

/-- Positional notation with places has the positional form. -/
theorem isPositional_positional {n : Numeral} (hn : ∀ c ∈ n.digits, c.isDigit = true) {places : ℕ}
    (hplaces : 0 < places) : IsPositional (n.positional places) := by
  refine ⟨n.integerPart, n.fractionPart places, areDigits_integerPart hn,
    areDigits_window hn n.point hplaces, ?_⟩
  rw [Numeral.positional, pointed_of_length_pos]
  simpa [Numeral.fractionPart] using hplaces

/-- The digits behind the first one are a window. -/
theorem map_digitAt_succ (n : Numeral) (places : ℕ) :
    (List.range places).map (fun (i : ℕ) ↦ n.digitAt (i + 1)) = n.window 1 places := by
  simp only [Numeral.window, add_comm (1 : ℤ)]

/-- Whether a numeral has digits and the first of them is not zero. -/
structure Significant (n : Numeral) : Prop where
  isDigit : ∀ c ∈ n.digits, c.isDigit = true
  ne_nil : n.digits ≠ []
  head?_ne : n.digits.head? ≠ some '0'

/-- The first place of such a numeral shows a digit that is not zero. -/
theorem Significant.digitAt_zero {n : Numeral} (hn : Significant n) :
    (n.digitAt 0).isDigit = true ∧ n.digitAt 0 ≠ '0' := by
  obtain ⟨c, rest, hcons⟩ := List.exists_cons_of_ne_nil hn.ne_nil
  have hfirst : n.digitAt 0 = c := by simp [Numeral.digitAt, hcons]
  rw [hfirst]
  refine ⟨hn.isDigit c (by simp [hcons]), ?_⟩
  rintro rfl
  exact hn.head?_ne (by simp [hcons])

/-- The digits of an exponent that is not zero are digits, and do not start with a zero. -/
theorem areDigits_toDigits {k : ℕ} (hk : k ≠ 0) :
    AreDigits (Nat.toDigits 10 k) ∧ (Nat.toDigits 10 k).head? ≠ some '0' :=
  ⟨⟨List.ne_nil_of_length_pos Nat.length_toDigits_pos,
    fun _ hc ↦ Nat.isDigit_of_mem_toDigits (by decide) (by decide) hc⟩, head?_toDigits_ne_zero hk⟩

/-- Scientific notation of a numeral whose exponent is not zero has the scientific form. -/
theorem isScientific_window {n : Numeral} (hn : Significant n) (hexponent : n.exponent ≠ 0)
    {places : ℕ} (hplaces : 0 < places) :
    IsScientific (Numeral.pointed [n.digitAt 0] (n.window 1 places) ++
      'E' :: withSign (decide (n.exponent < 0)) (Nat.toDigits 10 n.exponent.natAbs)) := by
  obtain ⟨hdigit, hzero⟩ := hn.digitAt_zero
  obtain ⟨hdigits, hfirst⟩ := areDigits_toDigits (Int.natAbs_ne_zero.mpr hexponent)
  have hfraction := areDigits_window hn.isDigit 1 hplaces
  refine ⟨n.digitAt 0, n.window 1 places, decide (n.exponent < 0), _, hdigit, hzero, hfraction,
    hdigits, hfirst, ?_⟩
  rw [pointed_of_length_pos (List.length_pos_of_ne_nil hfraction.1)]
  rfl

/-! ### The same texts from standard ones -/

/-- A text with a fraction added if it has no point. -/
def withPoint (cs : List Char) : List Char :=
  if '.' ∈ cs then cs else cs ++ ['.', '0']

/-- An exponent without a plus sign and without zeros in front. -/
def plainExponent (cs : List Char) : List Char :=
  withSign (decide (cs.head? = some '-')) (cs.tail.dropWhile (· = '0'))

/-- A text in scientific notation, cut at its mark, with a fraction and with a plain exponent behind
a capital mark. -/
def restyled (cs : List Char) : List Char :=
  withPoint (cs.takeWhile (· ≠ 'e')) ++ 'E' :: plainExponent (cs.dropWhile (· ≠ 'e')).tail

/-- A window that reaches to the last digit shows a zero as its first place behind it. -/
theorem window_atLeastOnePlace {n : Numeral} {start : ℤ} {count : ℕ}
    (h : n.digits.length ≤ start + count) :
    n.window start (atLeastOnePlace count) = if count = 0 then ['0'] else n.window start count := by
  unfold atLeastOnePlace
  split
  · rename_i hzero
    have hplace : n.digitAt start = '0' := by
      unfold Numeral.digitAt
      split
      · rfl
      · rw [List.getD_eq_getElem?_getD, List.getElem?_eq_none (by omega), Option.getD_none]
    simp [Numeral.window, hplace]
  · rfl

/-- Assumes: digits in front, and a window that reaches to the last digit. Adding a fraction where
there is none is the same as asking for at least one place. -/
theorem withPoint_pointed {n : Numeral} {whole : List Char} (hwhole : ∀ c ∈ whole, c.isDigit = true)
    {start : ℤ} {count : ℕ} (h : n.digits.length ≤ start + count) :
    withPoint (Numeral.pointed whole (n.window start count)) =
      Numeral.pointed whole (n.window start (atLeastOnePlace count)) := by
  rw [window_atLeastOnePlace h]
  split
  · rename_i hzero
    have hpoint : '.' ∉ whole := fun hmem ↦ absurd (hwhole _ hmem) (by decide)
    simp [hzero, Numeral.window, Numeral.pointed, withPoint, hpoint]
  · rename_i hcount
    rw [pointed_of_length_pos (by simp [Numeral.window]; omega), withPoint, if_pos (by simp)]

/-- The canonical digits in positional notation are the standard ones with a fraction. -/
theorem withPoint_positional {n : Numeral} (hn : ∀ c ∈ n.digits, c.isDigit = true) :
    withPoint (n.positional n.placesNeeded) = n.positional (atLeastOnePlace n.placesNeeded) := by
  refine withPoint_pointed (areDigits_integerPart hn).2 ?_
  unfold Numeral.placesNeeded
  omega

/-- An exponent that is not zero is stripped to its sign and its digits. -/
theorem plainExponent_signedExponent {e : ℤ} (he : e ≠ 0) :
    plainExponent (Numeral.signedExponent e) =
      withSign (decide (e < 0)) (Nat.toDigits 10 e.natAbs) := by
  obtain ⟨⟨hne, -⟩, hhead⟩ := areDigits_toDigits (Int.natAbs_ne_zero.mpr he)
  obtain ⟨c, rest, hcons⟩ := List.exists_cons_of_ne_nil hne
  have hc : c ≠ '0' := by
    rintro rfl
    exact hhead (by rw [hcons, List.head?_cons])
  have hdrop : ∀ digits, digits = '0' :: c :: rest ∨ digits = c :: rest →
      digits.dropWhile (· = '0') = c :: rest := by
    rintro digits (rfl | rfl) <;> simp [hc]
  have hsign : decide ((if e < 0 then '-' else '+') = '-') = decide (e < 0) := by
    split <;> simp [*]
  unfold plainExponent Numeral.signedExponent
  rw [hcons]
  dsimp only [List.head?_cons, List.tail_cons]
  rw [hdrop _ (by split <;> simp)]
  simp only [Option.some.injEq, hsign]

/-- Around a point there is nothing but it and the two parts. -/
theorem mem_pointed {whole fraction : List Char} {c : Char}
    (h : c ∈ Numeral.pointed whole fraction) : c ∈ whole ∨ c = '.' ∨ c ∈ fraction := by
  unfold Numeral.pointed at h
  split at h
  · exact Or.inl h
  · simpa using h

/-- The canonical digits in scientific notation are the standard ones, restyled. -/
theorem restyled_scientific {n : Numeral} (hn : Significant n) (hexponent : n.exponent ≠ 0) :
    restyled (n.scientific 'e' (n.digits.length - 1)) =
      Numeral.pointed [n.digitAt 0] (n.window 1 (atLeastOnePlace (n.digits.length - 1))) ++
        'E' :: withSign (decide (n.exponent < 0)) (Nat.toDigits 10 n.exponent.natAbs) := by
  have hfirst : ∀ c ∈ [n.digitAt 0], c.isDigit = true := by simpa using hn.digitAt_zero.1
  have hmark : ∀ c ∈ Numeral.pointed [n.digitAt 0] (n.window 1 (n.digits.length - 1)),
      decide (c ≠ 'e') = true := by
    intro c hc
    refine decide_eq_true ?_
    rintro rfl
    rcases mem_pointed hc with hmem | hmem | hmem
    · exact absurd (hfirst _ hmem) (by decide)
    · exact absurd hmem (by decide)
    · exact absurd (Numeral.isDigit_of_mem_window hn.isDigit _ hmem) (by decide)
  rw [Numeral.scientific, map_digitAt_succ, restyled, List.takeWhile_append_of_pos hmark,
    List.dropWhile_append_of_pos hmark, List.takeWhile_cons_of_neg (by simp),
    List.dropWhile_cons_of_neg (by simp), List.append_nil, List.tail_cons,
    plainExponent_signedExponent hexponent, withPoint_pointed hfirst (by omega)]

/-! ### Canonical spelling -/

/-- A size that has a value is not infinite. -/
theorem ne_infinite_of_toRat? {size : Magnitude} {v : ℚ} (hv : size.toRat? = some v) :
    size ≠ .infinite := by
  rintro rfl
  cases hv

/-- The shortest digits of a size are digits. -/
theorem isDigit_of_mem_numeralOf (size : Magnitude) :
    ∀ c ∈ (numeralOf size).digits, c.isDigit = true := by
  rw [numeralOf_eq]
  exact fun c ↦ Decimal.isDigit_of_mem_numeral

/-- The shortest digits of a size of 64 bits that is neither zero nor infinite are significant. -/
theorem significant_numeralOf {size : Magnitude} (hfinite : size ≠ .infinite)
    (fits : Format.binary64.Fits size) (hne : size ≠ .zero) : Significant (numeralOf size) := by
  refine ⟨isDigit_of_mem_numeralOf size, digits_numeralOf_ne_nil hfinite fits hne, ?_⟩
  rw [numeralOf_eq]
  exact Decimal.head?_numeral_ne_zero _

/-- The shortest decimal of a size of 64 bits is the shortest that is rounded to it. -/
theorem isShortest_decimalOf {size : Magnitude} (fits : Format.binary64.Fits size) {v : ℚ}
    (hv : size.toRat? = some v) :
    Decimal.IsShortest Format.binary64 size v (decimalOf size) := by
  rcases Magnitude.toRat?_cases hv with ⟨rfl, rfl⟩ | ⟨d, rfl, rfl⟩
  · refine ⟨rfl, fun y _ ↦ Nat.zero_le _, fun y _ _ ↦ ?_⟩
    have hzero : (decimalOf .zero).toRat = 0 := by simp [decimalOf, Decimal.toRat]
    rw [hzero, sub_zero, abs_zero]
    exact abs_nonneg _
  · exact Decimal.isShortest_shortest Format.containsOne_binary64 fits (sizeFloor_le_top fits)

/-- Assumes: a size of 64 bits with a value in the positional range. Its canonical digits are the
standard ones in positional notation with a fraction. -/
theorem sizeText_of_positional (negative : Bool) {size : Magnitude}
    (fits : Format.binary64.Fits size) {v : ℚ} (hv : size.toRat? = some v) (hin : Positional v) :
    IsPositional (sizeText (number ⟨negative, size⟩ fits) size) ∧
      sizeText (number ⟨negative, size⟩ fits) size =
        withPoint ((numeralOf size).positional (numeralOf size).placesNeeded) := by
  have hdigits := isDigit_of_mem_numeralOf size
  unfold sizeText
  dsimp only
  rw [if_pos ((written_iff fits hv).mpr hin), withPoint_positional hdigits]
  exact ⟨isPositional_positional hdigits (le_atLeastOnePlace _).2, rfl⟩

/-- Assumes: a size of 64 bits with a value out of the positional range. Its canonical digits are
the standard ones in scientific notation, restyled. -/
theorem sizeText_of_not_positional (negative : Bool) {size : Magnitude}
    (fits : Format.binary64.Fits size) {v : ℚ} (hv : size.toRat? = some v) (hout : ¬ Positional v) :
    IsScientific (sizeText (number ⟨negative, size⟩ fits) size) ∧
      sizeText (number ⟨negative, size⟩ fits) size =
        restyled ((numeralOf size).scientific 'e' ((numeralOf size).digits.length - 1)) := by
  have hfinite := ne_infinite_of_toRat? hv
  have hne : size ≠ .zero := by
    rintro rfl
    exact hout (Or.inl (Option.some.inj hv).symm)
  have hsignificant := significant_numeralOf hfinite fits hne
  have hexponent := exponent_numeralOf_ne_zero fits hv hout
  have hsign : ∀ (e : ℤ) (digits : List Char),
      (if e < 0 then '-' :: digits else digits) = withSign (decide (e < 0)) digits := by
    intro e digits
    simp [withSign]
  unfold sizeText
  dsimp only
  rw [if_neg (fun h ↦ hout ((written_iff fits hv).mp h)), map_digitAt_succ, hsign,
    restyled_scientific hsignificant hexponent]
  exact ⟨isScientific_window hsignificant hexponent (le_atLeastOnePlace _).2, rfl⟩

/-- The canonical text of a finite number is read as a decimal with its sign and with the value of
its shortest decimal, and that is the number again. -/
theorem exists_read?_sizeText (negative : Bool) {size : Magnitude} (hfinite : size ≠ .infinite)
    (fits : Format.binary64.Fits size) (x : Binary64) :
    ∃ decimal, Literal.read? (String.ofList (withSign negative (sizeText x size))) =
        some (.decimal negative decimal) ∧ decimal.toRat = (decimalOf size).toRat ∧
      (Literal.decimal negative decimal).toBinary64 = number ⟨negative, size⟩ fits := by
  obtain ⟨c, rest, decimal, htext, hc, hread, hvalue⟩ :=
    decimal?_sizeText x (isDigit_of_mem_numeralOf size) (digits_numeralOf_ne_nil hfinite fits)
      negative
  rw [numeralOf_eq, Decimal.toRat_numeral] at hvalue
  refine ⟨decimal, Literal.read?_of_decimal? ?_, hvalue, ?_⟩
  · rw [String.toList_ofList, htext, Literal.splitSign_withSign hc, ← htext]
    exact hread
  · have hround : Format.binary64.ofDecimal decimal = size := by
      rw [Format.ofDecimal_eq_roundRat Format.containsOne_binary64, hvalue,
        ← Format.ofDecimal_eq_roundRat Format.containsOne_binary64,
        ofDecimal_decimalOf hfinite fits]
    rw [Literal.toBinary64, hround]
    exact ofNumber_of_fits fits

/-- What the canonical text of a finite number is: a sign in front of digits, and the decimal that
they are read as. The number is given by its sign and its size, with the value of the size. -/
structure Spelling (negative : Bool) {size : Magnitude} (fits : Format.binary64.Fits size) (v : ℚ)
    (digits : List Char) (decimal : Decimal) : Prop where
  text_eq : (number ⟨negative, size⟩ fits).text = String.ofList (withSign negative digits)
  isPositional_iff : IsPositional digits ↔ v = 0 ∨ (1 / 1000 ≤ v ∧ v < 10 ^ 7)
  isScientific_iff : IsScientific digits ↔ v ≠ 0 ∧ ¬ (1 / 1000 ≤ v ∧ v < 10 ^ 7)
  /-- In the positional form they are the standard digits with a fraction. -/
  eq_withPoint : IsPositional digits →
    digits = withPoint ((numeralOf size).positional (numeralOf size).placesNeeded)
  /-- In the scientific form they are the standard digits restyled. -/
  eq_restyled : IsScientific digits →
    digits = restyled ((numeralOf size).scientific 'e' ((numeralOf size).digits.length - 1))
  read?_text : Literal.read? (number ⟨negative, size⟩ fits).text = some (.decimal negative decimal)
  toRat_eq : decimal.toRat = (decimalOf size).toRat
  /-- The decimal of the size is the shortest that is rounded to it. -/
  isShortest : Decimal.IsShortest Format.binary64 size v (decimalOf size)
  toBinary64_eq : (Literal.decimal negative decimal).toBinary64 = number ⟨negative, size⟩ fits

/-- Every finite number of 64 bits is spelled canonically, and different numbers have different
texts. -/
theorem text_spelling :
    (∀ (negative : Bool) {size : Magnitude} (fits : Format.binary64.Fits size) {v : ℚ},
      size.toRat? = some v → ∃ digits decimal, Spelling negative fits v digits decimal) ∧
      Function.Injective text := by
  refine ⟨?_, fun _ _ ↦ text_injective⟩
  intro negative size fits v hv
  have hfinite := ne_infinite_of_toRat? hv
  have htext : (number ⟨negative, size⟩ fits).text =
      String.ofList (withSign negative (sizeText (number ⟨negative, size⟩ fits) size)) := by
    cases size with
    | zero => rfl
    | finite d => rfl
    | infinite => exact absurd rfl hfinite
  obtain ⟨decimal, hread, hvalue, hback⟩ :=
    exists_read?_sizeText negative hfinite fits (number ⟨negative, size⟩ fits)
  have hshortest := isShortest_decimalOf fits hv
  refine ⟨sizeText (number ⟨negative, size⟩ fits) size, decimal, ?_⟩
  rw [← htext] at hread
  by_cases hrange : Positional v
  · obtain ⟨hform, hstandard⟩ := sizeText_of_positional negative fits hv hrange
    have hother := hform.not_isScientific
    exact ⟨htext, iff_of_true hform hrange, iff_of_false hother (fun h ↦ hrange.elim h.1 h.2),
      fun _ ↦ hstandard, fun h ↦ absurd h hother, hread, hvalue, hshortest, hback⟩
  · obtain ⟨hform, hstandard⟩ := sizeText_of_not_positional negative fits hv hrange
    have hother : ¬ IsPositional (sizeText (number ⟨negative, size⟩ fits) size) :=
      fun h ↦ h.not_isScientific hform
    exact ⟨htext, iff_of_false hother hrange, iff_of_true hform (not_or.mp hrange),
      fun h ↦ absurd h hother, fun _ ↦ hstandard, hread, hvalue, hshortest, hback⟩

/-- Ten million with a minus sign is spelled in scientific notation. -/
theorem text_spelling_minusTenMillion :
    ∃ digits decimal, IsScientific digits ∧
      Spelling true fits_tenMillion (10 ^ 7) digits decimal := by
  obtain ⟨digits, decimal, h⟩ := text_spelling.1 true fits_tenMillion
    (congrArg some toRat_tenMillion)
  exact ⟨digits, decimal, h.isScientific_iff.mpr (by norm_num), h⟩

end Binary64

end Reckoner
