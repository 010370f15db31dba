import Reckoner.Decimal.Layout
import Reckoner.Proofs.LiteralReading
import Reckoner.Proofs.Rounding

/-!
# The canonical text of a number reads back

The canonical text of a 64-bit number is laid out from the shortest digits that round to it. Reading
the text gives a decimal of the same value as these digits, whatever the layout: in positional and
in scientific notation the written digits are a window of the numeral, with zeros in front of its
first digit and behind its last (`Numeral.toRat_window`). Rounding depends on the value only, so the
number comes back.

Main statements: `Binary64.read?_text`, and that different numbers have different texts
(`Binary64.text_injective`).
-/

set_option autoImplicit false

namespace Reckoner

/-! ### The value of digits -/

namespace Literal

/-- Digits behind others count on from their value. -/
theorem foldl_digits (base : ℕ) (digits : List Char) (value : ℕ) :
    digits.foldl (fun value c ↦ value * base + hexValue c) value =
      value * base ^ digits.length + valueOf base digits := by
  induction digits generalizing value with
  | nil => simp [valueOf]
  | cons c digits ih =>
    rw [valueOf, List.foldl_cons, List.foldl_cons, ih, ih (0 * base + hexValue c), List.length_cons,
      pow_succ]
    ring

/-- The value of digits behind others. -/
theorem valueOf_append (base : ℕ) (front back : List Char) :
    valueOf base (front ++ back) = valueOf base front * base ^ back.length + valueOf base back := by
  rw [valueOf, List.foldl_append, foldl_digits]
  rfl

/-- Zeros have the value zero. -/
theorem valueOf_replicate_zero (base count : ℕ) : valueOf base (List.replicate count '0') = 0 := by
  induction count with
  | zero => rfl
  | succ count ih =>
    have hzero : valueOf base ['0'] = 0 := by simp [valueOf, hexValue]
    rw [List.replicate_succ', valueOf_append, ih, hzero, Nat.zero_mul]

/-- A digit has the value it is written for. -/
theorem hexValue_digitChar {k : ℕ} (h : k < 10) : hexValue (Nat.digitChar k) = k := by
  have hall : ∀ k : Fin 10, hexValue (Nat.digitChar k) = k := by decide
  exact hall ⟨k, h⟩

/-- The digits of a number have its value. -/
theorem valueOf_toDigits (n : ℕ) : valueOf 10 (Nat.toDigits 10 n) = n := by
  induction n using Nat.strongRecOn with
  | _ n ih =>
    rw [Nat.toDigits_eq_if (by decide)]
    split
    · rename_i hlt
      exact (Nat.zero_add _).trans (hexValue_digitChar hlt)
    · rename_i hge
      rw [valueOf_append, ih (n / 10) (by omega)]
      have hdigit : valueOf 10 [Nat.digitChar (n % 10)] = n % 10 :=
        (Nat.zero_add _).trans (hexValue_digitChar (Nat.mod_lt n (by decide)))
      rw [hdigit, List.length_singleton]
      omega

end Literal

/-! ### Numerals -/

/-- The value of a numeral. -/
def Numeral.toRat (n : Numeral) : ℚ :=
  Literal.valueOf 10 n.digits * 10 ^ (n.point - n.digits.length)

namespace Decimal

/-- The zeros taken from the end of digits stand there. -/
theorem exists_trimZeros_append (digits : List Char) :
    ∃ count, digits = trimZeros digits ++ List.replicate count '0' := by
  refine ⟨(digits.reverse.takeWhile (· = '0')).length, ?_⟩
  have hzeros : digits.reverse.takeWhile (· = '0') =
      List.replicate (digits.reverse.takeWhile (· = '0')).length '0' := by
    refine List.eq_replicate_of_mem ?_
    intro c hc
    simpa using List.all_eq_true.mp List.all_takeWhile c hc
  have hsplit := congrArg List.reverse
    (List.takeWhile_append_dropWhile (p := fun c ↦ decide (c = '0')) (l := digits.reverse))
  rw [List.reverse_append, List.reverse_reverse, hzeros, List.reverse_replicate] at hsplit
  exact hsplit.symm

/-- A decimal is written with its value. -/
theorem toRat_numeral (x : Decimal) : x.numeral.toRat = x.toRat := by
  unfold numeral
  split
  · rename_i hzero
    simp [Numeral.toRat, toRat, hzero, Literal.valueOf]
  · obtain ⟨count, hcount⟩ := exists_trimZeros_append (digits x.coeff)
    have hlength := congrArg List.length hcount
    have hvalue : Literal.valueOf 10 (trimZeros (digits x.coeff)) * 10 ^ count = x.coeff := by
      have hcoeff := Literal.valueOf_toDigits x.coeff
      rw [← digits_eq_toDigits, hcount, Literal.valueOf_append, Literal.valueOf_replicate_zero,
        List.length_replicate, Nat.add_zero] at hcoeff
      exact hcoeff
    rw [List.length_append, List.length_replicate] at hlength
    have hexp : ((digits x.coeff).length : ℤ) + x.exp - (trimZeros (digits x.coeff)).length =
        (count : ℤ) + x.exp := by omega
    have hcast : (x.coeff : ℚ) = Literal.valueOf 10 (trimZeros (digits x.coeff)) * 10 ^ count := by
      exact_mod_cast hvalue.symm
    simp only [Numeral.toRat, toRat, hexp, zpow_add₀ (by norm_num : (10 : ℚ) ≠ 0), zpow_natCast]
    rw [hcast]
    ring

/-- The digits of a numeral are digits. -/
theorem isDigit_of_mem_numeral {x : Decimal} {c : Char} (h : c ∈ x.numeral.digits) :
    c.isDigit = true := by
  unfold numeral at h
  split at h
  · cases h
  · obtain ⟨count, hcount⟩ := exists_trimZeros_append (digits x.coeff)
    have hmem : c ∈ Nat.toDigits 10 x.coeff := by
      rw [← digits_eq_toDigits, hcount]
      exact List.mem_append_left _ h
    exact Nat.isDigit_of_mem_toDigits (by decide) (by decide) hmem

end Decimal

namespace Numeral

/-- The digits of a numeral from a place on, with zeros outside. -/
def window (n : Numeral) (start : ℤ) (count : ℕ) : List Char :=
  (List.range count).map fun (i : ℕ) ↦ n.digitAt (start + i)

/-- A window that reaches over all digits has zeros in front of them and behind them. -/
theorem window_eq {n : Numeral} {start : ℤ} {count : ℕ} (hstart : start ≤ 0)
    (hcount : n.digits.length ≤ start + count) :
    n.window start count = List.replicate (-start).toNat '0' ++ n.digits ++
      List.replicate (start + count - n.digits.length).toNat '0' := by
  refine List.ext_getElem ?_ ?_
  · simp only [window, List.length_map, List.length_range, List.length_append,
      List.length_replicate]
    omega
  · intro i hi hi'
    simp only [window, List.getElem_map, List.getElem_range, List.getElem_append,
      List.getElem_replicate, List.length_append, List.length_replicate, digitAt]
    by_cases hfront : i < (-start).toNat
    · rw [if_pos (by omega), dif_pos (by omega), dif_pos hfront]
    · have hplace : (start + i).toNat = i - (-start).toNat := by omega
      rw [if_neg (by omega), hplace, List.getD_eq_getElem?_getD]
      by_cases hmiddle : i < (-start).toNat + n.digits.length
      · rw [dif_pos hmiddle, dif_neg hfront, List.getElem?_eq_getElem (by omega),
          Option.getD_some]
      · rw [dif_neg hmiddle, List.getElem?_eq_none (by omega), Option.getD_none]

/-- A window that reaches over all digits has the value of the numeral. -/
theorem toRat_window {n : Numeral} {start : ℤ} {count : ℕ} (hstart : start ≤ 0)
    (hcount : n.digits.length ≤ start + count) :
    (Literal.valueOf 10 (n.window start count) : ℚ) * 10 ^ (n.point - (start + count)) =
      n.toRat := by
  obtain ⟨k, hk⟩ := Int.le.dest hcount
  have hbehind : (start + count - n.digits.length).toNat = k := by omega
  have hexp : n.point - n.digits.length = k + (n.point - (start + count)) := by omega
  rw [window_eq hstart hcount, Literal.valueOf_append, Literal.valueOf_append,
    Literal.valueOf_replicate_zero, Literal.valueOf_replicate_zero, List.length_replicate, hbehind,
    toRat, hexp, zpow_add₀ (by norm_num), zpow_natCast]
  push_cast
  ring

/-- A window holds digits. -/
theorem isDigit_of_mem_window {n : Numeral} (hn : ∀ c ∈ n.digits, c.isDigit = true) {start : ℤ}
    {count : ℕ} : ∀ c ∈ n.window start count, c.isDigit = true := by
  intro c hc
  obtain ⟨i, -, rfl⟩ := List.mem_map.mp hc
  unfold digitAt
  split
  · rfl
  · rw [List.getD_eq_getElem?_getD]
    cases hdigit : n.digits[(start + (i : ℤ)).toNat]? with
    | none => rfl
    | some c => exact hn c (List.mem_of_getElem? hdigit)

/-- The digits in front of the point and those behind it are a window. -/
theorem exists_window_positional (n : Numeral) (places : ℕ) :
    ∃ (start : ℤ) (count : ℕ), start ≤ 0 ∧ start + count = n.point + places ∧
      n.integerPart ++ n.fractionPart places = n.window start count := by
  unfold integerPart fractionPart window
  split
  · rename_i hpoint
    refine ⟨n.point - 1, places + 1, by omega, by push_cast; ring, ?_⟩
    have hzero : n.digitAt (n.point - 1) = '0' := if_pos (by omega)
    rw [List.range_succ_eq_map, List.map_cons, List.map_map, Nat.cast_zero, add_zero, hzero]
    refine congrArg ('0' :: ·) (List.map_congr_left fun i _ ↦ ?_)
    congr 1
    push_cast
    ring
  · rename_i hpoint
    refine ⟨0, n.point.toNat + places, le_rfl, by push_cast; omega, ?_⟩
    rw [List.range_add, List.map_append, List.map_map]
    refine congrArg₂ (· ++ ·) (List.map_congr_left fun i _ ↦ ?_) (List.map_congr_left fun i _ ↦ ?_)
    · rw [zero_add]
    · congr 1
      push_cast
      omega

/-- The first digit and those behind it are a window. -/
theorem cons_eq_window (n : Numeral) (count : ℕ) :
    n.digitAt 0 :: (List.range count).map (fun (i : ℕ) ↦ n.digitAt (i + 1)) =
      n.window 0 (count + 1) := by
  rw [window, List.range_succ_eq_map, List.map_cons, List.map_map, Nat.cast_zero, add_zero]
  refine congrArg (n.digitAt 0 :: ·) (List.map_congr_left fun i _ ↦ ?_)
  congr 1
  push_cast
  ring

end Numeral

/-! ### Reading what is written -/

namespace Literal

/-- Digits have no sign. -/
theorem splitSign_of_isDigit {c : Char} (h : c.isDigit = true) (rest : List Char) :
    splitSign (c :: rest) = (false, c :: rest) := by
  unfold splitSign
  split
  · rename_i heq
    cases heq
    exact absurd h (by decide)
  · rename_i heq
    cases heq
    exact absurd h (by decide)
  · rfl

/-- A sign in front of a digit is split off again. -/
theorem splitSign_withSign {c : Char} (h : c.isDigit = true) (negative : Bool) (rest : List Char) :
    splitSign (withSign negative (c :: rest)) = (negative, c :: rest) := by
  cases negative
  · exact splitSign_of_isDigit h rest
  · rfl

/-- Digits on both sides of a point are read as they stand. -/
theorem mantissa?_pointed {whole fraction rest : List Char}
    (hwhole : ∀ c ∈ whole, c.isDigit = true) (hfraction : ∀ c ∈ fraction, c.isDigit = true)
    (hne : whole ≠ []) (hrest : ∀ c, rest.head? = some c → c.isDigit = false) :
    mantissa? Char.isDigit (whole ++ '.' :: (fraction ++ rest)) = some (whole, fraction, rest) := by
  have htake : rest.takeWhile Char.isDigit = [] := by
    cases rest with
    | nil => rfl
    | cons c rest => simp [hrest c rfl]
  have hdrop : rest.dropWhile Char.isDigit = rest := by
    cases rest with
    | nil => rfl
    | cons c rest => simp [hrest c rfl]
  have hpoint : Char.isDigit '.' = false := rfl
  unfold mantissa?
  rw [List.takeWhile_append_of_pos hwhole, List.dropWhile_append_of_pos hwhole]
  simp only [List.takeWhile_cons, List.dropWhile_cons, hpoint, Bool.false_eq_true, ↓reduceIte,
    List.append_nil, List.takeWhile_append_of_pos hfraction, List.dropWhile_append_of_pos hfraction,
    htake, hdrop]
  simp [hne]

/-- An exponent is read as it is written. -/
theorem exponent?_signed (e : ℤ) :
    exponent? (if e < 0 then '-' :: Nat.toDigits 10 e.natAbs else Nat.toDigits 10 e.natAbs) =
      some e := by
  have hdigits : ∀ c ∈ Nat.toDigits 10 e.natAbs, c.isDigit = true :=
    fun c hc ↦ Nat.isDigit_of_mem_toDigits (by decide) (by decide) hc
  have hne : Nat.toDigits 10 e.natAbs ≠ [] := List.ne_nil_of_length_pos Nat.length_toDigits_pos
  have hvalue := valueOf_toDigits e.natAbs
  generalize Nat.toDigits 10 e.natAbs = digits at hdigits hne hvalue
  have hall : digits.all Char.isDigit = true := List.all_eq_true.mpr hdigits
  split
  · rename_i hneg
    have hminus : splitSign ('-' :: digits) = (true, digits) := rfl
    simp [exponent?, hminus, hne, hall, hvalue, abs_of_neg hneg]
  · rename_i hpos
    obtain ⟨c, rest, rfl⟩ := List.exists_cons_of_ne_nil hne
    have hplus := splitSign_of_isDigit (hdigits c List.mem_cons_self) rest
    simp [exponent?, hplus, hall, hvalue, abs_of_nonneg (not_lt.mp hpos)]

end Literal

/-- Digits around a point, from a window of a numeral, are read as a decimal of its value. -/
theorem Numeral.decimal?_window {n : Numeral} (hn : ∀ c ∈ n.digits, c.isDigit = true)
    {whole fraction rest : List Char} {start exponent : ℤ} {count : ℕ} (hstart : start ≤ 0)
    (hcount : n.digits.length ≤ start + count) (hwindow : whole ++ fraction = n.window start count)
    (hne : whole ≠ []) (hrest : ∀ c, rest.head? = some c → c.isDigit = false)
    (hexponent : Literal.IsExponent rest exponent)
    (hpoint : exponent - fraction.length = n.point - (start + count)) (negative : Bool) :
    ∃ value, Literal.decimal? negative (whole ++ '.' :: (fraction ++ rest)) =
        some (.decimal negative value) ∧ value.toRat = n.toRat := by
  have hdigits : ∀ c ∈ whole ++ fraction, c.isDigit = true := by
    rw [hwindow]
    exact isDigit_of_mem_window hn
  have hmantissa := Literal.mantissa?_pointed (fun c hc ↦ hdigits c (List.mem_append_left _ hc))
    (fun c hc ↦ hdigits c (List.mem_append_right _ hc)) hne hrest
  refine ⟨_, Literal.decimal?_eq_some_iff.mpr
    ⟨whole, fraction, rest, exponent, hmantissa, hexponent, rfl⟩, ?_⟩
  rw [Decimal.toRat, hwindow, hpoint, toRat_window hstart hcount]

/-! ### Numbers of 64 bits -/

namespace Binary64

/-- At least as many places as asked for, and one. -/
theorem le_atLeastOnePlace (places : ℕ) :
    places ≤ atLeastOnePlace places ∧ 0 < atLeastOnePlace places := by
  unfold atLeastOnePlace
  split <;> omega

/-- Digits around a point, if there are any behind it. -/
theorem pointed_of_length_pos {whole fraction : List Char} (h : 0 < fraction.length) :
    Numeral.pointed whole fraction = whole ++ '.' :: fraction := by
  obtain ⟨c, rest, rfl⟩ := List.exists_cons_of_length_pos h
  rfl

/-- Positional notation with enough places is read as a decimal of the value of the numeral. -/
theorem decimal?_positional {n : Numeral} (hn : ∀ c ∈ n.digits, c.isDigit = true) {places : ℕ}
    (hplaces : n.placesNeeded ≤ places) (hpos : 0 < places) (negative : Bool) :
    ∃ c rest value, n.positional places = c :: rest ∧ c.isDigit = true ∧
      Literal.decimal? negative (n.positional places) = some (.decimal negative value) ∧
      value.toRat = n.toRat := by
  obtain ⟨start, count, hstart, hend, hwindow⟩ := n.exists_window_positional places
  have hlength : (n.fractionPart places).length = places := by
    simp [Numeral.fractionPart]
  have hne : n.integerPart ≠ [] := by
    unfold Numeral.integerPart
    split
    · simp
    · simp only [ne_eq, List.map_eq_nil_iff, List.range_eq_nil]
      omega
  have hcount : (n.digits.length : ℤ) ≤ start + count := by
    unfold Numeral.placesNeeded at hplaces
    omega
  have hnil : n.positional places = n.integerPart ++ '.' :: (n.fractionPart places ++ []) := by
    rw [Numeral.positional, pointed_of_length_pos (by omega), List.append_nil]
  obtain ⟨value, hread, hvalue⟩ := Numeral.decimal?_window hn hstart hcount hwindow hne
    (by simp) (Or.inl ⟨rfl, rfl⟩) (by rw [hlength]; omega) negative
  obtain ⟨c, rest, hfront⟩ := List.exists_cons_of_ne_nil hne
  have hdigit : c.isDigit = true := by
    have hall : ∀ c ∈ n.window start count, c.isDigit = true := Numeral.isDigit_of_mem_window hn
    rw [← hwindow, hfront] at hall
    exact hall c List.mem_cons_self
  exact ⟨c, _, value, by rw [hnil, hfront]; rfl, hdigit, by rw [hnil, hread], hvalue⟩

/-- Assumes: a size whose numeral has digits, and at least one unless the size is zero. Its
canonical digits start with a digit and are read as a decimal of the value of the numeral. -/
theorem decimal?_sizeText (x : Binary64) {size : Magnitude}
    (hdigits : ∀ c ∈ (numeralOf size).digits, c.isDigit = true)
    (hne : size ≠ .zero → (numeralOf size).digits ≠ []) (negative : Bool) :
    ∃ c rest value, sizeText x size = c :: rest ∧ c.isDigit = true ∧
      Literal.decimal? negative (sizeText x size) = some (.decimal negative value) ∧
      value.toRat = (numeralOf size).toRat := by
  unfold sizeText
  dsimp only
  split
  · obtain ⟨hplaces, hpos⟩ := le_atLeastOnePlace (numeralOf size).placesNeeded
    exact decimal?_positional hdigits hplaces hpos negative
  · rename_i hsize
    have hdigitsNe := hne fun hzero ↦ hsize (Or.inl hzero)
    generalize numeralOf size = n at hdigits hdigitsNe ⊢
    obtain ⟨hplaces, hpos⟩ := le_atLeastOnePlace (n.digits.length - 1)
    generalize atLeastOnePlace (n.digits.length - 1) = places at hplaces hpos ⊢
    have hexponent : n.exponent = n.point - 1 := by
      rw [Numeral.exponent, if_neg (by simpa using hdigitsNe)]
    have hwindow : [n.digitAt 0] ++ (List.range places).map (fun (i : ℕ) ↦ n.digitAt (i + 1)) =
        n.window 0 (places + 1) := n.cons_eq_window places
    have hlength : ((List.range places).map fun (i : ℕ) ↦ n.digitAt (i + 1)).length = places := by
      simp
    generalize (List.range places).map (fun (i : ℕ) ↦ n.digitAt (i + 1)) = fraction
      at hwindow hlength ⊢
    have hdigit : (n.digitAt 0).isDigit = true := by
      have hall : ∀ c ∈ n.window 0 (places + 1), c.isDigit = true :=
        Numeral.isDigit_of_mem_window hdigits
      rw [← hwindow] at hall
      exact hall _ List.mem_cons_self
    rw [pointed_of_length_pos (by omega), List.append_assoc, List.cons_append]
    obtain ⟨value, hread, hvalue⟩ := Numeral.decimal?_window hdigits le_rfl
      (by push_cast; omega) hwindow (by simp) (by simp)
      (Or.inr ⟨'E', _, rfl, rfl, Literal.exponent?_signed n.exponent⟩)
      (by rw [hlength, hexponent]; push_cast; ring) negative
    exact ⟨n.digitAt 0, _, value, rfl, hdigit, hread, hvalue⟩

end Binary64

namespace Decimal

/-- A dyadic is a decimal of its value. -/
theorem toRat_ofDyadic (d : Dyadic) : (ofDyadic d).toRat = d.toRat := by
  unfold ofDyadic
  split
  · rename_i hexp
    obtain ⟨k, hk⟩ := Int.eq_ofNat_of_zero_le hexp
    simp [toRat, Dyadic.toRat, hk]
  · rename_i hexp
    obtain ⟨k, hk⟩ := Int.eq_ofNat_of_zero_le (by omega : 0 ≤ -d.exp)
    have hneg : d.exp = -(k : ℤ) := by omega
    have hten : (10 : ℚ) ^ k = 5 ^ k * 2 ^ k := by rw [← mul_pow]; norm_num
    simp only [toRat, Dyadic.toRat, hneg, neg_neg, Int.toNat_natCast, Nat.pow_eq, zpow_neg,
      zpow_natCast, hten]
    push_cast
    field_simp

/-- Assumes: a dyadic that the format holds. Its shortest decimal rounds back to it: either it was
found to, or it is the exact one. -/
theorem ofDecimal_shortest {f : Format} (hf : f.ContainsOne) {d : Dyadic}
    (hfits : f.Fits (.finite d)) (hfloor : f.sizeFloor ≤ d.top) :
    f.ofDecimal (shortest f d) = .finite d := by
  have hfrom (count : ℕ) : f.ofDecimal (shortestFrom f d (ofDyadic d) count) = .finite d := by
    induction count with
    | zero =>
      rw [shortestFrom, Format.ofDecimal_eq_roundRat hf, toRat_ofDyadic,
        Format.roundRat_of_fits hfits hfloor]
    | succ count ih =>
      rw [shortestFrom]
      split
      · rename_i x hfound
        have hback : readsBack f d x = true := List.find?_some hfound
        exact of_decide_eq_true hback
      · exact ih
  exact hfrom _

end Decimal

namespace Binary64

/-- A dyadic of 64 bits is not too small for them. -/
theorem sizeFloor_le_top {d : Dyadic} (hfits : Format.binary64.Fits (.finite d)) :
    Format.binary64.sizeFloor ≤ d.top := by
  have hexp : -1074 ≤ d.exp := hfits.2.1
  change -1074 ≤ d.exp + (d.bits : ℤ)
  omega

/-- A number of 64 bits is its own rounding. -/
theorem ofNumber_of_fits {x : Number} (fits : Format.binary64.Fits x.size) :
    ofNumber x = .number x fits := by
  have hround : Format.binary64.round x = x := by
    obtain ⟨negative, size⟩ := x
    cases size with
    | zero => rfl
    | infinite => rfl
    | finite d =>
      rw [Format.round, Format.roundSize_finite,
        Format.roundRat_of_fits fits (sizeFloor_le_top fits)]
  unfold ofNumber
  congr 1

/-- The shortest decimal of a size that is not infinite. -/
def decimalOf : Magnitude → Decimal
  | .finite d => Decimal.shortest Format.binary64 d
  | _ => ⟨0, 0⟩

/-- The numeral of a size is that of its shortest decimal. -/
theorem numeralOf_eq (size : Magnitude) : numeralOf size = (decimalOf size).numeral := by
  cases size <;> rfl

/-- The shortest decimal of a size of 64 bits rounds to it. -/
theorem ofDecimal_decimalOf {size : Magnitude} (hfinite : size ≠ .infinite)
    (fits : Format.binary64.Fits size) : Format.binary64.ofDecimal (decimalOf size) = size := by
  cases size with
  | zero => rfl
  | infinite => exact absurd rfl hfinite
  | finite d =>
    exact Decimal.ofDecimal_shortest Format.containsOne_binary64 fits (sizeFloor_le_top fits)

/-- A size that is neither zero nor infinite has digits. -/
theorem digits_numeralOf_ne_nil {size : Magnitude} (hfinite : size ≠ .infinite)
    (fits : Format.binary64.Fits size) (hne : size ≠ .zero) : (numeralOf size).digits ≠ [] := by
  intro hnil
  have hvalue : (decimalOf size).toRat = 0 := by
    rw [← Decimal.toRat_numeral, ← numeralOf_eq, Numeral.toRat, hnil]
    simp [Literal.valueOf]
  have hround := ofDecimal_decimalOf hfinite fits
  rw [Format.ofDecimal_eq_roundRat Format.containsOne_binary64, hvalue, Format.roundRat_zero]
    at hround
  exact hne hround.symm

/-- The canonical text of a finite number is a decimal behind a sign, and the decimal rounds to the
number's size. -/
theorem decimal?_finiteText {negative : Bool} {size : Magnitude} (hfinite : size ≠ .infinite)
    (fits : Format.binary64.Fits size) (x : Binary64) :
    ∃ value, Literal.decimal? (Literal.splitSign (withSign negative (sizeText x size))).1
        (Literal.splitSign (withSign negative (sizeText x size))).2 =
          some (.decimal negative value) ∧
      Format.binary64.ofDecimal value = size := by
  have hdigits : ∀ c ∈ (numeralOf size).digits, c.isDigit = true := by
    rw [numeralOf_eq]
    exact fun c ↦ Decimal.isDigit_of_mem_numeral
  obtain ⟨c, rest, value, htext, hc, hread, hvalue⟩ :=
    decimal?_sizeText x hdigits (digits_numeralOf_ne_nil hfinite fits) negative
  refine ⟨value, ?_, ?_⟩
  · rw [htext, Literal.splitSign_withSign hc, ← htext]
    exact hread
  · rw [Format.ofDecimal_eq_roundRat Format.containsOne_binary64, hvalue, numeralOf_eq,
      Decimal.toRat_numeral, ← Format.ofDecimal_eq_roundRat Format.containsOne_binary64,
      ofDecimal_decimalOf hfinite fits]

/-- The canonical texts: two of an infinity, one of what is not a number, and those of finite
numbers. -/
theorem text_cases (x : Binary64) :
    (x = .nan ∧ x.text = "NaN") ∨
      (∃ negative fits, x = .number ⟨negative, .infinite⟩ fits ∧
        x.text = if negative then "-Infinity" else "Infinity") ∨
      ∃ negative size fits, x = .number ⟨negative, size⟩ fits ∧ size ≠ .infinite ∧
        x.text = String.ofList (withSign negative (sizeText x size)) := by
  cases x with
  | nan => exact Or.inl ⟨rfl, rfl⟩
  | number n fits =>
    obtain ⟨negative, size⟩ := n
    cases size with
    | zero => exact Or.inr (Or.inr ⟨negative, .zero, fits, rfl, by simp, rfl⟩)
    | finite d => exact Or.inr (Or.inr ⟨negative, .finite d, fits, rfl, by simp, rfl⟩)
    | infinite => exact Or.inr (Or.inl ⟨negative, fits, rfl, rfl⟩)

/-- The canonical text of a number is read as a literal of its value. -/
theorem read?_text (x : Binary64) :
    ∃ literal, Literal.read? x.text = some literal ∧ literal.toBinary64 = x := by
  rcases x.text_cases with ⟨rfl, htext⟩ | ⟨negative, fits, rfl, htext⟩ |
    ⟨negative, size, fits, hx, hfinite, htext⟩
  · exact ⟨.nan, rfl, rfl⟩
  · refine ⟨.infinite negative, ?_, rfl⟩
    rw [htext]
    cases negative <;> decide
  · obtain ⟨value, hread, hround⟩ := decimal?_finiteText hfinite fits x
    refine ⟨.decimal negative value, ?_, ?_⟩
    · rw [htext]
      refine Literal.read?_of_decimal? ?_
      rw [String.toList_ofList]
      exact hread
    · rw [Literal.toBinary64, hround, hx]
      exact ofNumber_of_fits fits

/-- The characters of a canonical text are those of decimals and of three names. -/
theorem isDecimalChar_of_mem_text {x : Binary64} {c : Char} (h : c ∈ x.text.toList) :
    Literal.isDecimalChar c = true ∨ c ∈ "NaN".toList ∨ c ∈ "-Infinity".toList := by
  rcases x.text_cases with ⟨-, htext⟩ | ⟨negative, fits, -, htext⟩ |
    ⟨negative, size, fits, -, hfinite, htext⟩
  · rw [htext] at h
    exact Or.inr (Or.inl h)
  · rw [htext] at h
    refine Or.inr (Or.inr ?_)
    cases negative
    · exact List.mem_cons_of_mem '-' h
    · exact h
  · obtain ⟨value, hread, -⟩ := decimal?_finiteText hfinite fits x
    rw [htext, String.toList_ofList] at h
    exact Or.inl (Literal.all_of_all_splitSign (Literal.all_of_decimal? hread) c h)

/-- Different numbers have different canonical texts. -/
theorem text_injective {x y : Binary64} (h : x.text = y.text) : x = y := by
  obtain ⟨literal, hread, hx⟩ := x.read?_text
  obtain ⟨literal', hread', hy⟩ := y.read?_text
  rw [h, hread'] at hread
  rw [← hx, ← hy, Option.some.inj hread]

end Binary64

end Reckoner
