import Reckoner.Literal

/-!
# Reading decimals

A decimal is written with digits, a point, the mark of an exponent and signs
(`Literal.isDecimalChar`), so it is never taken for a hexadecimal number or for the name of a value
that is not finite, and has no underscores to remove. Whatever can be read as a decimal as it stands
is therefore read as that decimal (`Literal.read?_of_decimal?`).
-/

set_option autoImplicit false

namespace Reckoner.Literal

/-! ### Characters -/

/-- Whether a character can stand in a decimal. -/
def isDecimalChar (c : Char) : Bool :=
  c.isDigit || c = '.' || c = 'e' || c = 'E' || c = '+' || c = '-'

/-- A character can stand in a decimal if it is one of those. -/
theorem isDecimalChar_iff {c : Char} :
    isDecimalChar c = true ↔
      c.isDigit = true ∨ c = '.' ∨ c = 'e' ∨ c = 'E' ∨ c = '+' ∨ c = '-' := by
  simp [isDecimalChar, or_assoc]

/-- The code of a letter without its case. -/
theorem toNat_toLower (c : Char) :
    c.toLower.toNat = if 65 ≤ c.toNat ∧ c.toNat ≤ 90 then c.toNat + 32 else c.toNat := by
  have hupper : (c.val ≥ 'A'.val ∧ c.val ≤ 'Z'.val) ↔ 65 ≤ c.toNat ∧ c.toNat ≤ 90 := Iff.rfl
  unfold Char.toLower
  simp only [hupper]
  split
  · change (c.val + 32).toNat = c.toNat + 32
    rw [UInt32.toNat_add]
    change (c.toNat + 32) % 2 ^ 32 = c.toNat + 32
    omega
  · rfl

/-- A character that becomes the mark of an exponent can stand in a decimal. -/
theorem isDecimalChar_of_toLower {c : Char} (h : c.toLower = 'e') : isDecimalChar c = true := by
  have hcode : c.toLower.toNat = 101 := by rw [h]; rfl
  rw [toNat_toLower] at hcode
  have hchar : c = 'e' ∨ c = 'E' := by
    split at hcode
    · exact Or.inr (Char.toNat_inj.mp (by omega : c.toNat = 69))
    · exact Or.inl (Char.toNat_inj.mp hcode)
  rcases hchar with rfl | rfl <;> rfl

/-- No character of a decimal becomes the letter `n`. -/
theorem toLower_ne_of_isDecimalChar {c : Char} (h : isDecimalChar c = true) : c.toLower ≠ 'n' := by
  rcases isDecimalChar_iff.mp h with hdigit | rfl | rfl | rfl | rfl | rfl
  · intro heq
    have hcode : c.toLower.toNat = 110 := by rw [heq]; rfl
    have hrange : 48 ≤ c.toNat ∧ c.toNat ≤ 57 := Char.isDigit_iff_toNat.mp hdigit
    rw [toNat_toLower] at hcode
    split at hcode <;> omega
  all_goals decide

/-! ### Parts of a text -/

/-- A text is what stands behind its sign, or a sign in front of that. -/
theorem splitSign_cases (chars : List Char) :
    chars = (splitSign chars).2 ∨
      ∃ sign, isDecimalChar sign = true ∧ chars = sign :: (splitSign chars).2 := by
  unfold splitSign
  split
  · exact Or.inr ⟨'-', rfl, rfl⟩
  · exact Or.inr ⟨'+', rfl, rfl⟩
  · exact Or.inl rfl

/-- What stands behind a sign stands in the text. -/
theorem mem_of_mem_splitSign {c : Char} {chars : List Char} (h : c ∈ (splitSign chars).2) :
    c ∈ chars := by
  rcases splitSign_cases chars with heq | ⟨sign, -, heq⟩
  · rwa [heq]
  · rw [heq]
    exact List.mem_cons_of_mem _ h

/-- A text is one of decimal characters if what stands behind its sign is. -/
theorem all_of_all_splitSign {chars : List Char}
    (h : ∀ c ∈ (splitSign chars).2, isDecimalChar c = true) :
    ∀ c ∈ chars, isDecimalChar c = true := by
  rcases splitSign_cases chars with heq | ⟨sign, hsign, heq⟩
  · rwa [heq]
  · rw [heq]
    simpa [hsign] using h

/-- Exponents are written in decimal characters. -/
theorem all_of_exponent? {chars : List Char} {exponent : Int}
    (h : exponent? chars = some exponent) :
    ∀ c ∈ chars, isDecimalChar c = true := by
  refine all_of_all_splitSign ?_
  unfold exponent? at h
  dsimp only at h
  split at h
  · cases h
  · rename_i hdigits
    intro c hc
    simp only [Bool.or_eq_true, Bool.not_eq_true', not_or, Bool.not_eq_false, List.all_eq_true]
      at hdigits
    exact isDecimalChar_iff.mpr (Or.inl (hdigits.2 c hc))

/-- A mantissa is cut out of the front of a text. -/
theorem mantissa?_cases {isDigit : Char → Bool} {chars whole fraction rest : List Char}
    (h : mantissa? isDigit chars = some (whole, fraction, rest)) :
    (∀ c ∈ whole, isDigit c = true) ∧ (∀ c ∈ fraction, isDigit c = true) ∧
      (chars = whole ++ rest ∨ chars = whole ++ '.' :: (fraction ++ rest)) := by
  unfold mantissa? at h
  dsimp only at h
  have hdigits (chars : List Char) : ∀ c ∈ chars.takeWhile isDigit, isDigit c = true :=
    List.all_eq_true.mp List.all_takeWhile
  have hsplit := List.takeWhile_append_dropWhile (p := isDigit) (l := chars)
  split at h
  · rename_i rest' hrest
    simp only [Option.ite_none_left_eq_some, Option.some.injEq, Prod.mk.injEq] at h
    obtain ⟨-, rfl, rfl, rfl⟩ := h
    refine ⟨hdigits chars, hdigits rest', Or.inr ?_⟩
    rw [List.takeWhile_append_dropWhile, ← hrest, hsplit]
  · simp only [Option.ite_none_left_eq_some, Option.some.injEq, Prod.mk.injEq] at h
    obtain ⟨-, rfl, rfl, rfl⟩ := h
    exact ⟨hdigits chars, by simp, Or.inl hsplit.symm⟩

/-- Whether what stands behind a mantissa is an exponent: nothing for zero, or a mark and digits. -/
def IsExponent (rest : List Char) (exponent : Int) : Prop :=
  (rest = [] ∧ exponent = 0) ∨
    ∃ mark behind, rest = mark :: behind ∧ mark.toLower = 'e' ∧ exponent? behind = some exponent

/-- A decimal is a mantissa and an exponent. -/
theorem decimal?_eq_some_iff {negative : Bool} {chars : List Char} {literal : Literal} :
    decimal? negative chars = some literal ↔
      ∃ whole fraction rest exponent, mantissa? Char.isDigit chars = some (whole, fraction, rest) ∧
        IsExponent rest exponent ∧
        literal =
          .decimal negative ⟨valueOf 10 (whole ++ fraction), exponent - fraction.length⟩ := by
  constructor
  · intro h
    unfold decimal? at h
    cases hmantissa : mantissa? Char.isDigit chars with
    | none => simp [hmantissa] at h
    | some parts =>
      obtain ⟨whole, fraction, rest⟩ := parts
      rw [hmantissa] at h
      cases rest with
      | nil => exact ⟨whole, fraction, [], 0, rfl, Or.inl ⟨rfl, rfl⟩, (Option.some.inj h).symm⟩
      | cons mark behind =>
        by_cases hmark : mark.toLower = 'e'
        · cases hexponent : exponent? behind with
          | none => simp [hmark, hexponent] at h
          | some exponent =>
            simp only [Option.bind_eq_bind, Option.bind_some, hmark, hexponent, ↓reduceIte] at h
            exact ⟨whole, fraction, mark :: behind, exponent, rfl,
              Or.inr ⟨mark, behind, rfl, hmark, hexponent⟩, (Option.some.inj h).symm⟩
        · simp [hmark] at h
  · rintro ⟨whole, fraction, rest, exponent, hmantissa, hexponent, rfl⟩
    rcases hexponent with ⟨rfl, rfl⟩ | ⟨mark, behind, rfl, hmark, hbehind⟩
    · simp [decimal?, hmantissa]
    · simp [decimal?, hmantissa, hmark, hbehind]

/-- Decimals are written in decimal characters. -/
theorem all_of_decimal? {negative : Bool} {chars : List Char} {literal : Literal}
    (h : decimal? negative chars = some literal) : ∀ c ∈ chars, isDecimalChar c = true := by
  obtain ⟨whole, fraction, rest, exponent, hmantissa, hexponent, -⟩ := decimal?_eq_some_iff.mp h
  obtain ⟨hwhole, hfraction, hchars⟩ := mantissa?_cases hmantissa
  have hrest : ∀ c ∈ rest, isDecimalChar c = true := by
    rcases hexponent with ⟨rfl, -⟩ | ⟨mark, behind, rfl, hmark, hbehind⟩
    · simp
    · simpa [isDecimalChar_of_toLower hmark] using all_of_exponent? hbehind
  have hdigit {c : Char} (hc : c.isDigit = true) : isDecimalChar c = true :=
    isDecimalChar_iff.mpr (Or.inl hc)
  intro c hc
  rcases hchars with rfl | rfl
  · rcases List.mem_append.mp hc with hc | hc
    · exact hdigit (hwhole c hc)
    · exact hrest c hc
  · simp only [List.mem_append, List.mem_cons] at hc
    rcases hc with hc | rfl | hc | hc
    · exact hdigit (hwhole c hc)
    · rfl
    · exact hdigit (hfraction c hc)
    · exact hrest c hc

/-! ### Readings other than a decimal -/

/-- Decimal characters spell no name. -/
theorem named?_eq_none {chars : List Char} (h : ∀ c ∈ chars, isDecimalChar c = true) :
    named? chars = none := by
  have hn : 'n' ∉ lowerCase chars := by
    intro hmem
    obtain ⟨c, hc, hlower⟩ := List.mem_map.mp hmem
    exact toLower_ne_of_isDecimalChar (h c hc) hlower
  unfold named?
  dsimp only
  rw [if_neg, if_neg]
  · intro heq
    exact hn (by rw [heq]; decide)
  · rintro (heq | heq)
    · exact hn (mem_of_mem_splitSign (by rw [heq]; decide))
    · exact hn (mem_of_mem_splitSign (by rw [heq]; decide))

/-- Decimal characters start no hexadecimal number. -/
theorem hexBody?_eq_none {chars : List Char} (h : ∀ c ∈ chars, isDecimalChar c = true) :
    hexBody? chars = none := by
  unfold hexBody?
  split
  · exact absurd (h 'x' (by simp)) (by decide)
  · exact absurd (h 'X' (by simp)) (by decide)
  · rfl

/-- A text without underscores has none in a wrong place. -/
theorem separatorsFit_of_not_mem {isDigit : Char → Bool} {chars : List Char} (h : '_' ∉ chars)
    (afterDigit : Bool) : separatorsFit isDigit afterDigit chars = true := by
  induction chars generalizing afterDigit with
  | nil => rfl
  | cons c rest ih =>
    obtain ⟨hc, hrest⟩ := List.ne_and_not_mem_of_not_mem_cons h
    rw [separatorsFit]
    · exact ih hrest _
    · exact fun heq ↦ hc heq.symm

/-- Whatever can be read as a decimal as it stands is read as that decimal. -/
theorem read?_of_decimal? {text : String} {literal : Literal}
    (h : decimal? (splitSign text.toList).1 (splitSign text.toList).2 = some literal) :
    read? text = some literal := by
  have hbody := all_of_decimal? h
  have hunderscore : '_' ∉ (splitSign text.toList).2 := fun hmem ↦
    absurd (hbody '_' hmem) (by decide)
  have hplain : (splitSign text.toList).2.filter (· ≠ '_') = (splitSign text.toList).2 := by
    refine List.filter_eq_self.mpr ?_
    intro c hc
    simpa using fun heq : c = '_' ↦ hunderscore (heq ▸ hc)
  rw [read?, named?_eq_none (all_of_all_splitSign hbody), Option.none_or, number?]
  simp only [hexBody?_eq_none hbody, separatorsFit_of_not_mem hunderscore, hplain, h, ↓reduceIte]

end Reckoner.Literal
