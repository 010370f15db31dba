import Reckoner.Proofs.Scanning

/-!
# What a token takes

The scanner's choice at a character is a function of the characters that follow. Here it is said as
a relation: a token of a kind takes some characters, where the line goes on with others, and cannot
take more (`Token.Takes`). Whether it can take more shows in the next two characters, so the choice
stays the same when what is behind them changes (`Token.Takes.of_behind`).

Main statement: the scanner chooses what a token takes (`Token.lexeme?_eq_some_iff`).
-/

set_option autoImplicit false

namespace Reckoner

namespace Token

/-! ### Classes of characters -/

/-- Letters by their codes. -/
theorem isLetter_iff {c : Char} :
    isLetter c = true ↔ 65 ≤ c.toNat ∧ c.toNat ≤ 90 ∨ 97 ≤ c.toNat ∧ c.toNat ≤ 122 := by
  simp [isLetter, Char.le_def, UInt32.le_iff_toNat_le]

/-- Digits by their codes. -/
theorem isDigit_iff {c : Char} : isDigit c = true ↔ 48 ≤ c.toNat ∧ c.toNat ≤ 57 := by
  simp [isDigit, Char.le_def, UInt32.le_iff_toNat_le]

/-- White space by its codes. -/
theorem isSpace_iff {c : Char} : isSpace c = true ↔ c.toNat ≤ 32 ∨ c.toNat = 127 := by
  simp [isSpace]

/-- A letter is no digit. -/
theorem isDigit_of_isLetter {c : Char} (h : isLetter c = true) : isDigit c = false := by
  rw [isLetter_iff] at h
  rw [← Bool.not_eq_true, isDigit_iff]
  omega

/-- A letter is no white space. -/
theorem isSpace_of_isLetter {c : Char} (h : isLetter c = true) : isSpace c = false := by
  rw [isLetter_iff] at h
  rw [← Bool.not_eq_true, isSpace_iff]
  omega

/-- A digit is no white space. -/
theorem isSpace_of_isDigit {c : Char} (h : isDigit c = true) : isSpace c = false := by
  rw [isDigit_iff] at h
  rw [← Bool.not_eq_true, isSpace_iff]
  omega

/-- A symbol is no white space. -/
theorem isSpace_of_symbol? {c : Char} {kind : TokenKind} (h : symbol? c = some kind) :
    isSpace c = false := by
  unfold symbol? at h
  split at h <;> cases h <;> rfl

/-- A character behind which anything may begin: no letter, no digit and no point. -/
def Separates (c : Char) : Prop :=
  isLetter c = false ∧ isDigit c = false ∧ c ≠ '.'

/-- White space separates. -/
theorem separates_of_isSpace {c : Char} (h : isSpace c = true) : Separates c := by
  refine ⟨?_, ?_, ?_⟩
  · rw [← Bool.not_eq_true]
    intro hletter
    rw [isSpace_of_isLetter hletter] at h
    cases h
  · rw [← Bool.not_eq_true]
    intro hdigit
    rw [isSpace_of_isDigit hdigit] at h
    cases h
  · rintro rfl
    cases h

/-- A symbol separates. -/
theorem separates_of_symbol? {c : Char} {kind : TokenKind} (h : symbol? c = some kind) :
    Separates c := by
  unfold symbol? at h
  split at h <;> cases h <;> exact ⟨rfl, rfl, by decide⟩

/-! ### What a token takes -/

/-- One or more characters of a class. -/
structure IsRun (class? : Char → Bool) (chars : List Char) : Prop where
  nonempty : chars ≠ []
  all : ∀ c ∈ chars, class? c = true

/-- A run of a class cannot go on. -/
def EndsRun (class? : Char → Bool) (behind : List Char) : Prop :=
  ∀ c ∈ behind.head?, class? c = false

/-- A token of a kind takes some characters where the line goes on with others, and cannot take
more. -/
inductive Takes : TokenKind → List Char → List Char → Prop where
  /-- A word is a run of letters, behind which there is no letter. -/
  | word {chars behind : List Char} (run : IsRun isLetter chars) (ends : EndsRun isLetter behind) :
    Takes .word chars behind
  /-- A number is a run of digits, behind which there is neither a digit nor a point in front of
  one. -/
  | whole {digits behind : List Char} (run : IsRun isDigit digits) (ends : EndsRun isDigit behind)
    (noPoint : ∀ d further, behind = '.' :: d :: further → isDigit d = false) :
    Takes .number digits behind
  /-- A number may have a point with digits on both sides, behind which there is no digit. -/
  | decimal {digits places behind : List Char} (run : IsRun isDigit digits)
    (more : IsRun isDigit places) (ends : EndsRun isDigit behind) :
    Takes .number (digits ++ '.' :: places) behind
  | symbol {c : Char} {kind : TokenKind} (isSymbol : symbol? c = some kind) (behind : List Char) :
    Takes kind [c] behind

variable {class? : Char → Bool} {kind : TokenKind} {c : Char} {front chars behind rest : List Char}

/-- A run in front of a place where it cannot go on is what is taken of the class. -/
theorem takeWhile_append_of_endsRun (hall : ∀ c ∈ chars, class? c = true)
    (hends : EndsRun class? behind) : (chars ++ behind).takeWhile class? = chars := by
  rw [List.takeWhile_append_of_pos hall]
  cases behind with
  | nil => simp
  | cons b further =>
    have hb : class? b = false := hends b rfl
    rw [List.takeWhile_cons, hb, if_neg Bool.false_ne_true, List.append_nil]

/-- What is left when a class has been taken cannot go on with it. -/
theorem endsRun_dropWhile (class? : Char → Bool) (chars : List Char) :
    EndsRun class? (chars.dropWhile class?) := by
  intro c hc
  have hnot := List.head?_dropWhile_not class? chars
  rw [Option.mem_def.mp hc] at hnot
  exact hnot

/-- What is taken of a class is of the class. -/
theorem forall_mem_takeWhile (class? : Char → Bool) (chars : List Char) :
    ∀ c ∈ chars.takeWhile class?, class? c = true :=
  List.all_eq_true.mp List.all_takeWhile

/-- Behind its first digit, a number without a point takes the other digits. -/
theorem numberTail_whole {digits : List Char} (hall : ∀ c ∈ digits, isDigit c = true)
    (hends : EndsRun isDigit behind)
    (hpoint : ∀ d further, behind = '.' :: d :: further → isDigit d = false) :
    numberTail (digits ++ behind) = digits := by
  unfold numberTail
  dsimp only
  rw [takeWhile_append_of_endsRun hall hends, List.drop_left]
  split
  · rename_i d further
    rw [hpoint d further rfl, if_neg Bool.false_ne_true]
  · rfl

/-- Behind its first digit, a number with a point takes the digits on both sides of it. -/
theorem numberTail_decimal {digits places : List Char} (hall : ∀ c ∈ digits, isDigit c = true)
    (hplaces : IsRun isDigit places) (hends : EndsRun isDigit behind) :
    numberTail (digits ++ '.' :: (places ++ behind)) = digits ++ '.' :: places := by
  obtain ⟨hne, hplacesAll⟩ := hplaces
  have hstops : EndsRun isDigit ('.' :: (places ++ behind)) := by
    rintro c ⟨⟩
    rfl
  unfold numberTail
  dsimp only
  rw [takeWhile_append_of_endsRun hall hstops, List.drop_left]
  cases places with
  | nil => exact absurd rfl hne
  | cons d further =>
    have hd : isDigit d = true := hplacesAll d List.mem_cons_self
    have htake := takeWhile_append_of_endsRun hplacesAll hends
    rw [List.cons_append] at htake ⊢
    simp only [hd, ↓reduceIte, htake]

/-- A run that begins with a character. -/
theorem isRun_cons (hc : class? c = true) (hall : ∀ d ∈ chars, class? d = true) :
    IsRun class? (c :: chars) :=
  ⟨List.cons_ne_nil c chars, List.forall_mem_cons.mpr ⟨hc, hall⟩⟩

/-- What a number takes behind its first digit. -/
theorem takes_numberTail (hc : isDigit c = true) (rest : List Char) :
    ∃ behind, rest = numberTail rest ++ behind ∧ Takes .number (c :: numberTail rest) behind := by
  have hall := forall_mem_takeWhile isDigit rest
  have hends := endsRun_dropWhile isDigit rest
  have hrest := List.takeWhile_append_dropWhile (p := isDigit) (l := rest)
  generalize rest.takeWhile isDigit = digits at hall hrest
  generalize rest.dropWhile isDigit = behind at hends hrest
  subst hrest
  have hrun : IsRun isDigit (c :: digits) := isRun_cons hc hall
  by_cases hpoint : ∃ d further, behind = '.' :: d :: further ∧ isDigit d = true
  · obtain ⟨d, further, rfl, hd⟩ := hpoint
    have hplaces : IsRun isDigit (d :: further.takeWhile isDigit) :=
      isRun_cons hd (forall_mem_takeWhile isDigit further)
    have hplacesEnd := endsRun_dropWhile isDigit further
    have hfurther : d :: further =
        d :: further.takeWhile isDigit ++ further.dropWhile isDigit := by
      rw [List.cons_append, List.takeWhile_append_dropWhile]
    refine ⟨further.dropWhile isDigit, ?_⟩
    rw [hfurther, numberTail_decimal hall hplaces hplacesEnd]
    exact ⟨by simp, .decimal hrun hplaces hplacesEnd⟩
  · have hnoPoint : ∀ d further, behind = '.' :: d :: further → isDigit d = false := by
      intro d further hbehind
      rw [← Bool.not_eq_true]
      exact fun hd ↦ hpoint ⟨d, further, hbehind, hd⟩
    refine ⟨behind, ?_⟩
    rw [numberTail_whole hall hends hnoPoint]
    exact ⟨rfl, .whole hrun hends hnoPoint⟩

/-- The scanner's choice at a character is the token that takes as many characters as it can. -/
theorem lexeme?_eq_some_iff {tail : List Char} :
    lexeme? c rest = some (kind, tail) ↔
      ∃ behind, rest = tail ++ behind ∧ Takes kind (c :: tail) behind := by
  constructor
  · intro h
    unfold lexeme? at h
    split at h
    · rename_i hletter
      obtain ⟨rfl, rfl⟩ := Prod.mk.inj (Option.some.inj h)
      refine ⟨rest.dropWhile isLetter, List.takeWhile_append_dropWhile.symm, ?_⟩
      exact .word (isRun_cons hletter (forall_mem_takeWhile isLetter rest))
        (endsRun_dropWhile isLetter rest)
    · split at h
      · rename_i hdigit
        obtain ⟨rfl, rfl⟩ := Prod.mk.inj (Option.some.inj h)
        exact takes_numberTail hdigit rest
      · obtain ⟨_, hsymbol, hpair⟩ := Option.map_eq_some_iff.mp h
        obtain ⟨rfl, rfl⟩ := Prod.mk.inj hpair
        exact ⟨rest, rfl, .symbol hsymbol rest⟩
  · rintro ⟨behind, rfl, htakes⟩
    have hnumber (hc : isDigit c = true) : isLetter c = false := by
      rw [← Bool.not_eq_true]
      intro hletter
      rw [isDigit_of_isLetter hletter] at hc
      cases hc
    generalize hchars : c :: tail = chars at htakes
    cases htakes with
    | word run ends =>
      subst hchars
      obtain ⟨hc, htail⟩ := List.forall_mem_cons.mp run.all
      rw [lexeme?, if_pos hc, takeWhile_append_of_endsRun htail ends]
    | whole run ends noPoint =>
      subst hchars
      obtain ⟨hc, htail⟩ := List.forall_mem_cons.mp run.all
      rw [lexeme?, hnumber hc, if_neg Bool.false_ne_true, if_pos hc,
        numberTail_whole htail ends noPoint]
    | @decimal digits places _ run more ends =>
      obtain ⟨hne, hall⟩ := run
      cases digits with
      | nil => exact absurd rfl hne
      | cons d digits =>
        rw [List.cons_append] at hchars
        obtain ⟨rfl, rfl⟩ := List.cons.inj hchars
        obtain ⟨hc, htail⟩ := List.forall_mem_cons.mp hall
        rw [lexeme?, hnumber hc, if_neg Bool.false_ne_true, if_pos hc, List.append_assoc,
          List.cons_append, numberTail_decimal htail more ends]
    | symbol isSymbol =>
      obtain ⟨rfl, rfl⟩ := List.cons.inj hchars
      exact lexeme?_of_symbol? isSymbol _

/-- A token takes no white space. -/
theorem Takes.isSpace_eq_false (h : Takes kind chars behind) : ∀ c ∈ chars, isSpace c = false := by
  cases h with
  | word run ends => exact fun c hc ↦ isSpace_of_isLetter (run.all c hc)
  | whole run ends noPoint => exact fun c hc ↦ isSpace_of_isDigit (run.all c hc)
  | decimal run more ends =>
    intro c hc
    rcases List.mem_append.mp hc with hc | hc
    · exact isSpace_of_isDigit (run.all c hc)
    · rcases List.mem_cons.mp hc with rfl | hc
      · rfl
      · exact isSpace_of_isDigit (more.all c hc)
  | symbol isSymbol =>
    intro c hc
    obtain rfl := List.mem_singleton.mp hc
    exact isSpace_of_symbol? isSymbol

/-- A token takes at least one character. -/
theorem Takes.ne_nil (h : Takes kind chars behind) : chars ≠ [] := by
  cases h with
  | word run ends => exact run.nonempty
  | whole run ends noPoint => exact run.nonempty
  | decimal run more ends => simp
  | symbol isSymbol => exact List.cons_ne_nil _ _

/-- Whether a token can take more shows in the next two characters, and it cannot take one that
separates. -/
theorem Takes.of_behind {behind' : List Char} (h : Takes kind chars behind)
    (hhead : ∀ c ∈ behind'.head?, c ∈ behind.head? ∨ Separates c)
    (hpoint : ∀ d further, behind' = '.' :: d :: further →
      ∃ further', behind = '.' :: d :: further') :
    Takes kind chars behind' := by
  have hdigits (ends : EndsRun isDigit behind) : EndsRun isDigit behind' := by
    intro c hc
    rcases hhead c hc with hsame | hseparates
    · exact ends c hsame
    · exact hseparates.2.1
  cases h with
  | word run ends =>
    refine .word run ?_
    intro c hc
    rcases hhead c hc with hsame | hseparates
    · exact ends c hsame
    · exact hseparates.1
  | whole run ends noPoint =>
    refine .whole run (hdigits ends) ?_
    intro d further hbehind
    obtain ⟨further', hsame⟩ := hpoint d further hbehind
    exact noPoint d further' hsame
  | decimal run more ends => exact .decimal run more (hdigits ends)
  | symbol isSymbol => exact .symbol isSymbol _

end Token

end Reckoner
