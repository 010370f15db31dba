import Reckoner.Proofs.ByteOrder
import Reckoner.Proofs.MaximalMunch
import Reckoner.Session.Completion

/-!
# Completing a word keeps the tokens in front of it

A completion looks at the bytes of a line from its end, the scanner at its characters from the
beginning. Both find the same last word, whatever stands in front of it.

An ASCII byte is never a part of another character, so it is read as itself behind any bytes, also
behind ones that are no well-formed text (`Text.decode_append`). A word in front of which there is
no letter is a token of its own: neither a number nor a stray character in front of it can take a
letter (`Token.scan_append`). So the tokens in front of a word, or the first stray character there,
are the same whatever the word is.

Main statement: `Session.complete_keepsTokens`.
-/

set_option autoImplicit false

namespace Reckoner

namespace Text

/-! ### ASCII bytes behind others -/

/-- A character of two bytes is no ASCII character, and neither is its second byte. -/
theorem of_twoBytes? {a b : UInt8} {code : Nat} (h : twoBytes? a b = some code) :
    0x80 ≤ b ∧ 0x80 ≤ code := by
  simp only [twoBytes?, isTail, tailBits, Option.ite_none_right_eq_some, Bool.and_eq_true,
    decide_eq_true_eq, Option.some.injEq, UInt8.le_iff_toNat_le, UInt8.reduceToNat] at h ⊢
  omega

/-- A byte that continues a character is no ASCII byte. -/
theorem le_of_isTail {b : UInt8} (h : isTail b = true) : 0x80 ≤ b := by
  simp only [isTail, Bool.and_eq_true, decide_eq_true_eq] at h
  exact h.1

/-- Behind a first byte that asks for more of the second one, it is no ASCII byte either. -/
theorem le_of_least_le {a b first least : UInt8} (hleast : 0x80 ≤ least)
    (h : (if a = first then least else 0x80) ≤ b) : 0x80 ≤ b := by
  split at h
  · exact UInt8.le_trans hleast h
  · exact h

/-- A character of three bytes is no ASCII character, and neither are its bytes behind the first. -/
theorem of_threeBytes? {a b c : UInt8} {code : Nat} (h : threeBytes? a b c = some code) :
    0x80 ≤ b ∧ 0x80 ≤ c ∧ 0x80 ≤ code := by
  simp only [threeBytes?, Option.ite_none_right_eq_some, Bool.and_eq_true, decide_eq_true_eq,
    Option.some.injEq] at h
  obtain ⟨⟨⟨⟨⟨hlow, hhigh⟩, hleast⟩, hmost⟩, htail⟩, rfl⟩ := h
  refine ⟨le_of_least_le (by decide) hleast, le_of_isTail htail, ?_⟩
  by_cases hfirst : a = 0xe0
  · -- the first byte has no bits of the code, and the second has enough
    subst hfirst
    simp only [if_true, if_neg (by decide : ¬ (0xe0 : UInt8) = 0xed), UInt8.le_iff_toNat_le,
      UInt8.reduceToNat] at hleast hmost
    unfold tailBits
    omega
  · have hmore : a.toNat ≠ 0xe0 := fun ha ↦ hfirst (UInt8.toNat_inj.mp ha)
    simp only [UInt8.le_iff_toNat_le, UInt8.reduceToNat] at hlow hhigh
    omega

/-- A character of four bytes is no ASCII character, and neither are its bytes behind the first. -/
theorem of_fourBytes? {a b c d : UInt8} {code : Nat} (h : fourBytes? a b c d = some code) :
    0x80 ≤ b ∧ 0x80 ≤ c ∧ 0x80 ≤ d ∧ 0x80 ≤ code := by
  simp only [fourBytes?, Option.ite_none_right_eq_some, Bool.and_eq_true, decide_eq_true_eq,
    Option.some.injEq] at h
  obtain ⟨⟨⟨⟨⟨⟨hlow, hhigh⟩, hleast⟩, hmost⟩, hthird⟩, hfourth⟩, rfl⟩ := h
  refine ⟨le_of_least_le (by decide) hleast, le_of_isTail hthird, le_of_isTail hfourth, ?_⟩
  by_cases hfirst : a = 0xf0
  · subst hfirst
    simp only [if_true, if_neg (by decide : ¬ (0xf0 : UInt8) = 0xf4), UInt8.le_iff_toNat_le,
      UInt8.reduceToNat] at hleast hmost
    unfold tailBits
    omega
  · have hmore : a.toNat ≠ 0xf0 := fun ha ↦ hfirst (UInt8.toNat_inj.mp ha)
    simp only [UInt8.le_iff_toNat_le, UInt8.reduceToNat] at hlow hhigh
    omega

/-- A character takes bytes that are there, and an ASCII character takes one byte, its code. -/
theorem of_codePoint? {a : UInt8} {rest : List UInt8} {code further : Nat}
    (h : codePoint? a rest = some (code, further)) :
    further ≤ rest.length ∧ (code < 0x80 → a.toNat = code ∧ further = 0) := by
  unfold codePoint? at h
  split at h
  · cases h
    exact ⟨Nat.zero_le _, fun _ ↦ ⟨rfl, rfl⟩⟩
  · split at h
    · cases h
    · split at h
      · rename_i htwo
        cases h
        have hcode := (of_twoBytes? htwo).2
        exact ⟨by simp, by omega⟩
      · cases h
      · split at h
        · rename_i hthree
          cases h
          have hcode := (of_threeBytes? hthree).2.2
          exact ⟨by simp, by omega⟩
        · cases h
        · obtain ⟨_, hfour, hpair⟩ := Option.map_eq_some_iff.mp h
          cases hpair
          have hcode := (of_fourBytes? hfour).2.2.2
          exact ⟨by simp, by omega⟩

/-- An ASCII byte is not the second of two bytes of a character. -/
theorem twoBytes?_eq_none (a : UInt8) {b : UInt8} (h : b < 0x80) : twoBytes? a b = none := by
  refine Option.eq_none_iff_forall_ne_some.mpr fun code hcode ↦ ?_
  exact UInt8.not_le.mpr h (of_twoBytes? hcode).1

/-- An ASCII byte is not one of three bytes of a character behind the first. -/
theorem threeBytes?_eq_none (a : UInt8) {b c : UInt8} (h : b < 0x80 ∨ c < 0x80) :
    threeBytes? a b c = none := by
  refine Option.eq_none_iff_forall_ne_some.mpr fun code hcode ↦ ?_
  obtain ⟨hb, hc, -⟩ := of_threeBytes? hcode
  rcases h with h | h
  · exact UInt8.not_le.mpr h hb
  · exact UInt8.not_le.mpr h hc

/-- An ASCII byte is not one of four bytes of a character behind the first. -/
theorem fourBytes?_eq_none (a : UInt8) {b c d : UInt8} (h : b < 0x80 ∨ c < 0x80 ∨ d < 0x80) :
    fourBytes? a b c d = none := by
  refine Option.eq_none_iff_forall_ne_some.mpr fun code hcode ↦ ?_
  obtain ⟨hb, hc, hd, -⟩ := of_fourBytes? hcode
  rcases h with h | h | h
  · exact UInt8.not_le.mpr h hb
  · exact UInt8.not_le.mpr h hc
  · exact UInt8.not_le.mpr h hd

/-- Which character begins with a byte does not depend on ASCII bytes behind the others. -/
theorem codePoint?_append (a : UInt8) (rest : List UInt8) {ascii : List UInt8}
    (h : ∀ b ∈ ascii, b < 0x80) : codePoint? a (rest ++ ascii) = codePoint? a rest := by
  unfold codePoint?
  split
  · rfl
  · cases ascii with
    | nil => rw [List.append_nil]
    | cons x further =>
      have hx : x < 0x80 := h x List.mem_cons_self
      -- the first ASCII byte is the second, the third or the fourth byte, or is not looked at
      match rest with
      | [] =>
        have htwo := twoBytes?_eq_none a hx
        match further with
        | [] => simp [htwo]
        | [c] => simp [htwo, threeBytes?_eq_none a (Or.inl hx)]
        | c :: d :: _ =>
          simp [htwo, threeBytes?_eq_none a (Or.inl hx), fourBytes?_eq_none a (Or.inl hx)]
      | [b] =>
        have hthree : threeBytes? a b x = none := threeBytes?_eq_none a (Or.inr hx)
        cases htwo : twoBytes? a b with
        | some code => simp [htwo]
        | none =>
          match further with
          | [] => simp [htwo, hthree]
          | d :: _ => simp [htwo, hthree, fourBytes?_eq_none a (Or.inr (Or.inl hx))]
      | b :: c :: behind =>
        cases htwo : twoBytes? a b with
        | some code => simp [htwo]
        | none =>
          cases hthree : threeBytes? a b c with
          | some code => simp [htwo, hthree]
          | none =>
            match behind with
            | [] => simp [htwo, hthree, fourBytes?_eq_none a (Or.inr (Or.inr hx))]
            | d :: _ => simp [htwo, hthree]

/-- The characters that ASCII bytes stand for. -/
def asciiChars (bytes : List UInt8) : List Char :=
  bytes.map fun b ↦ Char.ofNat b.toNat

/-- ASCII bytes are read as themselves. -/
theorem decode_ascii {ascii : List UInt8} (h : ∀ b ∈ ascii, b < 0x80) :
    decode ascii = asciiChars ascii := by
  induction ascii with
  | nil => rw [decode, asciiChars, List.map_nil]
  | cons a rest ih =>
    obtain ⟨ha, hrest⟩ := List.forall_mem_cons.mp h
    have hpoint : codePoint? a rest = some (a.toNat, 0) := by simp [codePoint?, ha]
    rw [decode, hpoint, asciiChars, List.map_cons]
    show Char.ofNat a.toNat :: decode rest = _
    rw [ih hrest, asciiChars]

/-- ASCII bytes are read as themselves behind any bytes. -/
theorem decode_append (front : List UInt8) {ascii : List UInt8} (h : ∀ b ∈ ascii, b < 0x80) :
    decode (front ++ ascii) = decode front ++ asciiChars ascii := by
  induction hlength : front.length using Nat.strongRecOn generalizing front with
  | ind length ih =>
    subst hlength
    cases front with
    | nil => rw [List.nil_append, decode_ascii h, decode, List.nil_append]
    | cons a rest =>
      rw [List.cons_append, decode, decode, codePoint?_append a rest h]
      cases hpoint : codePoint? a rest with
      | none => simp only [ih rest.length (Nat.lt_succ_self _) rest rfl, List.cons_append]
      | some found =>
        obtain ⟨code, taken⟩ := found
        have hshorter : (rest.drop taken).length < (a :: rest).length := by
          rw [List.length_drop, List.length_cons]
          omega
        simp only [List.drop_append_of_le_length (of_codePoint? hpoint).1,
          ih _ hshorter (rest.drop taken) rfl, List.cons_append]

/-- Texts one behind the other are encoded one behind the other. -/
theorem encode_append (a b : String) : encode (a ++ b) = encode a ++ encode b := by
  simp [encode_eq_flatMap]

/-- Different texts have different bytes. -/
theorem encode_injective {a b : String} (h : encode a = encode b) : a = b := by
  have hnot {a b : String} (hbytes : encode a = encode b) : ¬ a < b := by
    intro hlt
    have hbelow := encode_lt_encode hlt
    rw [hbytes] at hbelow
    exact List.lt_irrefl _ hbelow
  apply Classical.byContradiction
  intro hne
  exact hnot h.symm (lt_of_not_lt_of_ne (hnot h) hne)

/-- An ASCII character is encoded as its code. -/
theorem utf8EncodeChar_of_lt {c : Char} (h : c.toNat < 0x80) :
    String.utf8EncodeChar c = [UInt8.ofNat c.toNat] := by
  have hval : c.toNat ≤ 0x7f := Nat.le_of_lt_succ h
  simp [String.utf8EncodeChar, hval]

/-- A text of ASCII characters is encoded in ASCII bytes, one for each. -/
theorem encode_ascii {text : String} (h : ∀ c ∈ text.toList, c.toNat < 0x80) :
    encode text = text.toList.map fun c ↦ UInt8.ofNat c.toNat := by
  rw [encode_eq_flatMap]
  generalize text.toList = chars at h
  induction chars with
  | nil => rfl
  | cons c rest ih =>
    obtain ⟨hc, hrest⟩ := List.forall_mem_cons.mp h
    rw [List.flatMap_cons, utf8EncodeChar_of_lt hc, ih hrest]
    rfl

/-- The code of an ASCII character is a byte. -/
theorem toNat_ofNat_of_lt {c : Char} (h : c.toNat < 0x80) :
    (UInt8.ofNat c.toNat).toNat = c.toNat :=
  UInt8.toNat_ofNat_of_lt' (Nat.lt_trans h (by decide))

/-- The character of a valid code has this code. -/
theorem toNat_charOfNat {code : Nat} (h : code.isValidChar) : (Char.ofNat code).toNat = code := by
  rw [Char.ofNat, dif_pos h]
  rfl

/-- A text of ASCII characters has ASCII bytes. -/
theorem lt_of_mem_encode {text : String} (h : ∀ c ∈ text.toList, c.toNat < 0x80) :
    ∀ b ∈ encode text, b < 0x80 := by
  rw [encode_ascii h]
  intro b hb
  obtain ⟨c, hc, rfl⟩ := List.mem_map.mp hb
  rw [UInt8.lt_iff_toNat_lt, toNat_ofNat_of_lt (h c hc)]
  exact h c hc

/-- A text of ASCII characters behind any bytes is read as it is. -/
theorem decode_append_encode (front : List UInt8) {text : String}
    (h : ∀ c ∈ text.toList, c.toNat < 0x80) :
    decode (front ++ encode text) = decode front ++ text.toList := by
  rw [decode_append front (lt_of_mem_encode h), encode_ascii h, asciiChars, List.map_map]
  congr 1
  refine (List.map_congr_left fun c hc ↦ ?_).trans (List.map_id _)
  simp only [Function.comp_apply, toNat_ofNat_of_lt (h c hc), Char.ofNat_toNat, id]

/-- Among texts of ASCII characters, one begins another exactly if its bytes begin those of the
other. -/
theorem encode_prefix_iff {word name : String} (hword : ∀ c ∈ word.toList, c.toNat < 0x80)
    (hname : ∀ c ∈ name.toList, c.toNat < 0x80) :
    encode word <+: encode name ↔ word.toList <+: name.toList := by
  constructor
  · rintro ⟨further, hfurther⟩
    have hascii : ∀ b ∈ further, b < 0x80 := by
      intro b hb
      refine lt_of_mem_encode hname b ?_
      rw [← hfurther]
      exact List.mem_append_right _ hb
    have hword' : decode (encode word) = word.toList := by
      simpa [decode] using decode_append_encode [] hword
    have hname' : decode (encode name) = name.toList := by
      simpa [decode] using decode_append_encode [] hname
    exact ⟨asciiChars further, by rw [← hword', ← decode_append _ hascii, hfurther, hname']⟩
  · rintro ⟨further, hfurther⟩
    exact ⟨further.flatMap String.utf8EncodeChar, by
      rw [encode_eq_flatMap, encode_eq_flatMap, ← hfurther, List.flatMap_append]⟩

end Text

namespace Token

/-! ### Letters as bytes -/

/-- A letter is an ASCII character. -/
theorem toNat_lt_of_isLetter {c : Char} (h : isLetter c = true) : c.toNat < 0x80 := by
  rw [isLetter_iff] at h
  omega

/-- The character of a code has this code, or none at all. -/
theorem toNat_ofNat_cases (code : Nat) :
    (Char.ofNat code).toNat = code ∨ (Char.ofNat code).toNat = 0 := by
  by_cases hvalid : code.isValidChar
  · exact Or.inl (Text.toNat_charOfNat hvalid)
  · exact Or.inr (by simp [Char.ofNat, hvalid])

/-- Whether a byte is that of a letter. -/
theorem isLetterByte_iff {b : UInt8} :
    Session.isLetterByte b = true ↔
      65 ≤ b.toNat ∧ b.toNat ≤ 90 ∨ 97 ≤ b.toNat ∧ b.toNat ≤ 122 := by
  simp [Session.isLetterByte, UInt8.le_iff_toNat_le]

/-- The first character of bytes, and how many bytes it takes behind the first: none if it is a
letter, which is then the first byte. -/
theorem decode_cons (a : UInt8) (rest : List UInt8) :
    ∃ c taken, Text.decode (a :: rest) = c :: Text.decode (rest.drop taken) ∧
      (isLetter c = true → taken = 0 ∧ Session.isLetterByte a = true) := by
  rw [Text.decode]
  cases hpoint : Text.codePoint? a rest with
  | none => exact ⟨Text.replacement, 0, rfl, fun hletter ↦ by cases hletter⟩
  | some found =>
    obtain ⟨code, taken⟩ := found
    refine ⟨Char.ofNat code, taken, rfl, ?_⟩
    intro hletter
    rw [isLetter_iff] at hletter
    have hcode : (Char.ofNat code).toNat = code :=
      (toNat_ofNat_cases code).resolve_right (by omega)
    rw [hcode] at hletter
    obtain ⟨rfl, htaken⟩ := (Text.of_codePoint? hpoint).2 (by omega)
    exact ⟨htaken, isLetterByte_iff.mpr hletter⟩

/-- If the bytes of a line do not end in a letter, the characters of the line do not either. -/
theorem getLast?_decode {front : List UInt8}
    (h : ∀ b ∈ front.getLast?, Session.isLetterByte b = false) :
    ∀ c ∈ (Text.decode front).getLast?, isLetter c = false := by
  induction hlength : front.length using Nat.strongRecOn generalizing front with
  | ind length ih =>
    subst hlength
    cases front with
    | nil => simp [Text.decode]
    | cons a rest =>
      obtain ⟨c, taken, hdecode, hletter⟩ := decode_cons a rest
      have hshorter : (rest.drop taken).length < (a :: rest).length := by
        rw [List.length_drop, List.length_cons]
        omega
      have hrest : ∀ b ∈ (rest.drop taken).getLast?, Session.isLetterByte b = false := by
        intro b hb
        rw [List.getLast?_drop] at hb
        split at hb
        · cases hb
        · exact h b (by rw [List.getLast?_cons, Option.mem_def.mp hb]; rfl)
      intro x hx
      rw [hdecode, List.getLast?_cons, Option.mem_def, Option.some.injEq] at hx
      cases hlast : (Text.decode (rest.drop taken)).getLast? with
      | some d =>
        rw [hlast, Option.getD_some] at hx
        exact ih _ hshorter hrest rfl x (hlast.trans (congrArg some hx))
      | none =>
        -- the character is the last one, and a letter would be the only byte
        rw [hlast, Option.getD_none] at hx
        subst hx
        rw [← Bool.not_eq_true]
        intro hc
        obtain ⟨rfl, ha⟩ := hletter hc
        rw [List.drop_zero, List.getLast?_eq_none_iff] at hlast
        cases rest with
        | nil =>
          rw [h a rfl] at ha
          cases ha
        | cons b further =>
          obtain ⟨_, _, hcons, -⟩ := decode_cons b further
          rw [hcons] at hlast
          cases hlast

/-! ### A word behind a line -/

variable {kind : TokenKind} {c : Char} {front chars behind rest more : List Char}

/-- A token of characters that do not end in a letter cannot take one behind them. -/
theorem Takes.append (h : Takes kind chars behind)
    (hend : ∀ c ∈ (chars ++ behind).getLast?, isLetter c = false)
    (hmore : ∀ c ∈ more.head?, isLetter c = true) : Takes kind chars (behind ++ more) := by
  have hdigits (ends : EndsRun isDigit behind) : EndsRun isDigit (behind ++ more) := by
    cases behind with
    | nil => exact fun c hc ↦ isDigit_of_isLetter (hmore c hc)
    | cons b further => exact ends
  cases h with
  | word run ends =>
    refine .word run ?_
    cases behind with
    | nil =>
      have hletter := run.all _ (List.getLast_mem run.nonempty)
      rw [List.append_nil, List.getLast?_eq_some_getLast run.nonempty] at hend
      rw [hend _ rfl] at hletter
      cases hletter
    | cons b further => exact ends
  | whole run ends noPoint =>
    refine .whole run (hdigits ends) ?_
    intro d further hpoint
    match behind with
    | [] =>
      rw [List.nil_append] at hpoint
      subst hpoint
      cases hmore '.' rfl
    | [b] =>
      rw [List.singleton_append] at hpoint
      obtain ⟨rfl, rfl⟩ := List.cons.inj hpoint
      exact isDigit_of_isLetter (hmore d rfl)
    | b :: b' :: _ =>
      obtain ⟨rfl, hrest⟩ := List.cons.inj hpoint
      obtain ⟨rfl, -⟩ := List.cons.inj hrest
      exact noPoint _ _ rfl
  | decimal run more ends => exact .decimal run more (hdigits ends)
  | symbol isSymbol => exact .symbol isSymbol _

/-- A run of the scanner over characters that do not end in a letter is the same with a word behind
them. -/
theorem Scans.append {tokens : List Token} {front' chars' : List Char}
    (h : Scans front chars tokens front' chars') (hend : ∀ c ∈ chars.getLast?, isLetter c = false)
    (hmore : ∀ c ∈ more.head?, isLetter c = true) :
    Scans front (chars ++ more) tokens front' (chars' ++ more) := by
  induction h with
  | stay front chars => exact .stay front _
  | space isSpace further ih =>
    refine .space isSpace (ih fun c hc ↦ hend c ?_)
    rw [List.getLast?_cons, Option.mem_def.mp hc]
    rfl
  | token takes further ih =>
    rw [List.append_assoc]
    refine .token (takes.append hend hmore) (ih fun c hc ↦ hend c ?_)
    rw [List.getLast?_append, Option.mem_def.mp hc]
    rfl

/-- Whether a character begins a token does not depend on what is behind it. -/
theorem lexeme?_append_of_none (h : lexeme? c rest = none) (more : List Char) :
    lexeme? c (rest ++ more) = none := by
  unfold lexeme? at h ⊢
  split at h
  · cases h
  · rename_i hletter
    rw [if_neg hletter]
    split at h
    · cases h
    · rename_i hdigit
      rw [if_neg hdigit]
      exact h

/-- A word behind characters that do not end in a letter is scanned behind their tokens, and a
stray character among them stays the first one. -/
theorem scan_append (hend : ∀ c ∈ front.getLast?, isLetter c = false)
    (hmore : ∀ c ∈ more.head?, isLetter c = true) :
    scan (front ++ more) =
      (scan front).bind fun tokens ↦ (scanFrom front.length more).map (tokens ++ ·) := by
  rcases scan_cases front with
    ⟨tokens, hscan, hscans⟩ | ⟨tokens, passed, c, rest, hscan, hscans, hspace, hlexeme⟩
  · rw [hscan]
    exact (hscans.append hend hmore).scanFrom_eq
  · rw [hscan, scan, ← List.length_nil, (hscans.append hend hmore).scanFrom_eq, List.cons_append,
      scanFrom, hspace, if_neg Bool.false_ne_true, lexeme?_append_of_none hlexeme more]
    rfl

/-- A name behind characters that do not end in a letter is the token behind theirs, if no letter
follows. -/
theorem scan_append_word {name : List Char} (hend : ∀ c ∈ front.getLast?, isLetter c = false)
    (hname : IsRun isLetter name) (hbehind : EndsRun isLetter behind) :
    scan (front ++ (name ++ behind)) =
      (scan front).bind fun tokens ↦ (scanFrom (front.length + name.length) behind).map fun more ↦
        tokens ++ ofChars .word front.length name :: more := by
  have hfirst : ∀ c ∈ (name ++ behind).head?, isLetter c = true := by
    obtain ⟨hne, hall⟩ := hname
    cases name with
    | nil => exact absurd rfl hne
    | cons c tail =>
      rintro _ ⟨⟩
      exact hall c List.mem_cons_self
  rw [scan_append hend hfirst, scanFrom_append (.word hname hbehind)]
  cases scanFrom (front.length + name.length) behind <;> rfl

end Token

namespace Session

open Token (IsRun isLetter)

/-! ### The word at the end of a line -/

/-- A run of letters is ASCII. -/
theorem toNat_lt_of_isRun {name : List Char} (h : IsRun isLetter name) :
    ∀ c ∈ name, c.toNat < 0x80 :=
  fun c hc ↦ Token.toNat_lt_of_isLetter (h.all c hc)

/-- A line ends in a word: a run of letters, behind bytes that do not end in a letter. -/
structure EndsIn (line front : List UInt8) (word : String) : Prop where
  line_eq : line = front ++ Text.encode word
  isRun : IsRun isLetter word.toList
  /-- The run cannot begin earlier. -/
  noLetter : ∀ b ∈ front.getLast?, isLetterByte b = false

/-- Bytes of letters are the bytes of a text of letters. -/
theorem exists_encode_eq {bytes : List UInt8} (h : ∀ b ∈ bytes, isLetterByte b = true) :
    ∃ word : String, Text.encode word = bytes ∧ ∀ c ∈ word.toList, isLetter c = true := by
  have hcode : ∀ b ∈ bytes, (Char.ofNat b.toNat).toNat = b.toNat := by
    intro b hb
    have hletter := Token.isLetterByte_iff.mp (h b hb)
    have hvalid : b.toNat.isValidChar := Or.inl (by omega)
    exact Text.toNat_charOfNat hvalid
  have hletters : ∀ c ∈ Text.asciiChars bytes, isLetter c = true := by
    intro c hc
    obtain ⟨b, hb, rfl⟩ := List.mem_map.mp hc
    rw [Token.isLetter_iff, hcode b hb]
    exact Token.isLetterByte_iff.mp (h b hb)
  refine ⟨String.ofList (Text.asciiChars bytes), ?_, by rwa [String.toList_ofList]⟩
  rw [Text.encode_ascii, String.toList_ofList, Text.asciiChars, List.map_map]
  · refine (List.map_congr_left fun b hb ↦ ?_).trans (List.map_id _)
    simp only [Function.comp_apply, hcode b hb, UInt8.ofNat_toNat, id]
  · intro c hc
    rw [String.toList_ofList] at hc
    exact Token.toNat_lt_of_isLetter (hletters c hc)

/-- A line is the word at its end and what is in front of it. -/
theorem beforeLastWord_append_lastWord (line : List UInt8) :
    beforeLastWord line ++ lastWord line = line := by
  rw [beforeLastWord, lastWord, ← List.reverse_append, List.takeWhile_append_dropWhile,
    List.reverse_reverse]

/-- What is in front of the word at the end of a line does not end in a letter. -/
theorem getLast?_beforeLastWord (line : List UInt8) :
    ∀ b ∈ (beforeLastWord line).getLast?, isLetterByte b = false := by
  intro b hb
  have hnot := List.head?_dropWhile_not isLetterByte line.reverse
  rw [beforeLastWord, List.getLast?_reverse] at hb
  rw [Option.mem_def.mp hb] at hnot
  exact hnot

/-- The word at the end of a line is empty exactly if the line does not end in a letter. -/
theorem lastWord_eq_nil_iff {line : List UInt8} :
    lastWord line = [] ↔ ∀ b ∈ line.getLast?, isLetterByte b = false := by
  rw [lastWord, List.reverse_eq_nil_iff, ← List.head?_reverse]
  cases line.reverse with
  | nil => simp
  | cons b further => by_cases hb : isLetterByte b = true <;> simp [hb]

/-- A line that ends in a letter ends in a word. -/
theorem exists_endsIn {line : List UInt8} (h : lastWord line ≠ []) :
    ∃ front word, EndsIn line front word := by
  have hbytes : ∀ b ∈ lastWord line, isLetterByte b = true := by
    intro b hb
    exact List.all_eq_true.mp List.all_takeWhile b (List.mem_reverse.mp hb)
  obtain ⟨word, hencode, hletters⟩ := exists_encode_eq hbytes
  refine ⟨beforeLastWord line, word, ?_, ⟨?_, hletters⟩, getLast?_beforeLastWord line⟩
  · rw [hencode, beforeLastWord_append_lastWord]
  · intro hempty
    rw [← hencode, Text.encode_eq_flatMap, hempty] at h
    exact h rfl

/-- The bytes of a run of letters are letters. -/
theorem isLetterByte_of_mem_encode {word : String} (h : IsRun isLetter word.toList) :
    ∀ b ∈ Text.encode word, isLetterByte b = true := by
  rw [Text.encode_ascii (toNat_lt_of_isRun h)]
  intro b hb
  obtain ⟨c, hc, rfl⟩ := List.mem_map.mp hb
  rw [Token.isLetterByte_iff, Text.toNat_ofNat_of_lt (toNat_lt_of_isRun h c hc)]
  exact Token.isLetter_iff.mp (h.all c hc)

/-- The word that a line ends in is the one that is completed. -/
theorem EndsIn.lastWord_eq {line front : List UInt8} {word : String} (h : EndsIn line front word) :
    lastWord line = Text.encode word ∧ beforeLastWord line = front := by
  have hletters : ∀ b ∈ (Text.encode word).reverse, isLetterByte b = true :=
    fun b hb ↦ isLetterByte_of_mem_encode h.isRun b (List.mem_reverse.mp hb)
  have hstops : front.reverse.takeWhile isLetterByte = [] ∧
      front.reverse.dropWhile isLetterByte = front.reverse := by
    have hfront := h.noLetter
    rw [← List.head?_reverse] at hfront
    cases hreverse : front.reverse with
    | nil => exact ⟨rfl, rfl⟩
    | cons b further =>
      rw [hreverse] at hfront
      simp [hfront b rfl]
  rw [lastWord, beforeLastWord, h.line_eq, List.reverse_append,
    List.takeWhile_append_of_pos hletters, List.dropWhile_append_of_pos hletters, hstops.1,
    hstops.2, List.append_nil, List.reverse_reverse, List.reverse_reverse]
  exact ⟨rfl, rfl⟩

/-! ### Candidates -/

/-- The functions that begin with a word, in their order. -/
def functionsWith (word : String) : List Function :=
  Function.all.filter fun f ↦ word.toList.isPrefixOf f.name.toList

/-- The variables that begin with a word, in increasing order. -/
def variablesWith (s : Session) (word : String) : List String :=
  s.env.names.filter fun name ↦ word.toList.isPrefixOf name.toList

/-- The names of functions are runs of letters. -/
theorem isRun_name (f : Function) : IsRun isLetter f.name.toList := by
  cases f <;> exact ⟨by decide, List.all_eq_true.mp rfl⟩

/-- Looking for names that begin with a word, bytes are as good as characters. -/
theorem isPrefixOf_encode {word name : String} (hword : IsRun isLetter word.toList)
    (hname : IsRun isLetter name.toList) :
    (Text.encode word).isPrefixOf (Text.encode name) = word.toList.isPrefixOf name.toList := by
  rw [Bool.eq_iff_iff, List.isPrefixOf_iff_prefix, List.isPrefixOf_iff_prefix]
  exact Text.encode_prefix_iff (toNat_lt_of_isRun hword) (toNat_lt_of_isRun hname)

variable {s : Session} {line front : List UInt8} {word : String}

/-- What is completed: the functions that begin with the word, with an opening parenthesis, and then
the variables that do. -/
theorem EndsIn.complete_eq (h : EndsIn line front word)
    (hnames : ∀ name ∈ s.env.names, IsRun isLetter name.toList) :
    s.complete line =
      ((functionsWith word).map fun f ↦ front ++ Text.encode (f.name ++ "(")) ++
        (s.variablesWith word).map fun name ↦ front ++ Text.encode name := by
  obtain ⟨hword, hfront⟩ := h.lastWord_eq
  have hrun := h.isRun
  have hempty : (Text.encode word).isEmpty = false := by
    rw [Text.encode_ascii (toNat_lt_of_isRun hrun), List.isEmpty_map]
    simpa using hrun.nonempty
  have hparen : Text.encode "(" = [0x28] := by
    rw [Text.encode_eq_flatMap]
    rfl
  rw [complete, hword, hfront, hempty, if_neg Bool.false_ne_true]
  simp only [List.filter_append, List.filter_map, List.map_append, List.map_map]
  congr 1
  · rw [functionsWith, List.filter_congr fun f _ ↦ (isPrefixOf_encode hrun (isRun_name f)).symm]
    refine List.map_congr_left fun f _ ↦ ?_
    simp only [Function.comp_apply, Text.encode_append, hparen, List.append_assoc]
  · rw [variablesWith,
      List.filter_congr fun name hname ↦ (isPrefixOf_encode hrun (hnames name hname)).symm]
    refine List.map_congr_left fun name _ ↦ ?_
    simp only [Function.comp_apply, List.append_nil]

/-- What holds of the functions and of the variables that are listed holds of every completion. -/
theorem EndsIn.forall_complete (h : EndsIn line front word)
    (hnames : ∀ name ∈ s.env.names, IsRun isLetter name.toList) {P : List UInt8 → Prop}
    (hfunctions : ∀ f ∈ functionsWith word, P (front ++ Text.encode (f.name ++ "(")))
    (hvariables : ∀ name ∈ s.variablesWith word, IsRun isLetter name.toList →
      P (front ++ Text.encode name)) :
    ∀ entry ∈ s.complete line, P entry := by
  intro entry hentry
  rw [h.complete_eq hnames, List.mem_append, List.mem_map, List.mem_map] at hentry
  rcases hentry with ⟨f, hf, rfl⟩ | ⟨name, hname, rfl⟩
  · exact hfunctions f hf
  · exact hvariables name hname (hnames name (List.mem_filter.mp hname).1)

/-- No function is listed twice. -/
theorem nodup_functions (front : List UInt8) (word : String) :
    ((functionsWith word).map fun f ↦ front ++ Text.encode (f.name ++ "(")).Nodup := by
  have hnames : Function.all.Pairwise fun f g ↦ f.name ≠ g.name := by decide
  refine List.pairwise_map.mpr ((hnames.filter _).imp fun {f g} hne heq ↦ hne ?_)
  have htext : f.name ++ "(" = g.name ++ "(" := Text.encode_injective (List.append_cancel_left heq)
  have hchars := congrArg String.toList htext
  rw [String.toList_append, String.toList_append] at hchars
  exact String.toList_inj.mp (List.append_cancel_right hchars)

/-- Variables are listed in increasing order of their bytes. -/
theorem increasing_variables (s : Session) (front : List UInt8) (word : String) :
    ((s.variablesWith word).map fun name ↦ front ++ Text.encode name).Pairwise (· < ·) := by
  have hnames : s.env.names.Pairwise (· < ·) := List.pairwise_map.mpr s.env.increasing
  refine List.pairwise_map.mpr ((hnames.filter _).imp fun {a b} hlt ↦ ?_)
  exact List.append_left_lt (Text.encode_lt_encode hlt)

/-- No completion is listed twice: a function has a parenthesis, a variable has none. -/
theorem nodup_complete (hnames : ∀ name ∈ s.env.names, IsRun isLetter name.toList) :
    (((functionsWith word).map fun f ↦ front ++ Text.encode (f.name ++ "(")) ++
      (s.variablesWith word).map fun name ↦ front ++ Text.encode name).Nodup := by
  refine List.nodup_append.mpr ⟨nodup_functions front word, ?_, ?_⟩
  · refine (s.increasing_variables front word).imp ?_
    rintro a _ hlt rfl
    exact List.lt_irrefl a hlt
  · intro entry hfunction other hvariable heq
    subst heq
    obtain ⟨f, -, hf⟩ := List.mem_map.mp hfunction
    obtain ⟨name, hname, hentry⟩ := List.mem_map.mp hvariable
    have htext : name = f.name ++ "(" :=
      Text.encode_injective (List.append_cancel_left (hentry.trans hf.symm))
    have hparen : '(' ∈ name.toList := by
      rw [htext]
      simp
    cases (hnames name (List.mem_filter.mp hname).1).all '(' hparen

/-! ### Tokens of completions -/

/-- A name at the end of a line is the last token, behind those of what is in front of it. -/
theorem scanBytes_append_name (hfront : ∀ b ∈ front.getLast?, isLetterByte b = false)
    {name : String} (hname : IsRun isLetter name.toList) :
    Token.scanBytes (front ++ Text.encode name) =
      (Token.scanBytes front).map
        (· ++ [.ofChars .word (Text.decode front).length name.toList]) := by
  have hends : Token.EndsRun isLetter [] := by
    rintro c ⟨⟩
  have hscan := Token.scan_append_word (Token.getLast?_decode hfront) hname hends
  rw [Token.scanBytes, Text.decode_append_encode front (toNat_lt_of_isRun hname), Token.scanBytes]
  rw [List.append_nil, Token.scanFrom] at hscan
  rw [hscan]
  cases Token.scan (Text.decode front) <;> rfl

/-- A name with an opening parenthesis at the end of a line gives the last two tokens. -/
theorem scanBytes_append_call (hfront : ∀ b ∈ front.getLast?, isLetterByte b = false)
    {name : String} (hname : IsRun isLetter name.toList) :
    Token.scanBytes (front ++ Text.encode (name ++ "(")) =
      (Token.scanBytes front).map
        (· ++ [.ofChars .word (Text.decode front).length name.toList,
          .ofChars .openParen ((Text.decode front).length + name.toList.length) ['(']]) := by
  have hascii : ∀ c ∈ (name ++ "(").toList, c.toNat < 0x80 := by
    intro c hc
    rw [String.toList_append, List.mem_append] at hc
    rcases hc with hc | hc
    · exact toNat_lt_of_isRun hname c hc
    · obtain rfl : c = '(' := by simpa using hc
      decide
  have hends : Token.EndsRun isLetter ['('] := by
    rintro c ⟨⟩
    rfl
  have hopen : Token.Takes .openParen ['('] [] := .symbol rfl []
  have hscan := Token.scan_append_word (Token.getLast?_decode hfront) hname hends
  rw [← List.append_nil ['('], Token.scanFrom_append hopen, Token.scanFrom] at hscan
  rw [Token.scanBytes, Text.decode_append_encode front hascii, Token.scanBytes,
    String.toList_append]
  rw [List.append_nil] at hscan
  refine hscan.trans ?_
  cases Token.scan (Text.decode front) <;> rfl

/-- A name that begins with the word at the end of a line extends the line. -/
theorem EndsIn.prefix_of_prefix (h : EndsIn line front word) {name : String}
    (hname : word.toList <+: name.toList) : line <+: front ++ Text.encode name := by
  obtain ⟨further, hfurther⟩ := hname
  refine ⟨further.flatMap String.utf8EncodeChar, ?_⟩
  rw [h.line_eq, List.append_assoc, Text.encode_eq_flatMap, Text.encode_eq_flatMap, ← hfurther,
    List.flatMap_append]

/-- Completing keeps the tokens of a line. A line that does not end in a letter has no completions.
Any other ends in a word, the longest run of letters there. Its completions are the functions that
begin with the word, in their order and with an opening parenthesis, and then the variables that
begin with it, in increasing order; none is listed twice, and each begins with the whole line. If
the line has tokens, the last one is the word, and each completion has the other tokens at the same
places, then its name and its parenthesis. If the line has a stray character, each completion has
the same one as its first.
Assumes: the names of all variables are runs of letters. -/
theorem complete_keepsTokens (s : Session) (line : List UInt8)
    (hnames : ∀ name ∈ s.env.names, IsRun isLetter name.toList) :
    ((∀ b ∈ line.getLast?, isLetterByte b = false) → s.complete line = []) ∧
      ((∃ b ∈ line.getLast?, isLetterByte b = true) → ∃ front word, EndsIn line front word) ∧
      ∀ front word, EndsIn line front word →
        s.complete line =
          ((functionsWith word).map fun f ↦ front ++ Text.encode (f.name ++ "(")) ++
            (s.variablesWith word).map (fun name ↦ front ++ Text.encode name) ∧
        (s.complete line).Nodup ∧
        ((s.variablesWith word).map fun name ↦ front ++ Text.encode name).Pairwise (· < ·) ∧
        (∀ entry ∈ s.complete line, line <+: entry) ∧
        ((∃ tokens,
            Token.scanBytes line =
              .ok (tokens ++ [.ofChars .word (Text.decode front).length word.toList]) ∧
            (∀ f ∈ functionsWith word, Token.scanBytes (front ++ Text.encode (f.name ++ "(")) =
              .ok (tokens ++ [.ofChars .word (Text.decode front).length f.name.toList,
                .ofChars .openParen ((Text.decode front).length + f.name.toList.length) ['(']])) ∧
            ∀ name ∈ s.variablesWith word, Token.scanBytes (front ++ Text.encode name) =
              .ok (tokens ++ [.ofChars .word (Text.decode front).length name.toList])) ∨
          ∃ e, Token.scanBytes line = .error e ∧
            ∀ entry ∈ s.complete line, Token.scanBytes entry = .error e) := by
  refine ⟨?_, ?_, ?_⟩
  · intro hend
    rw [complete, lastWord_eq_nil_iff.mpr hend]
    rfl
  · rintro ⟨b, hb, hletter⟩
    refine exists_endsIn fun hempty ↦ ?_
    rw [lastWord_eq_nil_iff.mp hempty b hb] at hletter
    cases hletter
  · intro front word hends
    have hcomplete := hends.complete_eq hnames
    have hline := scanBytes_append_name hends.noLetter hends.isRun
    rw [← hends.line_eq] at hline
    refine ⟨hcomplete, hcomplete ▸ nodup_complete hnames, s.increasing_variables front word,
      ?_, ?_⟩
    · refine hends.forall_complete hnames ?_ ?_
      · intro f hf
        refine hends.prefix_of_prefix (List.IsPrefix.trans
          (List.isPrefixOf_iff_prefix.mp (List.mem_filter.mp hf).2) ?_)
        rw [String.toList_append]
        exact List.prefix_append _ _
      · intro name hname _
        exact hends.prefix_of_prefix (List.isPrefixOf_iff_prefix.mp (List.mem_filter.mp hname).2)
    · cases hfront : Token.scanBytes front with
      | ok tokens =>
        refine Or.inl ⟨tokens, ?_, ?_, ?_⟩
        · rw [hline, hfront]
          rfl
        · intro f _
          rw [scanBytes_append_call hends.noLetter (isRun_name f), hfront]
          rfl
        · intro name hname
          have hrun := hnames name (List.mem_filter.mp hname).1
          rw [scanBytes_append_name hends.noLetter hrun, hfront]
          rfl
      | error e =>
        refine Or.inr ⟨e, ?_, hends.forall_complete hnames ?_ ?_⟩
        · rw [hline, hfront]
          rfl
        · intro f _
          rw [scanBytes_append_call hends.noLetter (isRun_name f), hfront]
          rfl
        · intro name _ hrun
          rw [scanBytes_append_name hends.noLetter hrun, hfront]
          rfl

/-- A batch session in which only `sum` has a value. -/
def onlySum : Session :=
  ⟨Environment.empty.set "sum" Binary64.zero, ⟨false⟩, "", 0, false, false, 0, Library.standard⟩

/-- Where `sum` is the only variable, the line `2s` has a number and the word `s`, and its
completion `2sum` the same number and the word `sum`. A line of the letter `s` behind a byte that
is no character fails, and so does each of its completions, at this byte. -/
theorem complete_keepsTokens_onlySum :
    (∀ name ∈ onlySum.env.names, IsRun isLetter name.toList) ∧
      EndsIn [0x32, 0x73] [0x32] "s" ∧
      (∃ tokens, Token.scanBytes [0x32, 0x73] = .ok (tokens ++ [.ofChars .word 1 ['s']]) ∧
        Token.scanBytes ([0x32] ++ Text.encode "sum") =
          .ok (tokens ++ [.ofChars .word 1 ['s', 'u', 'm']])) ∧
      EndsIn [0xc3, 0x73] [0xc3] "s" ∧
      ∃ e, Token.scanBytes [0xc3, 0x73] = .error e ∧
        ∀ entry ∈ onlySum.complete [0xc3, 0x73], Token.scanBytes entry = .error e := by
  have hnames : ∀ name ∈ onlySum.env.names, IsRun isLetter name.toList := by
    intro name hname
    obtain rfl : name = "sum" := List.mem_singleton.mp hname
    exact ⟨by decide, List.all_eq_true.mp rfl⟩
  have hencode : Text.encode "s" = [0x73] := by
    rw [Text.encode_eq_flatMap]
    rfl
  have hrun : IsRun isLetter "s".toList := ⟨by decide, List.all_eq_true.mp rfl⟩
  have hnumber : EndsIn [0x32, 0x73] [0x32] "s" := by
    refine ⟨by rw [hencode]; rfl, hrun, ?_⟩
    rintro b ⟨⟩
    decide
  have hbroken : EndsIn [0xc3, 0x73] [0xc3] "s" := by
    refine ⟨by rw [hencode]; rfl, hrun, ?_⟩
    rintro b ⟨⟩
    decide
  refine ⟨hnames, hnumber, ?_, hbroken, ?_⟩
  · have hscan : Token.scanBytes [0x32, 0x73] =
        .ok [.ofChars .number 0 ['2'], .ofChars .word 1 ['s']] := by
      have hdecode : Text.decode [0x32, 0x73] = ['2', 's'] := Text.decode_ascii (by simp)
      rw [Token.scanBytes, hdecode]
      cbv
    have hlength : (Text.decode [0x32]).length = 1 := by
      rw [Text.decode_ascii (by simp)]
      rfl
    obtain ⟨-, -, -, -, htokens⟩ := (complete_keepsTokens onlySum _ hnames).2.2 _ _ hnumber
    rw [hlength] at htokens
    rcases htokens with ⟨tokens, hline, -, hvariables⟩ | ⟨e, hline, -⟩
    · refine ⟨tokens, hline, hvariables "sum" ?_⟩
      exact List.mem_filter.mpr ⟨List.mem_singleton.mpr rfl, rfl⟩
    · cases hscan.symm.trans hline
  · have hscan : Token.scanBytes [0xc3, 0x73] = .error ⟨0, Text.replacement⟩ := by
      have hpoint : Text.codePoint? 0xc3 [0x73] = none := rfl
      have hdecode : Text.decode [0xc3, 0x73] = [Text.replacement, 's'] := by
        rw [Text.decode, hpoint]
        dsimp only
        rw [Text.decode_ascii (by simp)]
        rfl
      rw [Token.scanBytes, hdecode]
      cbv
    obtain ⟨-, -, -, -, htokens⟩ := (complete_keepsTokens onlySum _ hnames).2.2 _ _ hbroken
    rcases htokens with ⟨tokens, hline, -⟩ | hfails
    · cases hscan.symm.trans hline
    · exact hfails

end Session

end Reckoner
