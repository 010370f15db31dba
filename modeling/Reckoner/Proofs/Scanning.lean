import Reckoner.Token.Scan

/-!
# Where the tokens of a line stand

A span quotes a text in a line if it covers these characters of the line. Every token that is read
from a line quotes its text, at least one character, and begins behind the token in front of it
(`Token.PlacedIn`). The text of a token is a lexeme of its kind, so a symbol's kind tells its text.

The scanner is followed from an offset on: `front` are the characters it has passed, and the tokens
it still finds stand behind them (`Token.placedIn_of_scanFrom`).

Main statements: the tokens of a line are placed in it in order (`Token.placedIn_of_scan`), and a
character that begins no token is one of the line (`Token.quotes_of_scan_error`).
-/

set_option autoImplicit false

namespace Reckoner

/-! ### Parts of a line -/

namespace Span

/-- The characters of a line that a span covers. -/
def textIn (line : List Char) (s : Span) : List Char :=
  (line.take s.stop.toNat).drop s.start.toNat

/-- A span covers a part of a line, of at least one character. -/
structure LiesIn (line : List Char) (s : Span) : Prop where
  start_nonneg : 0 ≤ s.start
  start_lt_stop : s.start < s.stop
  stop_le : s.stop ≤ line.length

/-- The characters of a line that a span covers are those of a text. -/
structure Quotes (line : List Char) (s : Span) (text : String) : Prop extends LiesIn line s where
  textIn_eq : s.textIn line = text.toList

/-- The characters between a part in front and a part behind are covered by the offsets around
them. -/
theorem textIn_append (front middle back : List Char) :
    textIn (front ++ middle ++ back) ⟨front.length, front.length + middle.length⟩ = middle := by
  have hstop : ((front.length : Int) + middle.length).toNat = (front ++ middle).length := by
    rw [List.length_append]
    omega
  simp only [textIn, hstop, List.take_left, Int.toNat_natCast, List.drop_left]

/-- What is covered by two spans, the second one right behind the first. -/
theorem textIn_union (line : List Char) {start middle stop : Int} (hstart : start ≤ middle)
    (hstop : middle ≤ stop) :
    textIn line ⟨start, stop⟩ = textIn line ⟨start, middle⟩ ++ textIn line ⟨middle, stop⟩ := by
  have hle : start.toNat ≤ middle.toNat := Int.toNat_le_toNat hstart
  have hle' : middle.toNat ≤ stop.toNat := Int.toNat_le_toNat hstop
  have hfront : ((line.take stop.toNat).drop start.toNat).take (middle.toNat - start.toNat) =
      (line.take middle.toNat).drop start.toNat := by
    rw [List.take_drop, List.take_take, Nat.add_sub_cancel' hle, Nat.min_eq_left hle']
  have hback : ((line.take stop.toNat).drop start.toNat).drop (middle.toNat - start.toNat) =
      (line.take stop.toNat).drop middle.toNat := by
    rw [List.drop_drop, Nat.add_sub_cancel' hle]
  simp only [textIn]
  rw [← hfront, ← hback, List.take_append_drop]

/-- A text with a part of the line in front of it and a part behind it is quoted by the offsets
around it. -/
theorem quotes_append {front middle back : List Char} (hmiddle : middle ≠ []) :
    Quotes (front ++ middle ++ back) ⟨front.length, front.length + middle.length⟩
      (String.ofList middle) where
  start_nonneg := by simp
  start_lt_stop := by
    have hpos := List.length_pos_iff.mpr hmiddle
    simp only
    omega
  stop_le := by
    simp only [List.length_append]
    omega
  textIn_eq := by rw [textIn_append, String.toList_ofList]

end Span

namespace Token

/-! ### Lexemes -/

/-- A number takes characters that follow its first digit. -/
theorem numberTail_isPrefix (rest : List Char) : numberTail rest <+: rest := by
  obtain ⟨behind, hbehind⟩ : rest.takeWhile isDigit <+: rest := List.takeWhile_prefix isDigit
  unfold numberTail
  dsimp only
  generalize rest.takeWhile isDigit = whole at hbehind
  rw [← hbehind, List.drop_left]
  split
  · rename_i d further
    split
    · rw [List.prefix_append_right_inj, List.cons_prefix_cons]
      exact ⟨rfl, List.takeWhile_prefix isDigit⟩
    · exact List.prefix_append whole _
  · exact List.prefix_append whole _

/-- A token takes characters that follow its first one. -/
theorem lexeme?_isPrefix {c : Char} {rest tail : List Char} {kind : TokenKind}
    (h : lexeme? c rest = some (kind, tail)) : tail <+: rest := by
  unfold lexeme? at h
  split at h
  · obtain ⟨-, rfl⟩ := Prod.mk.inj (Option.some.inj h)
    exact List.takeWhile_prefix isLetter
  · split at h
    · obtain ⟨-, rfl⟩ := Prod.mk.inj (Option.some.inj h)
      exact numberTail_isPrefix rest
    · obtain ⟨_, -, hpair⟩ := Option.map_eq_some_iff.mp h
      obtain ⟨-, rfl⟩ := Prod.mk.inj hpair
      exact List.nil_prefix

/-- A text is a lexeme of a kind: its first character begins a token of this kind that takes the
others. -/
def IsLexeme (kind : TokenKind) (text : String) : Prop :=
  ∃ c tail rest, text = String.ofList (c :: tail) ∧ lexeme? c rest = some (kind, tail)

/-- A symbol is no letter and no digit. -/
theorem not_letter_of_symbol? {c : Char} {kind : TokenKind} (h : symbol? c = some kind) :
    isLetter c = false ∧ isDigit c = false := by
  unfold symbol? at h
  split at h <;> cases h <;> exact ⟨rfl, rfl⟩

/-- No two symbols have the same kind. -/
theorem eq_of_symbol? {c c' : Char} {kind : TokenKind} (h : symbol? c = some kind)
    (h' : symbol? c' = some kind) : c = c' := by
  unfold symbol? at h
  split at h <;> cases h <;> unfold symbol? at h' <;> split at h' <;> cases h' <;> rfl

/-- What begins with a symbol is the symbol. -/
theorem lexeme?_of_symbol? {c : Char} {kind : TokenKind} (h : symbol? c = some kind)
    (rest : List Char) : lexeme? c rest = some (kind, []) := by
  obtain ⟨hletter, hdigit⟩ := not_letter_of_symbol? h
  simp [lexeme?, hletter, hdigit, h]

namespace IsLexeme

variable {kind kind' : TokenKind} {text : String} {c : Char}

/-- The lexeme of a symbol's kind is the symbol. -/
theorem text_eq (h : IsLexeme kind text) (hc : symbol? c = some kind) :
    text = String.ofList [c] := by
  obtain ⟨c', tail, rest, rfl, hlexeme⟩ := h
  unfold lexeme? at hlexeme
  split at hlexeme
  · obtain ⟨rfl, -⟩ := Prod.mk.inj (Option.some.inj hlexeme)
    unfold symbol? at hc
    split at hc <;> cases hc
  · split at hlexeme
    · obtain ⟨rfl, -⟩ := Prod.mk.inj (Option.some.inj hlexeme)
      unfold symbol? at hc
      split at hc <;> cases hc
    · obtain ⟨_, hsymbol, hpair⟩ := Option.map_eq_some_iff.mp hlexeme
      obtain ⟨rfl, rfl⟩ := Prod.mk.inj hpair
      rw [eq_of_symbol? hsymbol hc]

/-- A symbol is a lexeme of its own kind only. -/
theorem kind_eq (h : IsLexeme kind (String.ofList [c])) (hc : symbol? c = some kind') :
    kind = kind' := by
  obtain ⟨c', tail, rest, htext, hlexeme⟩ := h
  obtain ⟨rfl, -⟩ := List.cons.inj (String.ofList_injective htext)
  rw [lexeme?_of_symbol? hc] at hlexeme
  exact (Prod.mk.inj (Option.some.inj hlexeme)).1.symm

end IsLexeme

/-! ### The tokens of a line -/

/-- A token stands in a line: its span quotes its text, which is a lexeme of its kind. -/
structure StandsIn (line : List Char) (t : Token) : Prop where
  quotes : t.span.Quotes line t.text
  lexeme : IsLexeme t.kind t.text

/-- Tokens stand in a line from left to right. -/
structure PlacedIn (line : List Char) (tokens : List Token) : Prop where
  stands : ∀ t ∈ tokens, t.StandsIn line
  ordered : tokens.Pairwise fun a b ↦ a.span.stop ≤ b.span.start

/-- The scanner's result from an offset on: all tokens stand behind the characters passed. -/
theorem placedIn_of_scanFrom {position : Nat} {chars : List Char} {tokens : List Token}
    (h : scanFrom position chars = .ok tokens) (front : List Char)
    (hfront : front.length = position) :
    PlacedIn (front ++ chars) tokens ∧ ∀ t ∈ tokens, (position : Int) ≤ t.span.start := by
  fun_induction scanFrom position chars generalizing front tokens with
  | case1 position =>
    cases h
    exact ⟨⟨by simp, .nil⟩, by simp⟩
  | case2 position c rest hspace ih =>
    obtain ⟨hplaced, hbehind⟩ := ih h (front ++ [c]) (by simp [hfront])
    rw [List.append_assoc, List.singleton_append] at hplaced
    refine ⟨hplaced, ?_⟩
    intro t ht
    have hstart := hbehind t ht
    omega
  | case3 position c rest hspace hlexeme => cases h
  | case4 position c rest hspace kind tail hlexeme further hfurther ih =>
    cases h
    obtain ⟨back, rfl⟩ := lexeme?_isPrefix hlexeme
    rw [List.drop_left] at hfurther ih
    have hlength : (front ++ c :: tail).length = position + 1 + tail.length := by
      rw [List.length_append, List.length_cons, hfront]
      omega
    obtain ⟨hplaced, hbehind⟩ := ih hfurther (front ++ c :: tail) hlength
    have hline : front ++ c :: tail ++ back = front ++ c :: (tail ++ back) := by simp
    rw [hline] at hplaced
    have hquotes : (ofChars kind position (c :: tail)).StandsIn (front ++ c :: (tail ++ back)) := by
      refine ⟨?_, c, tail, tail ++ back, rfl, hlexeme⟩
      rw [← hline, ← hfront]
      exact Span.quotes_append (by simp)
    refine ⟨⟨?_, ?_⟩, ?_⟩
    · intro t ht
      rcases List.mem_cons.mp ht with rfl | ht
      · exact hquotes
      · exact hplaced.stands t ht
    · refine List.pairwise_cons.mpr ⟨?_, hplaced.ordered⟩
      intro t ht
      have hstart := hbehind t ht
      simp only [ofChars, List.length_cons]
      omega
    · intro t ht
      rcases List.mem_cons.mp ht with rfl | ht
      · exact Int.le_refl _
      · have hstart := hbehind t ht
        omega
  | case5 position c rest hspace kind tail hlexeme e he ih => cases h

/-- The tokens of a line stand in it, from left to right. -/
theorem placedIn_of_scan {line : List Char} {tokens : List Token} (h : scan line = .ok tokens) :
    PlacedIn line tokens :=
  (placedIn_of_scanFrom h [] rfl).1

/-- A character that begins no token stands in the line, behind the characters passed. -/
theorem quotes_of_scanFrom_error {position : Nat} {chars : List Char} {e : LexError}
    (h : scanFrom position chars = .error e) (front : List Char)
    (hfront : front.length = position) :
    e.span.Quotes (front ++ chars) (String.ofList [e.char]) := by
  fun_induction scanFrom position chars generalizing front with
  | case1 position => cases h
  | case2 position c rest hspace ih =>
    have hquotes := ih h (front ++ [c]) (by simp [hfront])
    rwa [List.append_assoc, List.singleton_append] at hquotes
  | case3 position c rest hspace hlexeme =>
    cases h
    have hline : front ++ c :: rest = front ++ [c] ++ rest := by simp
    rw [hline, ← hfront]
    exact Span.quotes_append (by simp)
  | case4 position c rest hspace kind tail hlexeme further hfurther ih => cases h
  | case5 position c rest hspace kind tail hlexeme e' he' ih =>
    cases h
    obtain ⟨back, rfl⟩ := lexeme?_isPrefix hlexeme
    rw [List.drop_left] at he' ih
    have hlength : (front ++ c :: tail).length = position + 1 + tail.length := by
      rw [List.length_append, List.length_cons, hfront]
      omega
    have hquotes := ih he' (front ++ c :: tail) hlength
    have hline : front ++ c :: tail ++ back = front ++ c :: (tail ++ back) := by simp
    rwa [hline] at hquotes

/-- The character of a line that begins no token is quoted by the failure. -/
theorem quotes_of_scan_error {line : List Char} {e : LexError} (h : scan line = .error e) :
    e.span.Quotes line (String.ofList [e.char]) :=
  quotes_of_scanFrom_error h [] rfl

end Token

end Reckoner
