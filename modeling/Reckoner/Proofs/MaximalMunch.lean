import Reckoner.Proofs.Lexemes

/-!
# The longest token at every place

What the tokens of a line are can be said without reading it from left to right. Each token covers
characters of its kind and cannot take another one; the tokens stand in order, and outside of them
there is only white space (`Token.Munches`). A character is stray if it is neither white space nor a
part of any token: not a letter, a digit or a symbol, and not the point of a number. Whether a point
is that of a number depends on the digits in front of it, which may be the places of an earlier
number (`Token.followsWhole`).

The scanner passes white space and tokens one by one. `Token.Scans` is a run of such steps, from one
place of a line to another. The place between two steps is never inside of a word, of a run of
digits or of a number (`Token.Boundary`), and this is what every run preserves
(`Token.Scans.boundary`). So a run leaves no stray character behind, and a scan that comes to the
end has found the tokens that the line has.

Main statement: `Token.scan_maximalMunch`.
-/

set_option autoImplicit false

namespace Reckoner

namespace Token

variable {kind : TokenKind} {c : Char} {front chars behind rest : List Char}

/-! ### Stray characters -/

mutual

/-- Whether a point behind characters, given last first, stands behind the digits of a number that
has no point yet. -/
def followsWhole : List Char → Bool
  | [] => false
  | c :: before => isDigit c && !followsPoint before

/-- Whether digits behind characters, given last first, are the places of a number. A point behind
them belongs to no number. -/
def followsPoint : List Char → Bool
  | [] => false
  | c :: before => if isDigit c then followsPoint before else c == '.' && followsWhole before

end

/-- Whether the point of a number stands at an offset of a line: a point between the digits of a
number and another digit. -/
def IsPoint (whole : List Char) (position : Nat) : Prop :=
  whole[position]? = some '.' ∧ followsWhole (whole.take position).reverse = true ∧
    ∃ d, whole[position + 1]? = some d ∧ isDigit d = true

/-- A character of a line that belongs to no token: neither white space, a letter, a digit or a
symbol, nor the point of a number. -/
structure Stray (whole : List Char) (position : Nat) (c : Char) : Prop where
  stands : whole[position]? = some c
  noSpace : isSpace c = false
  noLetter : isLetter c = false
  noDigit : isDigit c = false
  noSymbol : symbol? c = none
  noPoint : ¬ IsPoint whole position

/-- Digits in front of others belong to the same number. -/
theorem followsPoint_append {digits : List Char} (hall : ∀ c ∈ digits, isDigit c = true)
    (front : List Char) :
    followsPoint (front ++ digits).reverse = followsPoint front.reverse := by
  rw [List.reverse_append]
  have hreverse : ∀ c ∈ digits.reverse, isDigit c = true := by simpa using hall
  generalize digits.reverse = reversed at hreverse
  induction reversed with
  | nil => rfl
  | cons c reversed ih =>
    obtain ⟨hc, hreversed⟩ := List.forall_mem_cons.mp hreverse
    rw [List.cons_append, followsPoint, if_pos hc, ih hreversed]

/-- A point behind a run of digits. -/
theorem followsWhole_append {digits : List Char} (hdigits : IsRun isDigit digits)
    (front : List Char) :
    followsWhole (front ++ digits).reverse = !followsPoint front.reverse := by
  obtain ⟨hne, hall⟩ := hdigits
  rw [← List.dropLast_concat_getLast hne] at hall ⊢
  have hlast : isDigit (digits.getLast hne) = true := hall _ (by simp)
  have hinit : ∀ c ∈ digits.dropLast, isDigit c = true := fun c hc ↦ hall c (by simp [hc])
  rw [← List.append_assoc, List.reverse_concat, followsWhole, hlast, Bool.true_and,
    followsPoint_append hinit]

/-- Whether the point of a number stands between characters passed and the next ones. -/
theorem isPoint_append_iff :
    IsPoint (front ++ chars) front.length ↔
      ∃ d further, chars = '.' :: d :: further ∧ isDigit d = true ∧
        followsWhole front.reverse = true := by
  have hhere : (front ++ chars)[front.length]? = chars[0]? := by
    rw [List.getElem?_append_right (Nat.le_refl _), Nat.sub_self]
  have hnext : (front ++ chars)[front.length + 1]? = chars[1]? := by
    rw [List.getElem?_append_right (Nat.le_add_right _ _), Nat.add_sub_cancel_left]
  unfold IsPoint
  rw [hhere, hnext, List.take_left]
  constructor
  · rintro ⟨hpoint, hfollows, d, hd, hdigit⟩
    match chars with
    | [] => cases hpoint
    | [_] => cases hd
    | _ :: _ :: further =>
      cases hpoint
      cases hd
      exact ⟨d, further, rfl, hdigit, hfollows⟩
  · rintro ⟨d, further, rfl, hdigit, hfollows⟩
    exact ⟨rfl, hfollows, d, rfl, hdigit⟩

/-! ### Between two tokens -/

/-- A place of a line where the scanner can stand: between the characters in front of it and those
behind it there is no word and no number that goes on. -/
structure Boundary (front chars : List Char) : Prop where
  /-- A word that begins here begins here for the first time. -/
  freshWord : ∀ c ∈ chars.head?, isLetter c = true → EndsRun isLetter front.reverse
  /-- Digits that begin here are not the places of a number. -/
  freshNumber : ∀ c ∈ chars.head?, isDigit c = true → followsPoint front.reverse = false
  /-- A point that stands here is not that of a number. -/
  noPoint : ¬ IsPoint (front ++ chars) front.length

/-- A line begins with a boundary. -/
theorem boundary_nil (chars : List Char) : Boundary [] chars := by
  refine ⟨?_, ?_, ?_⟩
  · rintro _ _ _ _ ⟨⟩
  · intro _ _ _
    rfl
  · rw [isPoint_append_iff]
    rintro ⟨_, _, _, _, hfollows⟩
    cases hfollows

/-- There is a boundary behind a character that is neither a digit nor a point, unless it is a
letter in front of another one. -/
theorem boundary_concat {b : Char} (hdigit : isDigit b = false) (hpoint : b ≠ '.')
    (hletters : isLetter b = true → EndsRun isLetter chars) (front : List Char) :
    Boundary (front ++ [b]) chars := by
  refine ⟨?_, ?_, ?_⟩
  · intro c hc hletter b' hb'
    rw [List.reverse_concat] at hb'
    obtain rfl : b = b' := by simpa using hb'
    rw [← Bool.not_eq_true]
    intro hb
    rw [hletters hb c hc] at hletter
    cases hletter
  · intro _ _ _
    rw [List.reverse_concat, followsPoint, hdigit]
    simp [hpoint]
  · rw [isPoint_append_iff, List.reverse_concat, followsWhole, hdigit]
    rintro ⟨_, _, _, _, hfollows⟩
    cases hfollows

/-- There is a boundary behind digits that cannot go on, unless the point of a number follows. -/
theorem boundary_digits {digits : List Char} (hdigits : IsRun isDigit digits)
    (hends : EndsRun isDigit chars)
    (hpoint : ¬ IsPoint (front ++ digits ++ chars) (front ++ digits).length) :
    Boundary (front ++ digits) chars := by
  obtain ⟨hne, hall⟩ := hdigits
  refine ⟨?_, ?_, hpoint⟩
  · intro _ _ _ b hb
    rw [← List.dropLast_concat_getLast hne, ← List.append_assoc, List.reverse_concat] at hb
    obtain rfl : digits.getLast hne = b := by simpa using hb
    have hdigit := hall _ (List.getLast_mem hne)
    rw [← Bool.not_eq_true]
    intro hletter
    rw [isDigit_of_isLetter hletter] at hdigit
    cases hdigit
  · intro c hc hdigit
    rw [hends c hc] at hdigit
    cases hdigit

/-- A point behind digits that begin at a boundary stands behind the digits of a number. -/
theorem Boundary.followsWhole_append {digits : List Char} (h : Boundary front (digits ++ chars))
    (hdigits : IsRun isDigit digits) : followsWhole (front ++ digits).reverse = true := by
  have hfresh : followsPoint front.reverse = false := by
    obtain ⟨hne, hall⟩ := hdigits
    cases digits with
    | nil => exact absurd rfl hne
    | cons d further => exact h.freshNumber d rfl (hall d List.mem_cons_self)
  rw [Token.followsWhole_append hdigits, hfresh]
  rfl

/-- A token that begins at a boundary ends at one. -/
theorem Takes.boundary (h : Takes kind chars behind) (hfront : Boundary front (chars ++ behind)) :
    Boundary (front ++ chars) behind := by
  cases h with
  | word run ends =>
    obtain ⟨hne, hall⟩ := run
    have hlast : isLetter (chars.getLast hne) = true := hall _ (List.getLast_mem hne)
    rw [← List.dropLast_concat_getLast hne, ← List.append_assoc]
    refine boundary_concat (isDigit_of_isLetter hlast) ?_ (fun _ ↦ ends) _
    intro hpoint
    rw [hpoint] at hlast
    cases hlast
  | whole run ends noPoint =>
    refine boundary_digits run ends ?_
    rw [isPoint_append_iff]
    rintro ⟨d, further, hbehind, hd, -⟩
    rw [noPoint d further hbehind] at hd
    cases hd
  | @decimal digits places _ run more ends =>
    rw [List.append_assoc] at hfront
    have hwhole := hfront.followsWhole_append run
    have hassoc : front ++ (digits ++ '.' :: places) = front ++ digits ++ ['.'] ++ places := by
      simp
    rw [hassoc]
    refine boundary_digits more ends ?_
    -- the places stand behind the point of this number
    have hpoint : followsPoint (front ++ digits ++ ['.']).reverse = true := by
      rw [List.reverse_concat, followsPoint, hwhole]
      rfl
    rw [isPoint_append_iff, followsWhole_append more, hpoint]
    rintro ⟨_, _, _, _, hfollows⟩
    cases hfollows
  | symbol isSymbol =>
    obtain ⟨hletter, hdigit, hpoint⟩ := separates_of_symbol? isSymbol
    refine boundary_concat hdigit hpoint ?_ front
    intro hc
    rw [hletter] at hc
    cases hc

/-- No character that a token takes is stray. -/
theorem Takes.not_stray (h : Takes kind chars behind) (hfront : Boundary front (chars ++ behind))
    {position : Nat} (hstart : front.length ≤ position)
    (hstop : position < front.length + chars.length) (c : Char) :
    ¬ Stray (front ++ (chars ++ behind)) position c := by
  intro hstray
  have hat : chars[position - front.length]? = some c := by
    have hstands := hstray.stands
    rwa [List.getElem?_append_right hstart, List.getElem?_append_left (by omega)] at hstands
  have hmem : c ∈ chars := List.mem_of_getElem? hat
  have hnoDigit := hstray.noDigit
  cases h with
  | word run ends =>
    have hletter := run.all c hmem
    rw [hstray.noLetter] at hletter
    cases hletter
  | whole run ends noPoint =>
    have hdigit := run.all c hmem
    rw [hnoDigit] at hdigit
    cases hdigit
  | @decimal digits places _ run more ends =>
    have hnone (hdigit : isDigit c = true) : False := by
      rw [hnoDigit] at hdigit
      cases hdigit
    rcases Nat.lt_trichotomy (position - front.length) digits.length with hlt | heq | hgt
    · rw [List.getElem?_append_left hlt] at hat
      exact hnone (run.all c (List.mem_of_getElem? hat))
    · rw [List.append_assoc] at hfront
      have hwhole := hfront.followsWhole_append run
      have hposition : position = (front ++ digits).length := by
        rw [List.length_append]
        omega
      have hline : front ++ (digits ++ '.' :: places ++ behind) =
          front ++ digits ++ '.' :: (places ++ behind) := by
        simp
      apply hstray.noPoint
      rw [hposition, hline, isPoint_append_iff]
      obtain ⟨hne, hall⟩ := more
      cases places with
      | nil => exact absurd rfl hne
      | cons d further => exact ⟨d, further ++ behind, rfl, hall d List.mem_cons_self, hwhole⟩
    · rw [List.getElem?_append_right (by omega), List.getElem?_cons, if_neg (by omega)] at hat
      exact hnone (more.all c (List.mem_of_getElem? hat))
  | symbol isSymbol =>
    obtain rfl := List.mem_singleton.mp hmem
    have hnone := hstray.noSymbol
    rw [isSymbol] at hnone
    cases hnone

/-! ### Runs of the scanner -/

/-- A run of the scanner, from a place of a line to a place further on: white space is passed, and
each token takes its characters. -/
inductive Scans : List Char → List Char → List Token → List Char → List Char → Prop where
  | stay (front chars : List Char) : Scans front chars [] front chars
  | space {front chars front' chars' : List Char} {c : Char} {tokens : List Token}
    (isSpace : Token.isSpace c = true) (further : Scans (front ++ [c]) chars tokens front' chars') :
    Scans front (c :: chars) tokens front' chars'
  | token {front chars behind front' chars' : List Char} {kind : TokenKind} {tokens : List Token}
    (takes : Takes kind chars behind)
    (further : Scans (front ++ chars) behind tokens front' chars') :
    Scans front (chars ++ behind) (ofChars kind front.length chars :: tokens) front' chars'

/-- What the scanner makes of a character that begins a token. -/
theorem scanFrom_append (h : Takes kind chars behind) (position : Nat) :
    scanFrom position (chars ++ behind) =
      (scanFrom (position + chars.length) behind).map (ofChars kind position chars :: ·) := by
  have hspaces := h.isSpace_eq_false
  have hne := h.ne_nil
  cases chars with
  | nil => exact absurd rfl hne
  | cons c tail =>
    have hspace : isSpace c = false := hspaces c List.mem_cons_self
    have hlexeme : lexeme? c (tail ++ behind) = some (kind, tail) :=
      lexeme?_eq_some_iff.mpr ⟨behind, rfl, h⟩
    have hlength : position + (c :: tail).length = position + 1 + tail.length := by
      rw [List.length_cons]
      omega
    rw [List.cons_append, scanFrom, hspace, if_neg Bool.false_ne_true, hlexeme, hlength]
    dsimp only
    rw [List.drop_left]
    cases scanFrom (position + 1 + tail.length) behind <;> rfl

namespace Scans

variable {front' chars' : List Char} {tokens : List Token}

/-- A run stays in its line. -/
theorem line_eq (h : Scans front chars tokens front' chars') :
    front ++ chars = front' ++ chars' := by
  induction h with
  | stay front chars => rfl
  | space isSpace further ih => rw [← ih, List.append_assoc, List.singleton_append]
  | token takes further ih => rw [← ih, List.append_assoc]

/-- The scanner finds the tokens of a run, and then those behind it. -/
theorem scanFrom_eq (h : Scans front chars tokens front' chars') :
    scanFrom front.length chars = (scanFrom front'.length chars').map (tokens ++ ·) := by
  induction h with
  | stay front chars => cases scanFrom front.length chars <;> rfl
  | @space front chars front' chars' c tokens isSpace further ih =>
    rw [← ih, scanFrom, if_pos isSpace, List.length_append, List.length_singleton]
  | @token front chars behind front' chars' kind tokens takes further ih =>
    rw [scanFrom_append takes, ← List.length_append, ih]
    cases scanFrom front'.length chars' <;> rfl

/-- A run from a boundary ends at a boundary. -/
theorem boundary (h : Scans front chars tokens front' chars') (hfront : Boundary front chars) :
    Boundary front' chars' := by
  induction h with
  | stay front chars => exact hfront
  | space isSpace further ih =>
    obtain ⟨hletter, hdigit, hpoint⟩ := separates_of_isSpace isSpace
    refine ih (boundary_concat hdigit hpoint ?_ _)
    intro hc
    rw [hletter] at hc
    cases hc
  | token takes further ih => exact ih (takes.boundary hfront)

/-- A run from a boundary leaves no stray character behind. -/
theorem not_stray (h : Scans front chars tokens front' chars') (hfront : Boundary front chars)
    {position : Nat} (hstart : front.length ≤ position) (hstop : position < front'.length)
    (c : Char) : ¬ Stray (front ++ chars) position c := by
  induction h with
  | stay front chars => omega
  | @space front chars front' chars' b tokens isSpace further ih =>
    by_cases hhere : position = front.length
    · intro hstray
      have hstands := hstray.stands
      rw [hhere, List.getElem?_append_right (Nat.le_refl _), Nat.sub_self] at hstands
      obtain rfl : b = c := Option.some.inj hstands
      have hnoSpace := hstray.noSpace
      rw [isSpace] at hnoSpace
      cases hnoSpace
    · have hnext : Boundary (front ++ [b]) chars :=
        boundary (.space isSpace (.stay _ _)) hfront
      have hlength : (front ++ [b]).length = front.length + 1 := by simp
      rw [List.append_cons]
      exact ih hnext (by omega) hstop
  | @token front chars behind front' chars' kind tokens takes further ih =>
    by_cases hhere : position < front.length + chars.length
    · exact takes.not_stray hfront hstart hhere c
    · rw [← List.append_assoc]
      refine ih (takes.boundary hfront) ?_ hstop
      rw [List.length_append]
      omega

/-- A run does not depend on what stands behind its end. -/
theorem exists_passed (h : Scans front chars tokens front' chars') :
    ∃ passed, chars = passed ++ chars' ∧ Scans front passed tokens front' [] := by
  induction h with
  | stay front chars => exact ⟨[], rfl, .stay front []⟩
  | @space front chars front' chars' c tokens isSpace further ih =>
    obtain ⟨passed, rfl, hpassed⟩ := ih
    exact ⟨c :: passed, rfl, .space isSpace hpassed⟩
  | @token front chars behind front' chars' kind tokens takes further ih =>
    obtain ⟨passed, rfl, hpassed⟩ := ih
    refine ⟨chars ++ passed, (List.append_assoc _ _ _).symm, .token (takes.of_behind ?_ ?_) hpassed⟩
    · intro c hc
      refine Or.inl ?_
      rw [Option.mem_def] at hc ⊢
      rw [List.head?_append, hc]
      rfl
    · rintro d more rfl
      exact ⟨more ++ chars', rfl⟩

end Scans

/-- The scanner runs to the end of a line or to a character that begins no token. -/
theorem exists_scans (front chars : List Char) :
    ∃ tokens front' chars', Scans front chars tokens front' chars' ∧
      ∀ c rest, chars' = c :: rest → isSpace c = false ∧ lexeme? c rest = none := by
  induction hlength : chars.length using Nat.strongRecOn generalizing front chars with
  | ind length ih =>
    subst hlength
    cases chars with
    | nil => exact ⟨[], front, [], .stay front [], by simp⟩
    | cons c rest =>
      by_cases hspace : isSpace c = true
      · obtain ⟨tokens, front', chars', hscans, hend⟩ :=
          ih rest.length (Nat.lt_succ_self _) (front ++ [c]) rest rfl
        exact ⟨tokens, front', chars', .space hspace hscans, hend⟩
      · cases hlexeme : lexeme? c rest with
        | none =>
          refine ⟨[], front, c :: rest, .stay front (c :: rest), ?_⟩
          rintro _ _ ⟨⟩
          exact ⟨Bool.not_eq_true _ ▸ hspace, hlexeme⟩
        | some found =>
          obtain ⟨kind, tail⟩ := found
          obtain ⟨behind, rfl, htakes⟩ := lexeme?_eq_some_iff.mp hlexeme
          have hshorter : behind.length < (c :: (tail ++ behind)).length := by
            rw [List.length_cons, List.length_append]
            omega
          obtain ⟨tokens, front', chars', hscans, hend⟩ :=
            ih behind.length hshorter (front ++ c :: tail) behind rfl
          exact ⟨_, front', chars', .token htakes hscans, hend⟩

/-- A character that begins no token, at a boundary, is stray. -/
theorem stray_of_lexeme?_eq_none (hfront : Boundary front (c :: rest)) (hspace : isSpace c = false)
    (hlexeme : lexeme? c rest = none) : Stray (front ++ c :: rest) front.length c := by
  have hnoLetter : isLetter c = false := by
    rw [← Bool.not_eq_true]
    intro hletter
    rw [lexeme?, if_pos hletter] at hlexeme
    cases hlexeme
  have hnoDigit : isDigit c = false := by
    rw [← Bool.not_eq_true]
    intro hdigit
    rw [lexeme?, hnoLetter, if_neg Bool.false_ne_true, if_pos hdigit] at hlexeme
    cases hlexeme
  have hnoSymbol : symbol? c = none := by
    rw [lexeme?, hnoLetter, hnoDigit, if_neg Bool.false_ne_true, if_neg Bool.false_ne_true,
      Option.map_eq_none_iff] at hlexeme
    exact hlexeme
  exact ⟨by simp, hspace, hnoLetter, hnoDigit, hnoSymbol, hfront.noPoint⟩

/-- The two outcomes of a scan: the tokens of a run to the end of the line, or the character behind
a run that no other step can follow. -/
theorem scan_cases (line : List Char) :
    (∃ tokens, scan line = .ok tokens ∧ Scans [] line tokens line []) ∨
      ∃ tokens passed c rest, scan line = .error ⟨passed.length, c⟩ ∧
        Scans [] line tokens passed (c :: rest) ∧ isSpace c = false ∧ lexeme? c rest = none := by
  obtain ⟨tokens, passed, chars, hscans, hend⟩ := exists_scans [] line
  have hscan : scan line = (scanFrom passed.length chars).map (tokens ++ ·) := hscans.scanFrom_eq
  have hline := hscans.line_eq
  cases chars with
  | nil =>
    refine Or.inl ⟨tokens, ?_, ?_⟩
    · rw [hscan, scanFrom, Except.map, List.append_nil]
    · rwa [← List.append_nil passed, ← hline] at hscans
  | cons c rest =>
    obtain ⟨hspace, hlexeme⟩ := hend c rest rfl
    refine Or.inr ⟨tokens, passed, c, rest, ?_, hscans, hspace, hlexeme⟩
    rw [hscan, scanFrom, hspace, if_neg Bool.false_ne_true, hlexeme]
    rfl

/-! ### The tokens that a line has -/

/-- The tokens that a line has from an offset on. They cover parts of the line, in order and without
overlap; outside of them there is only white space, and inside there is none. Each token has the
form of its kind and can take no more characters, and a word begins behind no letter. -/
structure Munches (whole : List Char) (position : Nat) (tokens : List Token) : Prop where
  quotes : ∀ t ∈ tokens, t.span.Quotes whole t.text
  ordered : tokens.Pairwise fun a b ↦ a.span.stop ≤ b.span.start
  start_le : ∀ t ∈ tokens, (position : Int) ≤ t.span.start
  /-- What no token covers is white space. -/
  outside : ∀ (i : Nat) (c : Char), position ≤ i → whole[i]? = some c →
    (∀ t ∈ tokens, ¬ (t.span.start ≤ i ∧ (i : Int) < t.span.stop)) → isSpace c = true
  inside : ∀ t ∈ tokens, ∀ c ∈ t.text.toList, isSpace c = false
  /-- Each token has the form of its kind and cannot take more of what is behind it. -/
  takes : ∀ t ∈ tokens, Takes t.kind t.text.toList (whole.drop t.span.stop.toNat)
  /-- No letter stands in front of a word. -/
  wholeWords : ∀ t ∈ tokens, t.kind = .word →
    EndsRun isLetter (whole.take t.span.start.toNat).reverse

/-- A token and those behind it. -/
theorem munches_cons {tokens : List Token} (h : Takes kind chars behind)
    (hfront : Boundary front (chars ++ behind))
    (hfurther : Munches (front ++ chars ++ behind) (front ++ chars).length tokens) :
    Munches (front ++ chars ++ behind) front.length
      (ofChars kind front.length chars :: tokens) := by
  have hlength : (front ++ chars).length = front.length + chars.length := List.length_append
  have htext : (ofChars kind front.length chars).text.toList = chars := String.toList_ofList
  have hstart : (ofChars kind front.length chars).span.start = front.length := rfl
  have hstop : (ofChars kind front.length chars).span.stop = front.length + chars.length := rfl
  refine ⟨?_, ?_, ?_, ?_, ?_, ?_, ?_⟩
  · refine List.forall_mem_cons.mpr ⟨?_, hfurther.quotes⟩
    exact Span.quotes_append h.ne_nil
  · refine List.pairwise_cons.mpr ⟨?_, hfurther.ordered⟩
    intro t ht
    have hle := hfurther.start_le t ht
    rw [hlength] at hle
    rw [hstop]
    exact hle
  · refine List.forall_mem_cons.mpr ⟨Int.le_refl _, ?_⟩
    intro t ht
    have hle := hfurther.start_le t ht
    omega
  · intro i c hi hc houtside
    obtain ⟨hthis, hothers⟩ := List.forall_mem_cons.mp houtside
    refine hfurther.outside i c ?_ hc hothers
    rw [hstart, hstop] at hthis
    omega
  · refine List.forall_mem_cons.mpr ⟨?_, hfurther.inside⟩
    rw [htext]
    exact h.isSpace_eq_false
  · refine List.forall_mem_cons.mpr ⟨?_, hfurther.takes⟩
    have hdrop : (front ++ chars ++ behind).drop
        (ofChars kind front.length chars).span.stop.toNat = behind := by
      rw [hstop, ← Int.natCast_add, Int.toNat_natCast, ← hlength, List.drop_left]
    rw [htext, hdrop]
    exact h
  · refine List.forall_mem_cons.mpr ⟨?_, hfurther.wholeWords⟩
    intro hword
    rw [hstart, Int.toNat_natCast, List.append_assoc, List.take_left]
    have hkind : kind = .word := hword
    subst hkind
    cases h with
    | word run ends =>
      obtain ⟨hne, hall⟩ := run
      cases chars with
      | nil => exact absurd rfl hne
      | cons c tail => exact hfront.freshWord c rfl (hall c List.mem_cons_self)
    | @symbol c _ isSymbol =>
      unfold symbol? at isSymbol
      split at isSymbol <;> cases isSymbol

/-- The tokens of a run from a boundary to the end of a line are those the line has. -/
theorem Scans.munches {tokens : List Token} {front' : List Char}
    (h : Scans front chars tokens front' []) (hfront : Boundary front chars) :
    Munches (front ++ chars) front.length tokens := by
  generalize hend : ([] : List Char) = chars' at h
  induction h with
  | stay front chars =>
    subst hend
    refine ⟨by simp, .nil, by simp, ?_, by simp, by simp, by simp⟩
    intro i c hi hc
    rw [List.append_nil, List.getElem?_eq_none hi] at hc
    cases hc
  | @space front chars front' chars' b tokens isSpace further ih =>
    have hnext : Boundary (front ++ [b]) chars := boundary (.space isSpace (.stay _ _)) hfront
    have hlength : (front ++ [b]).length = front.length + 1 := by simp
    have hfurther := ih hnext hend
    rw [List.append_assoc, List.singleton_append] at hfurther
    refine { hfurther with start_le := ?_, outside := ?_ }
    · intro t ht
      have hle := hfurther.start_le t ht
      omega
    · intro i c hi hc houtside
      by_cases hhere : i = front.length
      · subst hhere
        rw [List.getElem?_append_right (Nat.le_refl _), Nat.sub_self] at hc
        obtain rfl : b = c := Option.some.inj hc
        exact isSpace
      · exact hfurther.outside i c (by omega) hc houtside
  | token takes further ih =>
    rw [← List.append_assoc]
    exact munches_cons takes hfront (ih (takes.boundary hfront) hend)

/-- What a span quotes from the place where it starts, and what stands behind it. -/
theorem quotes_split {s : Span} {text : String} (h : s.Quotes (front ++ chars) text)
    (hstart : s.start = front.length) :
    chars = text.toList ++ (front ++ chars).drop s.stop.toNat ∧
      s = ⟨front.length, front.length + text.toList.length⟩ := by
  obtain ⟨⟨-, hlt, hle⟩, htext⟩ := h
  obtain ⟨start, stop⟩ := s
  dsimp only at hstart hlt hle
  subst hstart
  obtain ⟨count, hcount⟩ : ∃ count : Nat, stop = ((front.length + count : Nat) : Int) :=
    ⟨(stop - front.length).toNat, by omega⟩
  subst hcount
  have hbound : count ≤ chars.length := by
    rw [List.length_append] at hle
    omega
  have htake : chars.take count = text.toList := by
    rw [← htext]
    simp only [Span.textIn, Int.toNat_natCast, List.take_length_add_append, List.drop_left]
  have hlength : text.toList.length = count := by
    rw [← htake, List.length_take]
    omega
  constructor
  · rw [Int.toNat_natCast, List.drop_length_add_append, ← htake, List.take_append_drop]
  · rw [hlength]
    simp

namespace Munches

variable {tokens : List Token}

/-- White space at the offset belongs to no token. -/
theorem of_isSpace (h : Munches (front ++ c :: rest) front.length tokens)
    (hspace : isSpace c = true) : Munches (front ++ [c] ++ rest) (front ++ [c]).length tokens := by
  have hlength : (front ++ [c]).length = front.length + 1 := by simp
  rw [List.append_assoc, List.singleton_append]
  refine { h with start_le := ?_, outside := fun i c' hi ↦ h.outside i c' (by omega) }
  intro t ht
  have hle := h.start_le t ht
  by_cases hhere : t.span.start = front.length
  · exfalso
    obtain ⟨hchars, hspan⟩ := quotes_split (h.quotes t ht) hhere
    have hne := (h.takes t ht).ne_nil
    have hinside := h.inside t ht
    cases htext : t.text.toList with
    | nil => exact hne htext
    | cons c' tail =>
      rw [htext] at hchars hinside
      obtain rfl : c = c' := (List.cons.inj hchars).1
      rw [hinside c List.mem_cons_self] at hspace
      cases hspace
  · omega

/-- A character at the offset that is no white space begins the first token. -/
theorem exists_token (h : Munches (front ++ c :: rest) front.length tokens)
    (hspace : isSpace c = false) :
    ∃ kind chars behind further, c :: rest = chars ++ behind ∧ Takes kind chars behind ∧
      tokens = ofChars kind front.length chars :: further ∧
      Munches (front ++ chars ++ behind) (front ++ chars).length further := by
  have hhere : (front ++ c :: rest)[front.length]? = some c := by simp
  -- a token covers the character, and as none begins earlier it begins there
  have hcovered : ∃ t ∈ tokens, t.span.start = front.length := by
    apply Classical.byContradiction
    intro hnone
    have houtside := h.outside front.length c (Nat.le_refl _) hhere ?_
    · rw [hspace] at houtside
      cases houtside
    · intro t ht hcovers
      have hle := h.start_le t ht
      exact hnone ⟨t, ht, by omega⟩
  obtain ⟨t, ht, hstart⟩ := hcovered
  cases tokens with
  | nil => cases ht
  | cons first further =>
    obtain ⟨hbehind, hordered⟩ := List.pairwise_cons.mp h.ordered
    -- tokens further on begin behind the first one
    have hfirst : t = first := by
      rcases List.mem_cons.mp ht with rfl | hmem
      · rfl
      · have hlt := (h.quotes first List.mem_cons_self).start_lt_stop
        have hle := h.start_le first List.mem_cons_self
        have hstop := hbehind t hmem
        omega
    subst hfirst
    obtain ⟨hchars, hspan⟩ := quotes_split (h.quotes t ht) hstart
    have htakes := h.takes t ht
    have hstop : t.span.stop = ((front ++ t.text.toList).length : Int) := by
      rw [hspan, List.length_append]
      rfl
    refine ⟨t.kind, t.text.toList, _, further, hchars, htakes, ?_, ?_⟩
    · rw [ofChars, ← hspan, String.ofList_toList]
    · rw [List.append_assoc, ← hchars]
      refine ⟨?_, hordered, ?_, ?_, ?_, ?_, ?_⟩
      · exact fun other hother ↦ h.quotes other (List.mem_cons_of_mem _ hother)
      · intro other hother
        rw [← hstop]
        exact hbehind other hother
      · intro i b hi hb houtside
        refine h.outside i b ?_ hb (List.forall_mem_cons.mpr ⟨?_, houtside⟩)
        · rw [List.length_append] at hi
          omega
        · omega
      · exact fun other hother ↦ h.inside other (List.mem_cons_of_mem _ hother)
      · exact fun other hother ↦ h.takes other (List.mem_cons_of_mem _ hother)
      · exact fun other hother ↦ h.wholeWords other (List.mem_cons_of_mem _ hother)

/-- The tokens that a line has are those of a run to its end. -/
theorem scans (h : Munches (front ++ chars) front.length tokens) :
    Scans front chars tokens (front ++ chars) [] := by
  induction hlength : chars.length using Nat.strongRecOn generalizing front chars tokens with
  | ind length ih =>
    subst hlength
    cases chars with
    | nil =>
      cases tokens with
      | nil =>
        rw [List.append_nil]
        exact .stay front []
      | cons t further =>
        have hle := h.start_le t List.mem_cons_self
        have hquotes := h.quotes t List.mem_cons_self
        have hlt := hquotes.start_lt_stop
        have hstop := hquotes.stop_le
        rw [List.append_nil] at hstop
        omega
    | cons c rest =>
      by_cases hspace : isSpace c = true
      · have hfurther := ih rest.length (Nat.lt_succ_self _) (h.of_isSpace hspace) rfl
        rw [List.append_assoc, List.singleton_append] at hfurther
        exact .space hspace hfurther
      · rw [Bool.not_eq_true] at hspace
        obtain ⟨kind, taken, behind, further, hchars, htakes, rfl, hmunches⟩ :=
          h.exists_token hspace
        have hshorter : behind.length < (c :: rest).length := by
          have hpos := List.length_pos_iff.mpr htakes.ne_nil
          rw [hchars, List.length_append]
          omega
        have hfurther := ih behind.length hshorter hmunches rfl
        rw [List.append_assoc, ← hchars] at hfurther
        rw [hchars] at hfurther ⊢
        exact .token htakes hfurther

end Munches

/-- The scanner finds exactly the tokens that a line has. -/
theorem scan_eq_ok_iff {line : List Char} {tokens : List Token} :
    scan line = .ok tokens ↔ Munches line 0 tokens := by
  constructor
  · intro h
    rcases scan_cases line with ⟨found, hscan, hscans⟩ | ⟨_, _, _, _, hscan, _⟩
    · obtain rfl := Except.ok.inj (h.symm.trans hscan)
      exact hscans.munches (boundary_nil line)
    · rw [h] at hscan
      cases hscan
  · intro h
    have hstart : Munches ([] ++ line) ([] : List Char).length tokens := h
    have hscans : Scans [] line tokens line [] := hstart.scans
    have hscan := hscans.scanFrom_eq
    rw [List.length_nil, scanFrom, Except.map, List.append_nil] at hscan
    exact hscan

/-- A line that is scanned to its end has no stray character. -/
theorem not_stray_of_scans {line : List Char} {tokens : List Token}
    (h : Scans [] line tokens line []) (position : Nat) (c : Char) : ¬ Stray line position c := by
  intro hstray
  obtain ⟨hlt, -⟩ := List.getElem?_eq_some_iff.mp hstray.stands
  exact h.not_stray (boundary_nil line) (Nat.zero_le position) hlt c hstray

/-- A run that no other step can follow ends at the first stray character of the line. -/
theorem stray_of_scans {line passed : List Char} {tokens : List Token}
    (h : Scans [] line tokens passed (c :: rest)) (hspace : isSpace c = false)
    (hlexeme : lexeme? c rest = none) :
    Stray line passed.length c ∧ ∀ p < passed.length, ∀ b, ¬ Stray line p b := by
  constructor
  · have hstray := stray_of_lexeme?_eq_none (h.boundary (boundary_nil line)) hspace hlexeme
    rwa [← h.line_eq] at hstray
  · intro p hp b
    exact h.not_stray (boundary_nil line) (Nat.zero_le p) hp b

/-- The scanner fails at the first stray character of a line. -/
theorem scan_eq_error_iff {line : List Char} {e : LexError} :
    scan line = .error e ↔
      Stray line e.position e.char ∧ ∀ p < e.position, ∀ c, ¬ Stray line p c := by
  rcases scan_cases line with
    ⟨tokens, hscan, hscans⟩ | ⟨tokens, passed, c, rest, hscan, hscans, hspace, hlexeme⟩
  · rw [hscan]
    constructor
    · intro h
      cases h
    · rintro ⟨hstray, -⟩
      exact absurd hstray (not_stray_of_scans hscans _ _)
  · obtain ⟨hstray, hfirst⟩ := stray_of_scans hscans hspace hlexeme
    rw [hscan]
    constructor
    · rintro ⟨⟩
      exact ⟨hstray, hfirst⟩
    · rintro ⟨hstray', hfirst'⟩
      have hposition : e.position = passed.length := by
        rcases Nat.lt_trichotomy e.position passed.length with hlt | heq | hgt
        · exact absurd hstray' (hfirst _ hlt _)
        · exact heq
        · exact absurd hstray (hfirst' _ hgt _)
      have hchar : some e.char = some c := by
        rw [← hstray'.stands, ← hstray.stands, hposition]
      rw [← hposition, ← Option.some.inj hchar]

/-- The characters in front of the first stray one have tokens of their own. -/
theorem exists_scan_take {line : List Char} {e : LexError} (h : scan line = .error e) :
    ∃ tokens, scan (line.take e.position) = .ok tokens := by
  rcases scan_cases line with
    ⟨tokens, hscan, -⟩ | ⟨tokens, passed, c, rest, hscan, hscans, -, -⟩
  · rw [hscan] at h
    cases h
  · rw [hscan] at h
    cases h
    obtain ⟨front, hline, hpassed⟩ := hscans.exists_passed
    have hfront : front = passed := by
      have heq := hpassed.line_eq
      rwa [List.nil_append, List.append_nil] at heq
    have hscanFront := hpassed.scanFrom_eq
    rw [List.length_nil, scanFrom, Except.map, List.append_nil] at hscanFront
    refine ⟨tokens, ?_⟩
    rw [hline, hfront, List.take_left, ← hfront]
    exact hscanFront

/-- The scanner is the one that takes the longest token at every place. It finds tokens exactly if
they are those that the line has, which are thus unique. It fails exactly if the line has a stray
character, at the first of them, which alone it marks; and what stands in front of this character
can be scanned. -/
theorem scan_maximalMunch (line : List Char) :
    (∀ tokens, scan line = .ok tokens ↔ Munches line 0 tokens) ∧
      ((∃ e, scan line = .error e) ↔ ∃ position c, Stray line position c) ∧
      ∀ e, scan line = .error e →
        e.span = ⟨e.position, e.position + 1⟩ ∧ Stray line e.position e.char ∧
          (∀ position < e.position, ∀ c, ¬ Stray line position c) ∧
          ∃ tokens, scan (line.take e.position) = .ok tokens := by
  refine ⟨fun tokens ↦ scan_eq_ok_iff, ⟨?_, ?_⟩, ?_⟩
  · rintro ⟨e, he⟩
    exact ⟨e.position, e.char, (scan_eq_error_iff.mp he).1⟩
  · rintro ⟨position, c, hstray⟩
    rcases scan_cases line with ⟨tokens, -, hscans⟩ | ⟨_, passed, b, _, hscan, -⟩
    · exact absurd hstray (not_stray_of_scans hscans _ _)
    · exact ⟨_, hscan⟩
  · intro e he
    obtain ⟨hstray, hfirst⟩ := scan_eq_error_iff.mp he
    exact ⟨rfl, hstray, hfirst, exists_scan_take he⟩

/-- In the line `1.2.3` the second point is stray: the digits in front of it are the places of a
number. The line `x1.5` has a word and a number, although nothing stands between them. -/
theorem scan_maximalMunch_secondPoint :
    scan "1.2.3".toList = .error ⟨3, '.'⟩ ∧ Stray "1.2.3".toList 3 '.' ∧
      (∀ position < 3, ∀ c, ¬ Stray "1.2.3".toList position c) ∧
      (∃ tokens, scan "1.2".toList = .ok tokens) ∧
      Munches "x1.5".toList 0 [ofChars .word 0 ['x'], ofChars .number 1 ['1', '.', '5']] := by
  have herror : scan "1.2.3".toList = .error ⟨3, '.'⟩ := by cbv
  have hscan : scan "x1.5".toList =
      .ok [ofChars .word 0 ['x'], ofChars .number 1 ['1', '.', '5']] := by
    cbv
  obtain ⟨-, hstray, hfirst, htake⟩ := (scan_maximalMunch "1.2.3".toList).2.2 _ herror
  exact ⟨herror, hstray, hfirst, htake, ((scan_maximalMunch "x1.5".toList).1 _).mp hscan⟩

end Token

end Reckoner
