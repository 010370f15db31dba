import Reckoner.Evaluation.Fault
import Reckoner.Proofs.Parsing
import Reckoner.Proofs.Scanning

/-!
# Where the parts of a statement stand

Every part of a statement that is read from a line covers characters of the line. A part covers its
own parts, from left to right and without overlap; names and literals quote the line, and the zero
that a minus sign subtracts from stands at the sign (`Statement.StandsIn`). The names and literals
that are written in the line, from left to right, are its words and numbers
(`Statement.writtenLeaves`).

The spans of a statement are put together from the spans of tokens, so an expression that is read
from some of the tokens starts where one of them starts and stops where one of them stops
(`Span.Joins`). This is what keeps the two sides of an operator apart.

Main statement: `Statement.standsIn_of_ofLine`.
-/

set_option autoImplicit false

namespace Reckoner

/-! ### Spans and tokens -/

namespace Span

/-- The parts of a span: they lie within it, from left to right and without overlap. -/
structure Covers (whole : Span) (parts : List Span) : Prop where
  within : ∀ part ∈ parts, whole.start ≤ part.start ∧ part.stop ≤ whole.stop
  ordered : parts.Pairwise fun a b ↦ a.stop ≤ b.start

/-- A span starts where one of the tokens starts and stops where one of them stops. -/
structure Joins (tokens : List Token) (s : Span) : Prop where
  start_eq : ∃ a ∈ tokens, s.start = a.span.start
  stop_eq : ∃ b ∈ tokens, s.stop = b.span.stop

/-- The span of a token. -/
theorem joins_of_mem {tokens : List Token} {t : Token} (h : t ∈ tokens) : t.span.Joins tokens :=
  ⟨⟨t, h, rfl⟩, ⟨t, h, rfl⟩⟩

/-- More tokens do no harm. -/
theorem Joins.mono {tokens tokens' : List Token} {s : Span} (h : s.Joins tokens)
    (hsub : tokens ⊆ tokens') : s.Joins tokens' := by
  obtain ⟨⟨a, ha, hstart⟩, ⟨b, hb, hstop⟩⟩ := h
  exact ⟨⟨a, hsub ha, hstart⟩, ⟨b, hsub hb, hstop⟩⟩

/-- From the start of one such span to the stop of another. -/
theorem Joins.union {tokens : List Token} {s s' : Span} (h : s.Joins tokens)
    (h' : s'.Joins tokens) : (s.union s').Joins tokens :=
  ⟨h.start_eq, h'.stop_eq⟩

/-- Two parts of a line, the first before the second, are the parts of what runs from the one to
the other. -/
theorem covers_union {line : List Char} {s s' : Span} (h : s.LiesIn line) (h' : s'.LiesIn line)
    (hordered : s.stop ≤ s'.start) :
    (s.union s').LiesIn line ∧ (s.union s').Covers [s, s'] := by
  have hs := h.start_lt_stop
  have hs' := h'.start_lt_stop
  refine ⟨⟨h.start_nonneg, ?_, h'.stop_le⟩, ⟨?_, ?_⟩⟩
  · simp only [Span.union]
    omega
  · intro part hpart
    simp only [List.mem_cons, List.not_mem_nil, or_false] at hpart
    rcases hpart with rfl | rfl
    · simp only [Span.union]
      omega
    · simp only [Span.union]
      omega
  · exact List.pairwise_pair.mpr hordered

end Span

namespace Token

/-- Whether a token is a word or a number. -/
def isOperand (t : Token) : Bool :=
  decide (t.kind = .word ∨ t.kind = .number)

variable {line : List Char} {front back tokens tokens' : List Token}

/-- Some of the tokens of a line. -/
theorem PlacedIn.sublist (h : PlacedIn line tokens) (hsub : tokens'.Sublist tokens) :
    PlacedIn line tokens' :=
  ⟨fun t ht ↦ h.stands t (hsub.subset ht), h.ordered.sublist hsub⟩

/-- What is put together from the front of the tokens ends before what is put together from the
back of them begins. -/
theorem PlacedIn.stop_le_start (h : PlacedIn line (front ++ back)) {s s' : Span}
    (hs : s.Joins front) (hs' : s'.Joins back) : s.stop ≤ s'.start := by
  obtain ⟨a, ha, hstop⟩ := hs.stop_eq
  obtain ⟨b, hb, hstart⟩ := hs'.start_eq
  have hordered := (List.pairwise_append.mp h.ordered).2.2 a ha b hb
  omega

/-- An operator is no operand. -/
theorem isOperand_of_operator? {t : Token} {op : Operator} (h : t.kind.operator? = some op) :
    t.isOperand = false := by
  unfold TokenKind.operator? at h
  split at h
  all_goals simp_all [isOperand]

/-- A token of another kind than the two of operands. -/
theorem isOperand_eq_false {t : Token} {kind : TokenKind} (h : t.kind = kind)
    (hword : kind ≠ .word) (hnumber : kind ≠ .number) : t.isOperand = false := by
  simp [isOperand, h, hword, hnumber]

/-- A word or a number does not stand at a minus sign. -/
theorem StandsIn.textIn_ne_minus {t : Token} (h : t.StandsIn line) (hoperand : t.isOperand = true) :
    t.span.textIn line ≠ ['-'] := by
  intro hminus
  have htext : t.text = String.ofList ['-'] := by
    rw [← String.ofList_toList (s := t.text), ← h.quotes.textIn_eq, hminus]
  have hlexeme := h.lexeme
  rw [htext] at hlexeme
  have hkind : t.kind = .minus := hlexeme.kind_eq rfl
  simp [isOperand, hkind] at hoperand

end Token

/-! ### The parts of a statement -/

namespace Expr

/-- The zero that a minus sign of the line subtracts from. -/
def IsSignZero (line : List Char) (e : Expr) : Prop :=
  ∃ sign : Span, e = signZero sign ∧ sign.Quotes line "-"

mutual

/-- Every part of an expression stands in a line: it covers at least one character, and its own
parts from left to right. Names and literals quote the line. Only the left operand of a difference
can be no such part, but the zero of a sign. A call ends with a closing parenthesis. -/
def StandsIn (line : List Char) : Expr → Prop
  | literal text _ span => span.Quotes line text
  | var name span => span.Quotes line name
  | call callee calleeSpan args span =>
    calleeSpan.Quotes line callee ∧ span.LiesIn line ∧
      span.Covers (calleeSpan :: args.map Expr.span) ∧ StandInAll line args ∧
      ∃ closing : Span, closing.Quotes line ")" ∧ calleeSpan.stop ≤ closing.start ∧
        span = calleeSpan.union closing
  | binary op left right =>
    (left.StandsIn line ∨ op = .sub ∧ left.IsSignZero line) ∧ right.StandsIn line ∧
      (left.span.union right.span).LiesIn line ∧
      (left.span.union right.span).Covers [left.span, right.span]

/-- Every part of arguments stands in a line. -/
def StandInAll (line : List Char) : List Expr → Prop
  | [] => True
  | arg :: rest => arg.StandsIn line ∧ StandInAll line rest

end

mutual

/-- The names and literals of an expression from left to right, as tokens. -/
def leaves : Expr → List Token
  | literal text _ span => [⟨.number, text, span⟩]
  | var name span => [⟨.word, name, span⟩]
  | call callee calleeSpan args _ => ⟨.word, callee, calleeSpan⟩ :: leavesAll args
  | binary _ left right => left.leaves ++ right.leaves

/-- The names and literals of arguments. -/
def leavesAll : List Expr → List Token
  | [] => []
  | arg :: rest => arg.leaves ++ leavesAll rest

end

end Expr

namespace Statement

/-- Every part of a statement stands in a line. -/
def StandsIn (line : List Char) : Statement → Prop
  | expression value => value.StandsIn line
  | assignment target targetSpan value =>
    targetSpan.Quotes line target ∧ value.StandsIn line ∧
      (targetSpan.union value.span).LiesIn line ∧
      (targetSpan.union value.span).Covers [targetSpan, value.span]

/-- The names and literals of a statement from left to right, as tokens. -/
def leaves : Statement → List Token
  | expression value => value.leaves
  | assignment target targetSpan value => ⟨.word, target, targetSpan⟩ :: value.leaves

/-- The names and literals of a statement that are written in a line: all but the zeros that stand
at a minus sign. -/
def writtenLeaves (line : List Char) (s : Statement) : List Token :=
  s.leaves.filter fun leaf ↦ leaf.span.textIn line ≠ ['-']

end Statement

namespace Expr

/-- An expression that stands in a line covers a part of it. -/
theorem StandsIn.liesIn {line : List Char} {e : Expr} (h : e.StandsIn line) :
    e.span.LiesIn line := by
  cases e with
  | literal text value span =>
    rw [StandsIn] at h
    exact h.toLiesIn
  | var name span =>
    rw [StandsIn] at h
    exact h.toLiesIn
  | call callee calleeSpan args span =>
    rw [StandsIn] at h
    exact h.2.1
  | binary op left right =>
    rw [StandsIn] at h
    exact h.2.2.1

/-! ### What is read stands in the line -/

/-- The names and literals of an expression that are written in a line. -/
def writtenLeaves (line : List Char) (e : Expr) : List Token :=
  e.leaves.filter fun leaf ↦ leaf.span.textIn line ≠ ['-']

/-- The names and literals of arguments that are written in a line. -/
def writtenLeavesAll (line : List Char) (args : List Expr) : List Token :=
  (leavesAll args).filter fun leaf ↦ leaf.span.textIn line ≠ ['-']

/-- What is read from tokens of a line stands in the line, is put together from their spans, and has
their words and numbers for its leaves. Several arguments stand from left to right. -/
def Standing (line : List Char) (tokens : List Token) : (c : Category) → c.Reading → Prop
  | .expression _, e =>
    StandsIn line e ∧ (span e).Joins tokens ∧ writtenLeaves line e = tokens.filter Token.isOperand
  | .arguments, args =>
    StandInAll line args ∧ (∀ arg ∈ args, (span arg).Joins tokens) ∧
      (args.map span).Pairwise (fun a b ↦ a.stop ≤ b.start) ∧
      writtenLeavesAll line args = tokens.filter Token.isOperand

variable {line : List Char} {front back tokens : List Token}

/-- The leaves of two expressions are written one after the other. -/
theorem writtenLeaves_binary (op : Operator) (left right : Expr) :
    writtenLeaves line (binary op left right) =
      writtenLeaves line left ++ writtenLeaves line right := by
  rw [writtenLeaves, leaves, List.filter_append]
  rfl

/-- The zero of a sign is not written. -/
theorem writtenLeaves_signZero {sign : Span} (h : sign.Quotes line "-") :
    writtenLeaves line (signZero sign) = [] := by
  have hminus : sign.textIn line = ['-'] := h.textIn_eq
  simp [writtenLeaves, signZero, leaves, hminus]

/-- A word or a number is the only leaf of what it is read as. -/
theorem filter_leaf {t : Token} (h : t.StandsIn line) (hoperand : t.isOperand = true)
    (rest : List Token) :
    (t :: rest).filter (fun leaf ↦ leaf.span.textIn line ≠ ['-']) =
      t :: rest.filter fun leaf ↦ leaf.span.textIn line ≠ ['-'] := by
  have hwritten := h.textIn_ne_minus hoperand
  simp [hwritten]

/-- An operation whose sides are read from tokens in front of an operator and behind it. -/
theorem standing_binary {r r' : Rank} {op : Operator} {left right : Expr} {token : Token}
    (hop : token.isOperand = false) (hplaced : Token.PlacedIn line (front ++ token :: back))
    (hleft : Standing line front (.expression r) left)
    (hright : Standing line back (.expression r') right) :
    Standing line (front ++ token :: back) (.expression r) (binary op left right) := by
  obtain ⟨hleftStands, hleftJoins, hleftLeaves⟩ := hleft
  obtain ⟨hrightStands, hrightJoins, hrightLeaves⟩ := hright
  have hbehind : (span right).Joins (token :: back) :=
    hrightJoins.mono (List.subset_cons_self token back)
  have hordered := hplaced.stop_le_start hleftJoins hbehind
  obtain ⟨hlies, hcovers⟩ := Span.covers_union hleftStands.liesIn hrightStands.liesIn hordered
  refine ⟨?_, ?_, ?_⟩
  · rw [StandsIn]
    exact ⟨Or.inl hleftStands, hrightStands, hlies, hcovers⟩
  · exact (hleftJoins.mono (List.subset_append_left _ _)).union
      (hbehind.mono (List.subset_append_right _ _))
  · rw [writtenLeaves_binary, hleftLeaves, hrightLeaves, List.filter_append,
      List.filter_cons_of_neg (by simp [hop])]

/-- The zero of a sign and the operand behind the sign. -/
theorem standing_minus {r : Rank} {right : Expr} {token : Token} (hkind : token.kind = .minus)
    (hplaced : Token.PlacedIn line (token :: back))
    (hright : Standing line back (.expression r) right) :
    Standing line (token :: back) (.expression r) (binary .sub (signZero token.span) right) := by
  obtain ⟨hrightStands, hrightJoins, hrightLeaves⟩ := hright
  have hsign := hplaced.stands token List.mem_cons_self
  have hlexeme := hsign.lexeme
  rw [hkind] at hlexeme
  have hquotes : token.span.Quotes line "-" := by
    have htext : token.text = "-" := hlexeme.text_eq rfl
    rw [← htext]
    exact hsign.quotes
  have hordered : token.span.stop ≤ (span right).start :=
    hplaced.stop_le_start (Span.joins_of_mem (List.mem_singleton_self token)) hrightJoins
  obtain ⟨hlies, hcovers⟩ := Span.covers_union hquotes.toLiesIn hrightStands.liesIn hordered
  have hoperator : token.isOperand = false :=
    Token.isOperand_eq_false hkind (by decide) (by decide)
  refine ⟨?_, ?_, ?_⟩
  · rw [StandsIn]
    exact ⟨Or.inr ⟨rfl, token.span, rfl, hquotes⟩, hrightStands, hlies, hcovers⟩
  · exact (Span.joins_of_mem List.mem_cons_self).union
      (hrightJoins.mono (List.subset_cons_self token back))
  · rw [writtenLeaves_binary, writtenLeaves_signZero hquotes, hrightLeaves, List.nil_append,
      List.filter_cons_of_neg (by simp [hoperator])]

/-- A call of a word with the arguments between parentheses. -/
theorem standing_call {r : Rank} {callee opening closing : Token} {args : List Expr}
    (hword : callee.kind = .word) (hopening : opening.kind = .openParen)
    (hclosing : closing.kind = .closeParen)
    (hplaced : Token.PlacedIn line (callee :: opening :: (tokens ++ [closing])))
    (hargs : Standing line tokens .arguments args) :
    Standing line (callee :: opening :: (tokens ++ [closing])) (.expression r)
      (call callee.text callee.span args (callee.span.union closing.span)) := by
  obtain ⟨hstand, hjoins, hordered, hleaves⟩ := hargs
  have hcallee := hplaced.stands callee List.mem_cons_self
  have hparen := hplaced.stands closing (by simp)
  have hlexeme := hparen.lexeme
  rw [hclosing] at hlexeme
  have hquotes : closing.span.Quotes line ")" := by
    have htext : closing.text = ")" := hlexeme.text_eq rfl
    rw [← htext]
    exact hparen.quotes
  -- the callee ends before the arguments, and these end before the closing parenthesis
  have hfront (s : Span) (hs : s.Joins (opening :: (tokens ++ [closing]))) :
      callee.span.stop ≤ s.start :=
    hplaced.stop_le_start (Span.joins_of_mem (List.mem_singleton_self callee)) hs
  have hback (s : Span) (hs : s.Joins tokens) : s.stop ≤ closing.span.start := by
    have hbehind : Token.PlacedIn line ((callee :: opening :: tokens) ++ [closing]) := hplaced
    refine hbehind.stop_le_start (hs.mono ?_) (Span.joins_of_mem (List.mem_singleton_self closing))
    exact fun t ht ↦ List.mem_cons_of_mem _ (List.mem_cons_of_mem _ ht)
  have hends : callee.span.stop ≤ closing.span.start :=
    hfront closing.span (Span.joins_of_mem (by simp))
  have hinner (arg : Expr) (harg : arg ∈ args) :
      callee.span.stop ≤ (span arg).start ∧ (span arg).stop ≤ closing.span.start := by
    refine ⟨hfront _ ((hjoins arg harg).mono ?_), hback _ (hjoins arg harg)⟩
    exact fun t ht ↦ List.mem_cons_of_mem _ (List.mem_append_left _ ht)
  have hcalleeLies := hcallee.quotes.start_lt_stop
  have hparenLies := hquotes.start_lt_stop
  obtain ⟨hlies, hcovers⟩ := Span.covers_union hcallee.quotes.toLiesIn hquotes.toLiesIn hends
  have hcoversAll : (callee.span.union closing.span).Covers (callee.span :: args.map span) := by
    refine ⟨?_, List.pairwise_cons.mpr ⟨?_, hordered⟩⟩
    · intro part hpart
      rcases List.mem_cons.mp hpart with rfl | hpart
      · exact hcovers.within _ List.mem_cons_self
      · obtain ⟨arg, harg, rfl⟩ := List.mem_map.mp hpart
        obtain ⟨hstart, hstop⟩ := hinner arg harg
        simp only [Span.union]
        omega
    · intro part hpart
      obtain ⟨arg, harg, rfl⟩ := List.mem_map.mp hpart
      exact (hinner arg harg).1
  have hcalleeOperand : callee.isOperand = true := by simp [Token.isOperand, hword]
  have hopeningOperand : opening.isOperand = false :=
    Token.isOperand_eq_false hopening (by decide) (by decide)
  have hclosingOperand : closing.isOperand = false :=
    Token.isOperand_eq_false hclosing (by decide) (by decide)
  refine ⟨?_, ?_, ?_⟩
  · rw [StandsIn]
    exact ⟨hcallee.quotes, hlies, hcoversAll, hstand, closing.span, hquotes, hends, rfl⟩
  · exact (Span.joins_of_mem List.mem_cons_self).union (Span.joins_of_mem (by simp))
  · have hleaf : (⟨.word, callee.text, callee.span⟩ : Token) = callee := by rw [← hword]
    rw [writtenLeaves, leaves, hleaf, filter_leaf hcallee hcalleeOperand,
      List.filter_cons_of_pos hcalleeOperand, List.filter_cons_of_neg (by simp [hopeningOperand]),
      List.filter_append, List.filter_cons_of_neg (by simp [hclosingOperand]), List.filter_nil,
      List.append_nil, ← hleaves]
    rfl

/-- A single word or number. -/
theorem standing_leaf {r : Rank} {token : Token} {e : Expr} (hoperand : token.isOperand = true)
    (hplaced : Token.PlacedIn line [token]) (hspan : e.span = token.span)
    (hstands : e.StandsIn line) (hleaves : e.leaves = [token]) :
    Standing line [token] (.expression r) e := by
  have htoken := hplaced.stands token (List.mem_singleton_self token)
  refine ⟨hstands, ?_, ?_⟩
  · rw [hspan]
    exact Span.joins_of_mem (List.mem_singleton_self token)
  · rw [writtenLeaves, hleaves, filter_leaf htoken hoperand, List.filter_cons_of_pos hoperand]
    rfl

/-- What a derivation is read as stands where its tokens stand. -/
theorem standing_reading {c : Category} (d : Derivation c) (h : Token.PlacedIn line d.tokens) :
    Standing line d.tokens c d.reading := by
  induction d with
  | start first ih => exact ih h
  | unsigned operand ih => exact ih h
  | step front token op stands joins back ihfront ihback =>
    have hfront := h.sublist (List.sublist_append_left _ _)
    have hback := h.sublist ((List.sublist_cons_self _ _).trans (List.sublist_append_right _ _))
    exact standing_binary (Token.isOperand_of_operator? stands) h (ihfront hfront) (ihback hback)
  | plus token isPlus operand ih =>
    obtain ⟨hstands, hjoins, hleaves⟩ := ih (h.sublist (List.sublist_cons_self _ _))
    refine ⟨hstands, hjoins.mono (List.subset_cons_self _ _), ?_⟩
    have hsign : token.isOperand = false :=
      Token.isOperand_eq_false isPlus (by decide) (by decide)
    rw [Derivation.tokens, List.filter_cons_of_neg (by simp [hsign])]
    exact hleaves
  | minus token isMinus operand ih =>
    exact standing_minus isMinus h (ih (h.sublist (List.sublist_cons_self _ _)))
  | number token isNumber value reads =>
    have hoperand : token.isOperand = true := by simp [Token.isOperand, isNumber]
    refine standing_leaf hoperand h rfl ?_ ?_
    · rw [Derivation.reading, StandsIn]
      exact (h.stands token (List.mem_singleton_self token)).quotes
    · rw [Derivation.reading, leaves, ← isNumber]
  | word token isWord =>
    have hoperand : token.isOperand = true := by simp [Token.isOperand, isWord]
    refine standing_leaf hoperand h rfl ?_ ?_
    · rw [Derivation.reading, StandsIn]
      exact (h.stands token (List.mem_singleton_self token)).quotes
    · rw [Derivation.reading, leaves, ← isWord]
  | group opening opens inner closing closes ih =>
    have hsub : inner.tokens.Sublist (opening :: (inner.tokens ++ [closing])) :=
      (List.sublist_append_left _ _).trans (List.sublist_cons_self _ _)
    obtain ⟨hstands, hjoins, hleaves⟩ := ih (h.sublist hsub)
    refine ⟨hstands, hjoins.mono hsub.subset, ?_⟩
    have hopening : opening.isOperand = false :=
      Token.isOperand_eq_false opens (by decide) (by decide)
    have hclosing : closing.isOperand = false :=
      Token.isOperand_eq_false closes (by decide) (by decide)
    rw [Derivation.tokens, List.filter_cons_of_neg (by simp [hopening]), List.filter_append,
      List.filter_cons_of_neg (by simp [hclosing]), List.filter_nil, List.append_nil]
    exact hleaves
  | callNone callee isWord opening opens closing closes =>
    have hnone : Standing line [] .arguments [] := ⟨trivial, by simp, .nil, rfl⟩
    exact standing_call isWord opens closes h hnone
  | call callee isWord opening opens args closing closes ih =>
    have hsub : args.tokens.Sublist (callee :: opening :: (args.tokens ++ [closing])) :=
      ((List.sublist_append_left _ _).trans (List.sublist_cons_self _ _)).trans
        (List.sublist_cons_self _ _)
    exact standing_call isWord opens closes h (ih (h.sublist hsub))
  | last arg ih =>
    obtain ⟨hstands, hjoins, hleaves⟩ := ih h
    refine ⟨⟨hstands, trivial⟩, ?_, List.pairwise_singleton _ _, ?_⟩
    · intro other hother
      obtain rfl := List.mem_singleton.mp hother
      exact hjoins
    · rw [Derivation.reading, writtenLeavesAll, leavesAll, leavesAll, List.append_nil]
      exact hleaves
  | more arg comma isComma rest iharg ihrest =>
    have hfront := h.sublist (List.sublist_append_left _ _)
    have hback := h.sublist ((List.sublist_cons_self _ _).trans (List.sublist_append_right _ _))
    obtain ⟨hstands, hjoins, hleaves⟩ := iharg hfront
    obtain ⟨hrestStand, hrestJoins, hrestOrdered, hrestLeaves⟩ := ihrest hback
    have hbehind (other : Expr) (hother : other ∈ (rest.reading : List Expr)) :
        (span other).Joins (comma :: rest.tokens) :=
      (hrestJoins other hother).mono (List.subset_cons_self _ _)
    refine ⟨⟨hstands, hrestStand⟩, ?_, List.pairwise_cons.mpr ⟨?_, hrestOrdered⟩, ?_⟩
    · intro other hother
      rcases List.mem_cons.mp hother with rfl | hother
      · exact hjoins.mono (List.subset_append_left _ _)
      · exact (hbehind other hother).mono (List.subset_append_right _ _)
    · intro part hpart
      obtain ⟨other, hother, rfl⟩ := List.mem_map.mp hpart
      exact h.stop_le_start hjoins (hbehind other hother)
    · have hcomma : comma.isOperand = false :=
        Token.isOperand_eq_false isComma (by decide) (by decide)
      rw [Derivation.reading, writtenLeavesAll, leavesAll, List.filter_append, Derivation.tokens,
        List.filter_append, List.filter_cons_of_neg (by simp [hcomma])]
      exact congr (congrArg _ hleaves) hrestLeaves

/-- What is read from the tokens of a line stands in the line. -/
theorem standing_of_ofTokens {e : Expr} (h : ofTokens tokens = .ok e)
    (hplaced : Token.PlacedIn line tokens) :
    Standing line tokens (.expression (.chain .additive)) e := by
  obtain ⟨d, rfl, -⟩ := derivation_of_ofTokens h
  have hreading : d.reading = e := Except.ok.inj ((ofTokens_reading d).symm.trans h)
  rw [← hreading]
  exact standing_reading d hplaced

end Expr

namespace Statement

variable {line : List Char} {s : Statement}

/-- The tokens that a line's statement is read from. -/
theorem ofLine_eq_ok_iff :
    ofLine line = .ok s ↔ ∃ tokens, Token.scan line = .ok tokens ∧ ofTokens tokens = .ok s := by
  unfold ofLine
  cases Token.scan line with
  | error e => simp
  | ok tokens =>
    cases hread : ofTokens tokens with
    | error e => simp [hread]
    | ok s' => simp [hread]

/-- A statement that is read from tokens of a line stands in the line, and its written leaves are
the words and numbers among the tokens. -/
theorem standsIn_of_ofTokens {tokens : List Token} (h : ofTokens tokens = .ok s)
    (hplaced : Token.PlacedIn line tokens) :
    s.StandsIn line ∧ s.writtenLeaves line = tokens.filter Token.isOperand := by
  rcases ofTokens_cases h with
    ⟨e, hread, rfl⟩ | ⟨target, equals, value, e, rfl, hword, hequals, hread, rfl⟩
  · obtain ⟨hstands, -, hleaves⟩ := Expr.standing_of_ofTokens hread hplaced
    exact ⟨hstands, hleaves⟩
  · have hvalue := hplaced.sublist
      ((List.sublist_cons_self equals value).trans (List.sublist_cons_self target _))
    obtain ⟨hstands, hjoins, hleaves⟩ := Expr.standing_of_ofTokens hread hvalue
    have htarget := hplaced.stands target List.mem_cons_self
    have hbehind : (e.span).Joins (equals :: value) := hjoins.mono (List.subset_cons_self _ _)
    have hordered : target.span.stop ≤ e.span.start :=
      hplaced.stop_le_start (Span.joins_of_mem (List.mem_singleton_self target)) hbehind
    obtain ⟨hlies, hcovers⟩ :=
      Span.covers_union htarget.quotes.toLiesIn hstands.liesIn hordered
    refine ⟨⟨htarget.quotes, hstands, hlies, hcovers⟩, ?_⟩
    have hleaf : (⟨.word, target.text, target.span⟩ : Token) = target := by rw [← hword]
    have htargetOperand : target.isOperand = true := by simp [Token.isOperand, hword]
    have hequalsOperand : equals.isOperand = false :=
      Token.isOperand_eq_false hequals (by decide) (by decide)
    rw [writtenLeaves, leaves, hleaf, Expr.filter_leaf htarget htargetOperand,
      List.filter_cons_of_pos htargetOperand, List.filter_cons_of_neg (by simp [hequalsOperand]),
      ← hleaves]
    rfl

/-- Every part of the statement of a line stands in the line, within the part that it belongs to and
apart from its neighbours. The names and literals written in the line, from left to right, are its
words and numbers, each once. -/
theorem standsIn_of_ofLine (h : ofLine line = .ok s) :
    s.StandsIn line ∧
      ∃ tokens, Token.scan line = .ok tokens ∧
        s.writtenLeaves line = tokens.filter Token.isOperand := by
  obtain ⟨tokens, hscan, hread⟩ := ofLine_eq_ok_iff.mp h
  obtain ⟨hstands, hleaves⟩ := standsIn_of_ofTokens hread (Token.placedIn_of_scan hscan)
  exact ⟨hstands, tokens, hscan, hleaves⟩

/-- A line with a sign and a call. -/
def negatedCall : List Char := "y = -f(x, z)".toList

/-- In the line `y = -f(x, z)` every part stands in its place, the zero of the sign too, and the
leaves that are written are the four words. -/
theorem standsIn_of_ofLine_negatedCall :
    ∃ s, ofLine negatedCall = .ok s ∧ s.StandsIn negatedCall ∧
      s.writtenLeaves negatedCall = [.ofChars .word 0 ['y'], .ofChars .word 5 ['f'],
        .ofChars .word 7 ['x'], .ofChars .word 10 ['z']] := by
  have hscan : Token.scan negatedCall = .ok [.ofChars .word 0 ['y'], .ofChars .equals 2 ['='],
      .ofChars .minus 4 ['-'], .ofChars .word 5 ['f'], .ofChars .openParen 6 ['('],
      .ofChars .word 7 ['x'], .ofChars .comma 8 [','], .ofChars .word 10 ['z'],
      .ofChars .closeParen 11 [')']] := by
    cbv
  have hread : ofLine negatedCall = .ok (.assignment "y" ⟨0, 1⟩ (.binary .sub
      (Expr.signZero ⟨4, 5⟩)
      (.call "f" ⟨5, 6⟩ [.var "x" ⟨7, 8⟩, .var "z" ⟨10, 11⟩] ⟨5, 12⟩))) := by
    cbv
  obtain ⟨hstands, tokens, htokens, hleaves⟩ := standsIn_of_ofLine hread
  obtain rfl := Except.ok.inj (hscan.symm.trans htokens)
  exact ⟨_, hread, hstands, hleaves⟩

end Statement

end Reckoner
