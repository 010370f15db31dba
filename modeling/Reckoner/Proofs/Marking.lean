import Mathlib.Algebra.Ring.Int.Defs
import Mathlib.Algebra.Ring.Nat
import Reckoner.Evaluation.Precise
import Reckoner.Proofs.Failures
import Reckoner.Proofs.Placement
import Reckoner.Report

/-!
# What the failures of a line mark

Every failure marks a part of the line it is about. A character that begins no token is marked
itself. A fault of structure marks a token, a run of tokens, or the two characters around the end of
a token, where something is missing (`Span.Marks`). A failed evaluation marks a part of the
statement, and if it is about a name, the line says this name there (`EvalError.LocatedIn`).

So a mark begins in the line and ends at most one character behind it. It can be drawn below the
line, as long as the column where it begins is a number of 64 bits.

Main statements: `Fault.marks_of_arisesIn`, `Palette.underline_eq_leftOfMargin_iff`.
-/

set_option autoImplicit false

namespace Reckoner

/-! ### Failed evaluations -/

namespace EvalError

/-- What a failure about a name marks in a line: the name itself, or for a wrong number of
arguments everything from the end of the function's name to the closing parenthesis. -/
def QuotesIn (line : List Char) (e : EvalError) : Prop :=
  match e.fault with
  | .undefinedVariable name => e.span.Quotes line name
  | .unknownFunction name => e.span.Quotes line name
  | .noPreciseValue name => e.span.Quotes line name
  | .arityMismatch name _ _ =>
    ∃ callee : Span, callee.Quotes line name ∧ e.span.start = callee.stop ∧
      ∃ inner, e.span.textIn line = inner ++ [')']
  | .notANumber _ => True

/-- A failed evaluation marks a part of a line, and what it quotes is there. -/
structure LocatedIn (line : List Char) (e : EvalError) : Prop where
  lies : e.span.LiesIn line
  quotes : e.QuotesIn line

end EvalError

namespace Wide

variable {line : List Char} {f : Format} {span : Span}

/-- A 64-bit result that is not a number is marked by the operation. -/
theorem failsOnly_ofBinary64 (h : span.LiesIn line) (operation : String) (x : Binary64) :
    FailsOnly (EvalError.LocatedIn line) (ofBinary64 f span operation x) := by
  cases x with
  | nan => exact .of_error ⟨h, trivial⟩
  | number x _ => exact .of_ok _

/-- A literal is marked itself. -/
theorem failsOnly_literal (h : span.LiesIn line) (text : String) (value : Binary64) :
    FailsOnly (EvalError.LocatedIn line) (literal f text value span) := by
  unfold literal
  split
  · exact .of_ok _
  · exact failsOnly_ofBinary64 h _ _

/-- A variable is marked itself. -/
theorem failsOnly_variableValue {name : String} (h : span.Quotes line name) (env : Environment) :
    FailsOnly (EvalError.LocatedIn line) (variableValue f env name span) := by
  unfold variableValue
  split
  · exact .of_error ⟨h.toLiesIn, h⟩
  · exact .of_error ⟨h.toLiesIn, h⟩
  · exact .of_ok _

/-- A rounded operation without a result is marked by the operation. -/
theorem failsOnly_elim (h : span.LiesIn line) (operation : String) (result : Option Number) :
    FailsOnly (EvalError.LocatedIn line)
      (result.elim (.error ⟨span, .notANumber operation⟩) .ok) := by
  cases result with
  | none => exact .of_error ⟨h, trivial⟩
  | some x => exact .of_ok x

/-- An operation without a result is marked from its left operand to its right one. -/
theorem failsOnly_arithmetic {lib : Library} (h : span.LiesIn line) (op : Operator) (x y : Number) :
    FailsOnly (EvalError.LocatedIn line) (arithmetic lib f span op x y) := by
  cases op with
  | add | sub | mul | div => exact failsOnly_elim h _ _
  | pow =>
    simp only [arithmetic]
    split
    · exact .of_ok _
    · exact failsOnly_ofBinary64 h _ _

/-- A call without a result is marked as a whole. -/
theorem failsOnly_callEffect {lib : Library} (h : span.LiesIn line) (function : Function)
    (args : List Number) :
    FailsOnly (EvalError.LocatedIn line) (callEffect lib f span function args) := by
  simp only [callEffect]
  split
  · exact .of_ok _
  · exact (failsOnly_ofBinary64 h _ _).map _

end Wide

/-- Assumes: a call that stands in a line, from its name to a closing parenthesis. An unknown
function is marked by its name, and a wrong number of arguments by what stands behind the name. -/
theorem Function.failsOnly_resolve {line : List Char} {callee : String} {calleeSpan closing : Span}
    (hcallee : calleeSpan.Quotes line callee) (hclosing : closing.Quotes line ")")
    (hordered : calleeSpan.stop ≤ closing.start) (count : Nat) :
    FailsOnly (EvalError.LocatedIn line)
      (Function.resolve callee calleeSpan count (calleeSpan.union closing)) := by
  have hcalleeLies := hcallee.toLiesIn
  have hclosingLies := hclosing.toLiesIn
  unfold Function.resolve
  split
  · exact .of_error ⟨hcallee.toLiesIn, hcallee⟩
  · split
    · exact .of_ok _
    · refine .of_error ⟨⟨?_, ?_, hclosingLies.stop_le⟩, calleeSpan, hcallee, rfl, ?_⟩
      · exact Int.le_trans hcalleeLies.start_nonneg (Int.le_of_lt hcalleeLies.start_lt_stop)
      · exact Int.lt_of_le_of_lt hordered hclosingLies.start_lt_stop
      · refine ⟨Span.textIn line ⟨calleeSpan.stop, closing.start⟩, ?_⟩
        have hparen : Span.textIn line ⟨closing.start, closing.stop⟩ = [')'] := hclosing.textIn_eq
        rw [← hparen]
        exact Span.textIn_union line hordered (Int.le_of_lt hclosingLies.start_lt_stop)

namespace Expr

variable {line : List Char}

mutual

/-- Evaluating an expression that stands in a line fails only in the line. -/
theorem failsOnly_eval (env : Environment) (e : Expr) (h : e.StandsIn line) :
    FailsOnly (EvalError.LocatedIn line) (e.eval env) := by
  cases e with
  | literal text value span => exact .of_ok value
  | var name span =>
    rw [StandsIn] at h
    rw [eval]
    split
    · exact .of_ok _
    · exact .of_error ⟨h.toLiesIn, h⟩
  | call callee calleeSpan args span =>
    rw [StandsIn] at h
    obtain ⟨hcallee, -, -, hargs, closing, hclosing, hordered, rfl⟩ := h
    refine (Function.failsOnly_resolve hcallee hclosing hordered _).bind ?_
    intro function
    exact (failsOnly_evalAll env args hargs).bind fun _ ↦ .of_ok _
  | binary op left right =>
    rw [StandsIn] at h
    obtain ⟨hleft, hright, -, -⟩ := h
    have hleftFails : FailsOnly (EvalError.LocatedIn line) (left.eval env) := by
      rcases hleft with hstands | ⟨-, sign, rfl, -⟩
      · exact failsOnly_eval env left hstands
      · exact .of_ok _
    refine hleftFails.bind ?_
    intro x
    exact (failsOnly_eval env right hright).bind fun _ ↦ .of_ok _

/-- Evaluating arguments that stand in a line fails only in the line. -/
theorem failsOnly_evalAll (env : Environment) (args : List Expr) (h : StandInAll line args) :
    FailsOnly (EvalError.LocatedIn line) (evalAll env args) := by
  cases args with
  | nil => exact .of_ok []
  | cons arg rest =>
    rw [StandInAll] at h
    refine (failsOnly_eval env arg h.1).bind ?_
    intro value
    exact (failsOnly_evalAll env rest h.2).bind fun _ ↦ .of_ok _

end

mutual

/-- Evaluating an expression that stands in a line wide, with whatever the slots hold, fails only in
the line. -/
theorem failsOnly_evalPrecise (lib : Library) (f : Format) (env : Environment) (e : Expr)
    (h : e.StandsIn line) (slots : Slots Number) :
    FailsOnly (EvalError.LocatedIn line) (e.evalPrecise lib f env slots) := by
  cases e with
  | literal text value span =>
    rw [StandsIn] at h
    exact (Wide.failsOnly_literal h.toLiesIn text value).bind fun _ ↦ .of_ok _
  | var name span =>
    rw [StandsIn] at h
    exact (Wide.failsOnly_variableValue h env).bind fun _ ↦ .of_ok _
  | call callee calleeSpan args span =>
    rw [StandsIn] at h
    obtain ⟨hcallee, hlies, -, hargs, closing, hclosing, hordered, rfl⟩ := h
    refine (Function.failsOnly_resolve hcallee hclosing hordered _).bind ?_
    intro function
    refine (failsOnly_evalPreciseAll lib f env args hargs _).bind ?_
    intro slots
    exact (Wide.failsOnly_callEffect hlies function _).bind fun _ ↦ .of_ok _
  | binary op left right =>
    rw [StandsIn] at h
    obtain ⟨hleft, hright, hlies, -⟩ := h
    have hleftFails : FailsOnly (EvalError.LocatedIn line) (left.evalPrecise lib f env slots) := by
      rcases hleft with hstands | ⟨-, sign, rfl, hsign⟩
      · exact failsOnly_evalPrecise lib f env left hstands slots
      · exact (Wide.failsOnly_literal hsign.toLiesIn _ _).bind fun _ ↦ .of_ok _
    refine hleftFails.bind ?_
    intro slots
    refine (failsOnly_evalPrecise lib f env right hright slots).bind ?_
    intro slots
    split
    · exact (Wide.failsOnly_arithmetic hlies op _ _).bind fun _ ↦ .of_ok _
    · exact .of_ok _

/-- Evaluating arguments that stand in a line wide fails only in the line. -/
theorem failsOnly_evalPreciseAll (lib : Library) (f : Format) (env : Environment) (args : List Expr)
    (h : StandInAll line args) (slots : Slots Number) :
    FailsOnly (EvalError.LocatedIn line) (evalPreciseAll lib f env args slots) := by
  cases args with
  | nil => exact .of_ok slots
  | cons arg rest =>
    rw [StandInAll] at h
    refine (failsOnly_evalPrecise lib f env arg h.1 slots).bind ?_
    intro slots
    exact failsOnly_evalPreciseAll lib f env rest h.2 slots

end

end Expr

namespace Statement

variable {line : List Char} {s : Statement}

/-- The expression of a statement that stands in a line stands there. -/
theorem StandsIn.value (h : s.StandsIn line) : s.value.StandsIn line := by
  cases s with
  | expression value => exact h
  | assignment target targetSpan value => exact h.2.1

/-- Executing a statement that stands in a line fails only in the line. -/
theorem failsOnly_execute (env : Environment) (h : s.StandsIn line) :
    FailsOnly (EvalError.LocatedIn line) (s.execute env) := by
  have hvalue := Expr.failsOnly_eval env _ h.value
  cases s with
  | expression value => exact hvalue.bind fun _ ↦ .of_ok _
  | assignment target targetSpan value => exact hvalue.bind fun _ ↦ .of_ok _

/-- Executing a statement that stands in a line wide fails only in the line. -/
theorem failsOnly_executePrecise (lib : Library) (env : Environment) (bits : Nat)
    (h : s.StandsIn line) :
    FailsOnly (EvalError.LocatedIn line) (s.executePrecise lib env bits) := by
  have hslots := Expr.failsOnly_evalPrecise lib (Format.wide bits) env _ h.value Slots.empty
  have hvalue : FailsOnly (EvalError.LocatedIn line)
      (s.value.preciseValue lib (Format.wide bits) env) := hslots.bind fun _ ↦ .of_ok _
  cases s with
  | expression value => exact hvalue.bind fun _ ↦ .of_ok _
  | assignment target targetSpan value => exact hvalue.bind fun _ ↦ .of_ok _

end Statement

/-! ### Faults of structure -/

/-- What a fault of structure marks: a token, a run of tokens, or the end of a token. -/
inductive Span.Marks (tokens : List Token) : Span → Prop where
  | token {t : Token} (h : t ∈ tokens) : Marks tokens t.span
  | run {a b : Token} (h : [a, b].Sublist tokens) : Marks tokens (a.span.union b.span)
  | after {t : Token} (h : t ∈ tokens) : Marks tokens t.span.after

/-- More tokens do no harm. -/
theorem Span.Marks.mono {tokens tokens' : List Token} {s : Span} (h : s.Marks tokens)
    (hsub : tokens.Sublist tokens') : s.Marks tokens' := by
  cases h with
  | token ht => exact .token (hsub.subset ht)
  | run hrun => exact .run (hrun.trans hsub)
  | after ht => exact .after (hsub.subset ht)

namespace ParseError

/-- A fault of structure marks some of the tokens. -/
def MarksIn (tokens : List Token) (e : ParseError) : Prop :=
  e.span.Marks tokens

end ParseError

namespace Nested

/-- The first token of an item is one of its tokens. -/
theorem first_mem_tokens (item : Nested) : item.first ∈ item.tokens := by
  cases item with
  | single t => simp [first, tokens]
  | group opening inner closing => simp [first, tokens]

/-- The last token of an item is one of its tokens. -/
theorem last_mem_tokens (item : Nested) : item.last ∈ item.tokens := by
  cases item with
  | single t => simp [last, tokens]
  | group opening inner closing => simp [last, tokens]

/-- The tokens of an item are among those of a sequence that it belongs to. -/
theorem tokens_subset_tokensAll {item : Nested} {items : List Nested} (h : item ∈ items) :
    item.tokens ⊆ tokensAll items := by
  induction items with
  | nil => cases h
  | cons other rest ih =>
    rw [tokensAll]
    rcases List.mem_cons.mp h with rfl | h
    · exact List.subset_append_left _ _
    · exact List.Subset.trans (ih h) (List.subset_append_right _ _)

/-- The span of several items is a run of their tokens. -/
theorem marks_spanOf (item second : Nested) (rest : List Nested) :
    (spanOf (item :: second :: rest)).Marks (tokensAll (item :: second :: rest)) := by
  have hlast : ((item :: second :: rest).getLast (by simp)).last ∈ tokensAll (second :: rest) := by
    rw [List.getLast_cons (List.cons_ne_nil second rest)]
    exact tokens_subset_tokensAll (List.getLast_mem _) (last_mem_tokens _)
  refine .run ?_
  rw [tokensAll]
  exact (List.singleton_sublist.mpr item.first_mem_tokens).append
    (List.singleton_sublist.mpr hlast)

/-- A closing parenthesis that closes nothing is one of the tokens. -/
theorem mem_of_nestFrom_redundant {outer : List (Token × List Nested)} {items : List Nested}
    {rest : List Token} {closing : Token}
    (h : nestFrom outer items rest = .error (.redundant closing)) : closing ∈ rest := by
  induction rest generalizing outer items with
  | nil =>
    unfold nestFrom at h
    split at h <;> cases h
  | cons t rest ih =>
    by_cases hopen : t.kind = .openParen
    · rw [nestFrom_open hopen] at h
      exact List.mem_cons_of_mem t (ih h)
    by_cases hclose : t.kind = .closeParen
    · cases outer with
      | nil =>
        rw [nestFrom_redundant hclose] at h
        cases h
        exact List.mem_cons_self
      | cons level outer =>
        rw [nestFrom_close hclose] at h
        exact List.mem_cons_of_mem t (ih h)
    · rw [nestFrom_single hopen hclose] at h
      exact List.mem_cons_of_mem t (ih h)

/-- The arguments of a call, each with the token in front of it, are made of its tokens. -/
theorem sublist_of_mem_segmentsFrom {before : Token} {current inner : List Nested}
    {segment : Segment} (h : segment ∈ segmentsFrom before current inner) :
    (segment.before :: tokensAll segment.items).Sublist
      (before :: (tokensAll current.reverse ++ tokensAll inner)) := by
  induction inner generalizing before current with
  | nil =>
    obtain rfl := List.mem_singleton.mp h
    exact (List.sublist_append_left _ _).cons_cons before
  | cons item rest ih =>
    have hpass (h : segment ∈ segmentsFrom before (item :: current) rest) :
        (segment.before :: tokensAll segment.items).Sublist
          (before :: (tokensAll current.reverse ++ tokensAll (item :: rest))) := by
      have hsub := ih h
      rwa [List.reverse_cons, tokensAll_append, List.append_assoc, ← tokensAll_append] at hsub
    cases item with
    | group opening inside closing => exact hpass (by simpa [segmentsFrom] using h)
    | single t =>
      by_cases hcomma : t.kind = .comma
      · rw [segmentsFrom, if_pos hcomma] at h
        rcases List.mem_cons.mp h with rfl | h
        · exact (List.sublist_append_left _ _).cons_cons before
        · refine (ih h).trans (List.Sublist.cons before ?_)
          exact List.sublist_append_right _ _
      · rw [segmentsFrom, if_neg hcomma] at h
        exact hpass h

end Nested

namespace Expr

/-- A single token that is no operand is marked itself. -/
theorem failsOnly_ofToken (t : Token) : FailsOnly (ParseError.MarksIn [t]) (ofToken t) := by
  have hmarks : t.span.Marks [t] := .token (List.mem_singleton_self t)
  unfold ofToken
  split
  · split
    · exact .of_ok _
    · exact .of_error hmarks
  · exact .of_ok _
  · exact .of_error hmarks

/-- Items of no known shape are marked as a whole, or at the item that should not be there. -/
theorem marksIn_shapeError (first second : Nested) (rest : List Nested) :
    (shapeError (first :: second :: rest)).MarksIn
      (Nested.tokensAll (first :: second :: rest)) := by
  have hwhole := Nested.marks_spanOf first second rest
  have hitem (item : Nested) (h : item ∈ first :: second :: rest) :
      item.first.span.Marks (Nested.tokensAll (first :: second :: rest)) :=
    .token (Nested.tokens_subset_tokensAll h item.first_mem_tokens)
  unfold shapeError ParseError.MarksIn
  dsimp only
  split
  · split
    · exact hitem _ (by simp_all)
    · exact hwhole
  · split
    · exact hitem _ (by simp_all)
    · exact hwhole
  · exact hwhole

/-- Assumes: reading each argument fails only at its tokens. Reading the arguments of a call fails
only at the call's tokens. -/
theorem failsOnly_ofSegments {tokens : List Token} {segments : List Nested.Segment}
    (hsub : ∀ segment ∈ segments,
      (segment.before :: Nested.tokensAll segment.items).Sublist tokens)
    (hread : ∀ segment ∈ segments, segment.items ≠ [] →
      FailsOnly (ParseError.MarksIn (Nested.tokensAll segment.items)) (ofNested segment.items)) :
    FailsOnly (ParseError.MarksIn tokens) (ofSegments segments) := by
  induction segments with
  | nil =>
    rw [ofSegments]
    exact .of_ok []
  | cons segment rest ih =>
    have hthis := hsub segment List.mem_cons_self
    rw [ofSegments]
    split
    · exact .of_error (.after (hthis.subset List.mem_cons_self))
    · rename_i hitems
      have harg := hread segment List.mem_cons_self (by simpa using hitems)
      refine (harg.mono fun e he ↦ he.mono ((List.sublist_cons_self _ _).trans hthis)).bind ?_
      intro arg
      refine (ih (fun other hother ↦ hsub other (List.mem_cons_of_mem _ hother))
        fun other hother ↦ hread other (List.mem_cons_of_mem _ hother)).bind ?_
      intro args
      exact .of_ok _

/-- Assumes: reading items with no more tokens than stand between the parentheses of a call fails
only at their tokens. Reading the arguments fails only at the call's tokens. -/
theorem failsOnly_arguments {inner : List Nested}
    (hread : ∀ part, part ≠ [] →
      (Nested.tokensAll part).length ≤ (Nested.tokensAll inner).length →
      FailsOnly (ParseError.MarksIn (Nested.tokensAll part)) (ofNested part)) (opening : Token) :
    FailsOnly (ParseError.MarksIn (opening :: Nested.tokensAll inner))
      (ofSegments (Nested.segments opening inner)) := by
  have hsub : ∀ segment ∈ Nested.segments opening inner,
      (segment.before :: Nested.tokensAll segment.items).Sublist
        (opening :: Nested.tokensAll inner) := by
    intro segment hsegment
    unfold Nested.segments at hsegment
    split at hsegment
    · cases hsegment
    · exact Nested.sublist_of_mem_segmentsFrom hsegment
  refine failsOnly_ofSegments hsub ?_
  intro segment hsegment hitems
  refine hread segment.items hitems ?_
  simpa using (hsub segment hsegment).length_le

/-- Assumes: reading both sides of a division fails only at the tokens of the whole. So does reading
the whole. -/
theorem failsOnly_divided {d : Nested.Division} {tokens : List Token} (hoperator : d.token ∈ tokens)
    (hfront : d.before.reverse ≠ [] →
      FailsOnly (ParseError.MarksIn tokens) (ofNested d.before.reverse))
    (hback : d.behind ≠ [] → FailsOnly (ParseError.MarksIn tokens) (ofNested d.behind)) :
    FailsOnly (ParseError.MarksIn tokens)
      (if d.behind.isEmpty then .error ⟨d.token.span.after, .noRightHand⟩
      else if d.before.isEmpty then
        match d.op with
        | .add => ofNested d.behind
        | .sub => do
          let right ← ofNested d.behind
          return binary .sub (signZero d.token.span) right
        | _ => .error ⟨d.token.span, .badSign⟩
      else do
        let left ← ofNested d.before.reverse
        let right ← ofNested d.behind
        return binary d.op left right) := by
  split
  · exact .of_error (.after hoperator)
  · rename_i hbehind
    have hright := hback (by simpa using hbehind)
    split
    · split
      · exact hright
      · exact hright.bind fun _ ↦ .of_ok _
      · exact .of_error (.token hoperator)
    · rename_i hbefore
      refine (hfront (by simpa using hbefore)).bind ?_
      intro left
      exact hright.bind fun _ ↦ .of_ok _

/-- Reading items fails only at their tokens. -/
theorem failsOnly_ofNested {items : List Nested} (hitems : items ≠ []) :
    FailsOnly (ParseError.MarksIn (Nested.tokensAll items)) (ofNested items) := by
  -- on the number of tokens: every part that is read has fewer
  induction hcount : (Nested.tokensAll items).length using Nat.strongRecOn generalizing items with
  | ind count ih =>
    subst hcount
    unfold ofNested
    split
    · exact absurd rfl hitems
    · exact failsOnly_ofToken _
    · rename_i opening inner closing
      have htokens : Nested.tokensAll [.group opening inner closing] =
          opening :: (Nested.tokensAll inner ++ [closing]) := by
        simp [Nested.tokensAll, Nested.tokens]
      rw [htokens] at ih ⊢
      split
      · refine .of_error (.run ?_)
        exact (List.sublist_append_right _ _).cons_cons opening
      · rename_i hinner
        have hlt : (Nested.tokensAll inner).length <
            (opening :: (Nested.tokensAll inner ++ [closing])).length := by
          simp only [List.length_cons, List.length_append]
          omega
        refine (ih _ hlt (by simpa using hinner) rfl).mono ?_
        intro e he
        exact he.mono ((List.sublist_append_left _ _).cons opening)
    · rename_i first second rest
      split
      · rename_i d hdivide
        rw [tokensAll_of_divides (Nested.divides_of_divide? hdivide)] at ih ⊢
        refine failsOnly_divided (by simp) ?_ ?_
        · intro hbefore
          refine (ih _ ?_ hbefore rfl).mono fun e he ↦ he.mono (List.sublist_append_left _ _)
          simp only [List.length_append, List.length_cons]
          omega
        · intro hbehind
          refine (ih _ ?_ hbehind rfl).mono fun e he ↦
            he.mono ((List.sublist_cons_self _ _).trans (List.sublist_append_right _ _))
          simp only [List.length_append, List.length_cons]
          omega
      · split
        · rename_i t opening inner closing _ _
          have htokens : Nested.tokensAll [.single t, .group opening inner closing] =
              t :: opening :: (Nested.tokensAll inner ++ [closing]) := by
            simp [Nested.tokensAll, Nested.tokens]
          split
          · rw [htokens] at ih ⊢
            have hread : ∀ part, part ≠ [] →
                (Nested.tokensAll part).length ≤ (Nested.tokensAll inner).length →
                FailsOnly (ParseError.MarksIn (Nested.tokensAll part)) (ofNested part) := by
              intro part hpart hle
              refine ih _ ?_ hpart rfl
              simp only [List.length_cons, List.length_append]
              omega
            have hargs := failsOnly_arguments hread opening
            have hsub : (opening :: Nested.tokensAll inner).Sublist
                (t :: opening :: (Nested.tokensAll inner ++ [closing])) :=
              ((List.sublist_append_left _ _).cons_cons opening).cons t
            exact (hargs.mono fun e he ↦ he.mono hsub).bind fun _ ↦ .of_ok _
          · exact .of_error (marksIn_shapeError _ _ _)
        · exact .of_error (marksIn_shapeError _ _ _)

/-- Parentheses that do not match are marked at one of the tokens. -/
theorem marksIn_mismatchError {tokens : List Token} {mismatch : Nested.Mismatch}
    (hne : tokens ≠ []) (h : Nested.ofTokens tokens = .error mismatch) :
    (mismatchError (tokens.getLast hne).span mismatch).MarksIn tokens := by
  cases mismatch with
  | redundant closing => exact .token (Nested.mem_of_nestFrom_redundant h)
  | missing => exact .after (List.getLast_mem hne)

/-- Reading tokens fails only at the tokens. -/
theorem failsOnly_ofTokens {tokens : List Token} (hne : tokens ≠ []) :
    FailsOnly (ParseError.MarksIn tokens) (ofTokens tokens) := by
  unfold ofTokens
  split
  · exact absurd rfl hne
  · exact failsOnly_ofToken _
  · rename_i first second rest
    split
    · rename_i items hitems
      obtain ⟨htokens, -⟩ := Nested.tokensAll_of_ofTokens hitems
      rw [← htokens]
      refine failsOnly_ofNested ?_
      rintro rfl
      cases htokens
    · rename_i mismatch hmismatch
      exact .of_error (marksIn_mismatchError hne hmismatch)

end Expr

/-- Reading a statement fails only at the tokens. -/
theorem Statement.failsOnly_ofTokens {tokens : List Token} (hne : tokens ≠ []) :
    FailsOnly (ParseError.MarksIn tokens) (Statement.ofTokens tokens) := by
  unfold Statement.ofTokens
  split
  · rename_i target equals first rest
    split
    · have hvalue := Expr.failsOnly_ofTokens (List.cons_ne_nil first rest)
      refine (hvalue.mono fun e he ↦ he.mono ?_).map _
      exact (List.sublist_cons_self _ _).trans (List.sublist_cons_self _ _)
    · exact (Expr.failsOnly_ofTokens hne).map _
  · exact (Expr.failsOnly_ofTokens hne).map _

/-! ### Marks below a line -/

namespace Span

/-- A sum of two natural numbers of 64 bits is negative if it is too great for a third. -/
theorem wrapped_lt_zero_iff {n : Int} (hlow : 0 ≤ n) (hhigh : n < 2 ^ 64) :
    wrapped n < 0 ↔ 2 ^ 63 ≤ n := by
  have hmod : n % ((Nat.pow 2 64 : Nat) : Int) = n := Int.emod_eq_of_lt hlow hhigh
  have hhalf : (((Nat.pow 2 64 : Nat) : Int) + 1) / 2 = 2 ^ 63 := by decide
  have hwhole : ((Nat.pow 2 64 : Nat) : Int) = 2 ^ 64 := by decide
  rw [wrapped, Int.bmod_def, hmod, hhalf, hwhole]
  split <;> omega

end Span

/-- Assumes: the line is not so long that the offset behind it has no room in 64 bits. What a fault
of structure marks begins in the line and ends at most one character behind it. -/
theorem Token.PlacedIn.bounds_of_marks {line : List Char} {tokens : List Token} {s : Span}
    (hplaced : Token.PlacedIn line tokens) (hlength : line.length + 1 < 2 ^ 63)
    (h : s.Marks tokens) : 0 ≤ s.start ∧ s.start < s.stop ∧ s.stop ≤ line.length + 1 := by
  cases h with
  | @token t ht =>
    have hlies := (hplaced.stands t ht).quotes.toLiesIn
    exact ⟨hlies.start_nonneg, hlies.start_lt_stop, Int.le_add_one hlies.stop_le⟩
  | @run a b hrun =>
    have hab := hplaced.sublist hrun
    have hfirst := (hab.stands a (by simp)).quotes.toLiesIn
    have hlast := (hab.stands b (by simp)).quotes.toLiesIn
    have hordered := List.rel_of_pairwise_cons hab.ordered (List.mem_singleton_self b)
    have hfirstLt := hfirst.start_lt_stop
    have hlastLt := hlast.start_lt_stop
    refine ⟨hfirst.start_nonneg, ?_, Int.le_add_one hlast.stop_le⟩
    simp only [Span.union]
    omega
  | @after t ht =>
    have hlies := (hplaced.stands t ht).quotes.toLiesIn
    have hnonneg := hlies.start_nonneg
    have hlt := hlies.start_lt_stop
    have hle := hlies.stop_le
    rw [Span.after, Span.wrapped_eq (by omega) (by omega), Span.wrapped_eq (by omega) (by omega)]
    dsimp only
    omega

namespace Palette

/-- A character cannot be repeated a negative number of times. -/
theorem repeated_eq_leftOfMargin_iff (count : Int) (c : Char) :
    repeated count c = .error .leftOfMargin ↔ count < 0 := by
  unfold repeated
  split
  · rename_i hnegative
    simp [hnegative]
  · rename_i hcount
    split <;> simp [hcount]

/-- A mark below a line cannot be drawn left of the margin if it begins in the line: only the column
where it begins may be too great a number for 64 bits. -/
theorem underline_eq_leftOfMargin_iff (p : Palette) {indent : Int} {fault : Fault}
    (hindent : 0 ≤ indent ∧ indent < 2 ^ 63)
    (hstart : 0 ≤ fault.span.start ∧ fault.span.start < 2 ^ 63) :
    p.underline indent fault = .error .leftOfMargin ↔ 2 ^ 63 ≤ indent + fault.span.start := by
  rw [← Span.wrapped_lt_zero_iff (by omega) (by omega), ← repeated_eq_leftOfMargin_iff _ ' ']
  unfold underline
  cases repeated (Span.wrapped (indent + fault.span.start)) ' ' with
  | error e => exact Iff.rfl
  | ok margin =>
    have hmark : repeated (max fault.span.width 1) '~' ≠ .error .leftOfMargin := by
      rw [ne_eq, repeated_eq_leftOfMargin_iff]
      omega
    cases hwidth : repeated (max fault.span.width 1) '~' with
    | error e => simp_all [Except.map]
    | ok mark => simp [Except.map]

end Palette

namespace Fault

/-- The failures of a line: in its characters, in its structure, and when its statement is executed,
in 64 bits or wide with some library, whatever the variables stand for. -/
def ArisesIn (line : List Char) : Fault → Prop
  | lex e => Token.scan line = .error e
  | parse e => ∃ tokens, Token.scan line = .ok tokens ∧ Statement.ofTokens tokens = .error e
  | eval e => ∃ s env, Statement.ofLine line = .ok s ∧
      (s.execute env = .error e ∨ ∃ lib bits, s.executePrecise lib env bits = .error e)

/-- The failure of a line without tokens. -/
def noTokens : Fault :=
  parse ⟨⟨0, 0⟩, .empty⟩

/-- What a failure quotes stands in the line. -/
def QuotesIn (line : List Char) : Fault → Prop
  | lex e => e.span.Quotes line (String.ofList [e.char])
  | parse _ => True
  | eval e => e.QuotesIn line

variable {line : List Char}

/-- A failed evaluation of a line's statement marks a part of the line. -/
theorem locatedIn_of_arisesIn {e : EvalError} (h : (eval e).ArisesIn line) :
    e.LocatedIn line := by
  obtain ⟨s, env, hread, herror⟩ := h
  obtain ⟨tokens, hscan, htokens⟩ := Statement.ofLine_eq_ok_iff.mp hread
  have hstands := (Statement.standsIn_of_ofTokens htokens (Token.placedIn_of_scan hscan)).1
  rcases herror with herror | ⟨lib, bits, herror⟩
  · exact Statement.failsOnly_execute env hstands e herror
  · exact Statement.failsOnly_executePrecise lib env bits hstands e herror

/-- Assumes: the line is not so long that the offset behind it has no room in 64 bits. Unless a line
has no tokens, the mark of a failure begins in it and ends at most one character behind it. -/
theorem bounds_of_arisesIn {fault : Fault} (hlength : line.length + 1 < 2 ^ 63)
    (h : fault.ArisesIn line) :
    (0 ≤ fault.span.start ∧ fault.span.start < fault.span.stop ∧
      fault.span.stop ≤ line.length + 1) ∨ fault = noTokens ∧ Token.scan line = .ok [] := by
  cases fault with
  | lex e =>
    have hlies := (Token.quotes_of_scan_error h).toLiesIn
    exact Or.inl ⟨hlies.start_nonneg, hlies.start_lt_stop, Int.le_add_one hlies.stop_le⟩
  | parse e =>
    obtain ⟨tokens, hscan, herror⟩ := h
    by_cases hne : tokens = []
    · subst hne
      cases herror
      exact Or.inr ⟨rfl, hscan⟩
    · have hmarks := Statement.failsOnly_ofTokens hne e herror
      exact Or.inl ((Token.placedIn_of_scan hscan).bounds_of_marks hlength hmarks)
  | eval e =>
    have hlies := (locatedIn_of_arisesIn h).lies
    exact Or.inl ⟨hlies.start_nonneg, hlies.start_lt_stop, Int.le_add_one hlies.stop_le⟩

/-- What a failure of a line quotes stands in the line. -/
theorem quotesIn_of_arisesIn {fault : Fault} (h : fault.ArisesIn line) : fault.QuotesIn line := by
  cases fault with
  | lex e => exact Token.quotes_of_scan_error h
  | parse e => trivial
  | eval e => exact (locatedIn_of_arisesIn h).quotes

/-- Assumes: the line is not so long that the offset behind it has no room in 64 bits. Every failure
of the line marks at least one character, from one of the line to at most one behind it, unless the
line has no tokens. In a report the mark begins left of the margin only if the column where it
begins has no room in 64 bits. What the failure quotes stands in the line. -/
theorem marks_of_arisesIn {fault : Fault} (hlength : line.length + 1 < 2 ^ 63)
    (h : fault.ArisesIn line) :
    (0 ≤ fault.span.start ∧ fault.span.start ≤ fault.span.stop ∧
        fault.span.stop ≤ line.length + 1) ∧
      (fault.span.start < fault.span.stop ∨ fault = noTokens ∧ Token.scan line = .ok []) ∧
      (∀ (p : Palette) (indent : Int), 0 ≤ indent → indent < 2 ^ 63 →
        (p.underline indent fault = .error .leftOfMargin ↔
          2 ^ 63 ≤ indent + fault.span.start)) ∧
      fault.QuotesIn line := by
  have hbounds : 0 ≤ fault.span.start ∧ fault.span.start ≤ fault.span.stop ∧
      fault.span.stop ≤ line.length + 1 := by
    rcases bounds_of_arisesIn hlength h with ⟨hstart, hlt, hstop⟩ | ⟨rfl, -⟩
    · exact ⟨hstart, Int.le_of_lt hlt, hstop⟩
    · exact ⟨Int.le_refl 0, Int.le_refl 0, by simp only [noTokens, span]; omega⟩
  refine ⟨hbounds, ?_, ?_, quotesIn_of_arisesIn h⟩
  · rcases bounds_of_arisesIn hlength h with ⟨-, hlt, -⟩ | hempty
    · exact Or.inl hlt
    · exact Or.inr hempty
  · intro p indent hindent hfits
    exact p.underline_eq_leftOfMargin_iff ⟨hindent, hfits⟩ ⟨hbounds.1, by omega⟩

/-- A line that calls a function with too many arguments. -/
def twoArguments : List Char := "sqrt(x, y)".toList

/-- In the line `sqrt(x, y)` the wrong number of arguments is marked behind the name, up to the
closing parenthesis. -/
theorem marks_of_arisesIn_twoArguments :
    twoArguments.length + 1 < 2 ^ 63 ∧
      (eval ⟨⟨4, 10⟩, .arityMismatch "sqrt" 1 2⟩).ArisesIn twoArguments ∧
      (∀ (p : Palette) (indent : Int), 0 ≤ indent → indent < 2 ^ 63 →
        (p.underline indent (eval ⟨⟨4, 10⟩, .arityMismatch "sqrt" 1 2⟩) = .error .leftOfMargin ↔
          2 ^ 63 ≤ indent + 4)) ∧
      (eval ⟨⟨4, 10⟩, .arityMismatch "sqrt" 1 2⟩).QuotesIn twoArguments := by
  have hlength : twoArguments.length + 1 < 2 ^ 63 := by decide
  have hread : Statement.ofLine twoArguments = .ok (.expression (.call "sqrt" ⟨0, 4⟩
      [.var "x" ⟨5, 6⟩, .var "y" ⟨8, 9⟩] ⟨0, 10⟩)) := by
    cbv
  have harises : (eval ⟨⟨4, 10⟩, .arityMismatch "sqrt" 1 2⟩).ArisesIn twoArguments :=
    ⟨_, Environment.empty, hread, Or.inl rfl⟩
  obtain ⟨-, -, hunderline, hquotes⟩ := marks_of_arisesIn hlength harises
  exact ⟨hlength, harises, hunderline, hquotes⟩

/-- A line with a character that begins no token. -/
def strayDollar : List Char := "1 + $".toList

/-- With the greatest indent of 64 bits, the mark below the stray character of `1 + $` would begin
left of the margin. -/
theorem underline_strayDollar_leftOfMargin :
    (lex ⟨4, '$'⟩).ArisesIn strayDollar ∧ (0 : Int) ≤ 2 ^ 63 - 1 ∧
      (Palette.mk false).underline (2 ^ 63 - 1) (lex ⟨4, '$'⟩) = .error .leftOfMargin := by
  have hscan : Token.scan strayDollar = .error ⟨4, '$'⟩ := by cbv
  exact ⟨hscan, by decide, rfl⟩

end Fault

end Reckoner
