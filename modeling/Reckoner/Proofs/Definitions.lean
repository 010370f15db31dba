import Reckoner.Proofs.History
import Reckoner.Proofs.Layout

/-!
# Definitions are assignments

A definition names a variable and gives the text of an expression. The text is read alone, and an
assignment is refused. A line with the name, an equals sign and the same text is read as a whole,
and is an assignment if its second token is the equals sign and others follow.

The name takes all its letters and the equals sign stands alone, so the tokens of the line are these
two and the tokens of the text at other places (`Token.scan_assignment`). Where tokens stand does
not change what is read from them, nor its value. No expression has an equals sign in it, so a text
that is an assignment, or that begins with an equals sign, is refused behind another one as well
(`Statement.ofTokens_assignment_iff`).

Main statement: a definition succeeds exactly if the line does, and both leave the same session
(`Session.define_iff_run`).
-/

set_option autoImplicit false

namespace Reckoner

namespace Token

/-! ### The same characters at another offset -/

/-- What the scanner finds, without the places of the tokens and of a stray character. -/
def unplacedScan (result : Except LexError (List Token)) : Except Char (List Token) :=
  (result.map (List.map bare)).mapError LexError.char

/-- A token in front loses its place alone. -/
theorem unplacedScan_map_cons (t : Token) (result : Except LexError (List Token)) :
    unplacedScan (result.map (t :: ·)) = (unplacedScan result).map (t.bare :: ·) := by
  cases result <;> rfl

/-- The scanner finds the same tokens, or the same stray character, wherever the characters
stand. -/
theorem unplacedScan_scanFrom (position position' : Nat) (chars : List Char) :
    unplacedScan (scanFrom position chars) = unplacedScan (scanFrom position' chars) := by
  induction hlength : chars.length using Nat.strongRecOn generalizing position position' chars with
  | ind length ih =>
    subst hlength
    cases chars with
    | nil => rw [scanFrom, scanFrom]
    | cons c rest =>
      by_cases hspace : isSpace c = true
      · rw [scanFrom, scanFrom, if_pos hspace, if_pos hspace]
        exact ih rest.length (Nat.lt_succ_self _) _ _ rest rfl
      · cases hlexeme : lexeme? c rest with
        | none =>
          rw [scanFrom, scanFrom, if_neg hspace, if_neg hspace, hlexeme]
          rfl
        | some found =>
          obtain ⟨kind, tail⟩ := found
          obtain ⟨behind, rfl, htakes⟩ := lexeme?_eq_some_iff.mp hlexeme
          have hshorter : behind.length < (c :: (tail ++ behind)).length := by
            rw [List.length_cons, List.length_append]
            omega
          rw [← List.cons_append, scanFrom_append htakes, scanFrom_append htakes,
            unplacedScan_map_cons, unplacedScan_map_cons,
            ih behind.length hshorter _ (position' + (c :: tail).length) behind rfl]
          rfl

/-- Tokens found at one offset are found at any other, with other places. -/
theorem exists_scanFrom {position : Nat} {chars : List Char} {tokens : List Token}
    (h : scanFrom position chars = .ok tokens) (position' : Nat) :
    ∃ tokens', scanFrom position' chars = .ok tokens' ∧ tokens.map bare = tokens'.map bare := by
  have hsame := unplacedScan_scanFrom position position' chars
  rw [h] at hsame
  cases hscan : scanFrom position' chars with
  | error e =>
    rw [hscan] at hsame
    cases hsame
  | ok tokens' =>
    rw [hscan] at hsame
    exact ⟨tokens', rfl, Except.ok.inj hsame⟩

/-- A line with a name and an equals sign in front has these two tokens, and then those of the
rest. -/
theorem scan_assignment {name : List Char} (hname : IsRun isLetter name) (rest : List Char) :
    scan (name ++ '=' :: rest) =
      (scanFrom (name.length + 1) rest).map fun tokens ↦
        ofChars .word 0 name :: ofChars .equals name.length ['='] :: tokens := by
  have hword : Takes .word name ('=' :: rest) := by
    refine .word hname ?_
    rintro c ⟨⟩
    rfl
  have hequals : Takes .equals ['='] rest := .symbol rfl rest
  rw [scan, scanFrom_append hword, ← List.singleton_append, scanFrom_append hequals, Nat.zero_add]
  cases scanFrom (name.length + ['='].length) rest <;> rfl

end Token

/-! ### The same tokens behind a name and an equals sign -/

/-- Tokens from which an expression is read, at other places, are read as one of the same shape. -/
theorem Expr.exists_ofTokens_of_bare {tokens tokens' : List Token} {e : Expr}
    (h : tokens.map Token.bare = tokens'.map Token.bare) (hread : ofTokens tokens = .ok e) :
    ∃ e', ofTokens tokens' = .ok e' ∧ e.shape = e'.shape := by
  have houtline : outline shape (ofTokens tokens) = outline shape (ofTokens tokens') := by
    rw [← outline_ofTokens_bare, h, outline_ofTokens_bare]
  rcases outline_cases houtline with ⟨_, _, hrefused, -⟩ | ⟨_, e', hread', hread'', hshape⟩
  · rw [hread] at hrefused
    cases hrefused
  · obtain rfl := Except.ok.inj (hread.symm.trans hread')
    exact ⟨e', hread'', hshape⟩

/-- No expression is read from tokens with an equals sign. -/
theorem Expr.kind_ne_equals_of_ofTokens {tokens : List Token} {e : Expr}
    (h : ofTokens tokens = .ok e) : ∀ t ∈ tokens, t.kind ≠ .equals := by
  obtain ⟨d, rfl, -⟩ := derivation_of_ofTokens h
  exact d.kind_ne_equals

namespace Statement

/-- A line is an expression exactly if one is read from all its tokens. -/
theorem ofTokens_expression_iff {tokens : List Token} {e : Expr} :
    ofTokens tokens = .ok (.expression e) ↔ Expr.ofTokens tokens = .ok e := by
  constructor
  · intro h
    rcases ofTokens_cases h with ⟨_, hread, ⟨⟩⟩ | ⟨_, _, _, _, -, -, -, -, hassignment⟩
    · exact hread
    · cases hassignment
  · intro h
    rw [ofTokens_expression (Expr.kind_ne_equals_of_ofTokens h), h]
    rfl

/-- A line that begins with a word and an equals sign is an assignment of the expression that is
read from the other tokens, and nothing if none is. -/
theorem ofTokens_assignment_iff {target equals : Token} (htarget : target.kind = .word)
    (hequals : equals.kind = .equals) {value : List Token} {s : Statement} :
    ofTokens (target :: equals :: value) = .ok s ↔
      ∃ e, Expr.ofTokens value = .ok e ∧ s = .assignment target.text target.span e := by
  constructor
  · intro h
    rcases ofTokens_cases h with ⟨e, hread, -⟩ | ⟨_, _, _, e, ⟨⟩, -, -, hread, hs⟩
    · exact absurd hequals (Expr.kind_ne_equals_of_ofTokens hread equals (by simp))
    · exact ⟨e, hread, hs⟩
  · rintro ⟨e, hread, rfl⟩
    have hvalue : value ≠ [] := by
      rintro rfl
      cases hread
    rw [ofTokens_assignment htarget hequals hvalue, hread]
    rfl

variable {name rest : List Char}

/-- What is an expression alone is assigned behind a name and an equals sign. -/
theorem ofLine_assigning_of_expression (hname : Token.IsRun Token.isLetter name) {e : Expr}
    (h : ofLine rest = .ok (.expression e)) :
    ∃ e', ofLine (name ++ '=' :: rest) =
        .ok (.assignment (String.ofList name) ⟨0, name.length⟩ e') ∧ e.shape = e'.shape := by
  obtain ⟨tokens, hscan, hread⟩ := ofLine_eq_ok_iff.mp h
  obtain ⟨tokens', hscan', hbare⟩ := Token.exists_scanFrom hscan (name.length + 1)
  obtain ⟨e', hread', hshape⟩ :=
    Expr.exists_ofTokens_of_bare hbare (ofTokens_expression_iff.mp hread)
  have hline : Token.scan (name ++ '=' :: rest) = .ok
      (.ofChars .word 0 name :: .ofChars .equals name.length ['='] :: tokens') := by
    rw [Token.scan_assignment hname, hscan']
    rfl
  refine ⟨e', ofLine_eq_ok_iff.mpr ⟨_, hline, ?_⟩, hshape⟩
  exact (ofTokens_assignment_iff rfl rfl).mpr ⟨e', hread', by simp [Token.ofChars]⟩

/-- What is read behind a name and an equals sign is assigned to the name, and is an expression
alone. -/
theorem expression_of_ofLine_assigning (hname : Token.IsRun Token.isLetter name) {s : Statement}
    (h : ofLine (name ++ '=' :: rest) = .ok s) :
    ∃ e e', ofLine rest = .ok (.expression e) ∧ e.shape = e'.shape ∧
      s = .assignment (String.ofList name) ⟨0, name.length⟩ e' := by
  obtain ⟨tokens, hscan, hread⟩ := ofLine_eq_ok_iff.mp h
  rw [Token.scan_assignment hname rest] at hscan
  cases hrest : Token.scanFrom (name.length + 1) rest with
  | error e =>
    rw [hrest] at hscan
    cases hscan
  | ok tokens' =>
    rw [hrest] at hscan
    obtain rfl := Except.ok.inj hscan
    obtain ⟨e', hread', rfl⟩ := (ofTokens_assignment_iff rfl rfl).mp hread
    obtain ⟨alone, halone, hbare⟩ := Token.exists_scanFrom hrest 0
    obtain ⟨e, hexpression, hshape⟩ := Expr.exists_ofTokens_of_bare hbare hread'
    refine ⟨e, e', ofLine_eq_ok_iff.mpr ⟨alone, halone, ?_⟩, hshape.symm, ?_⟩
    · exact ofTokens_expression_iff.mpr hexpression
    · simp [Token.ofChars]

end Statement

/-! ### Definitions and lines -/

/-- A step that cannot fail does not see where an earlier one failed. -/
theorem unplaced_map {α β : Type} (result : Except EvalError α) (step : α → β) :
    unplaced (result.map step) = (unplaced result).map step := by
  cases result <;> rfl

/-- The line that assigns the expression of a definition to its name. -/
def Definition.line (d : Definition) : String :=
  d.name ++ "=" ++ d.expr

/-- The characters of a definition's line. -/
theorem Definition.toList_line (d : Definition) :
    d.line.toList = d.name.toList ++ '=' :: d.expr.toList := by
  simp [line]

/-- The line of a definition has an equals sign, so it does not end a session. -/
theorem Definition.trim_line_ne_exit (d : Definition) : Text.trim d.line ≠ "exit" := by
  intro hexit
  have hmem : '=' ∈ Text.trimChars d.line.toList := by
    refine Text.mem_trimChars rfl ?_
    rw [d.toList_line]
    simp
  have htrim : Text.trimChars d.line.toList = "exit".toList := by
    rw [← hexit, Text.trim, String.toList_ofList]
  rw [htrim] at hmem
  exact absurd hmem (by decide)

namespace Session

variable {s : Session} {d : Definition}

/-- The value of an expression at the session's precision depends on places only in a failure. -/
theorem unplaced_valueOf_of_shape {value value' : Expr} (h : value.shape = value'.shape) :
    unplaced (s.valueOf value) = unplaced (s.valueOf value') := by
  unfold valueOf
  split
  · rw [Expr.eval_shape, h, ← Expr.eval_shape]
  · have hprecise : unplaced (value.preciseValue s.library (Format.wide s.precision) s.env) =
        unplaced (value'.preciseValue s.library (Format.wide s.precision) s.env) := by
      rw [Expr.unplaced_preciseValue, h, ← Expr.unplaced_preciseValue]
    rw [unplaced_map, unplaced_map, hprecise]

/-- Expressions of the same shape have the same value at the session's precision. -/
theorem valueOf_of_shape {value value' : Expr} {x : Binary64} (h : value.shape = value'.shape)
    (hvalue : s.valueOf value = .ok x) : s.valueOf value' = .ok x := by
  have hsame := s.unplaced_valueOf_of_shape h
  rw [hvalue] at hsame
  cases hvalue' : s.valueOf value' with
  | error e =>
    rw [hvalue'] at hsame
    cases hsame
  | ok x' =>
    rw [hvalue'] at hsame
    rw [show x = x' from Except.ok.inj hsame]

/-- A definition succeeds exactly if its text is an expression that has a value. -/
theorem succeeds_definition_iff :
    s.Succeeds (.definition d) ↔
      ∃ value x, Statement.ofLine d.expr.toList = .ok (.expression value) ∧
        s.valueOf value = .ok x := by
  simp only [Succeeds, define]
  cases hread : Statement.ofLine d.expr.toList with
  | error fault => simp
  | ok statement =>
    cases statement with
    | assignment target span value => simp
    | expression value => cases hvalue : s.valueOf value <;> simp [hvalue]

/-- A line that reads as no statement, and has tokens, fails. -/
theorem not_succeeds_of_ofLine {text : String} {fault : Fault} (hexit : Text.trim text ≠ "exit")
    (htokens : Token.scan text.toList ≠ .ok [])
    (h : Statement.ofLine text.toList = .error fault) : ¬ s.Succeeds (.line text) := by
  have hrun : s.run text = s.failedTurn text fault := by
    unfold Statement.ofLine at h
    unfold run
    rw [if_neg hexit]
    cases hscan : Token.scan text.toList with
    | error e =>
      rw [hscan] at h
      cases h
      rfl
    | ok tokens =>
      cases tokens with
      | nil => exact absurd hscan htokens
      | cons t rest =>
        cases hread : Statement.ofTokens (t :: rest) with
        | error e =>
          simp only [hscan, hread] at h
          cases h
          simp only [hread]
        | ok statement =>
          simp only [hscan, hread] at h
          cases h
  simp [Succeeds, hrun]

/-- A line that reads as an assignment succeeds exactly if the expression has a value. -/
theorem succeeds_assignment_iff {text name : String} {span : Span} {value : Expr}
    (h : Statement.ofLine text.toList = .ok (.assignment name span value)) :
    s.Succeeds (.line text) ↔ ∃ x, s.valueOf value = .ok x := by
  simp only [Succeeds, run_of_ofLine s (Statement.trim_ne_exit_of_ofLine h) h, statementTurn,
    execute_assignment]
  cases s.valueOf value <;> simp [Except.map]

/-- The line of a definition has tokens. -/
theorem scan_line_ne_nil (hname : Token.IsRun Token.isLetter d.name.toList) :
    Token.scan d.line.toList ≠ .ok [] := by
  rw [d.toList_line, Token.scan_assignment hname]
  cases Token.scanFrom (d.name.toList.length + 1) d.expr.toList <;> simp [Except.map]

/-- The line of a definition succeeds exactly if the definition does. -/
theorem succeeds_line_iff (hname : Token.IsRun Token.isLetter d.name.toList) :
    s.Succeeds (.line d.line) ↔ s.Succeeds (.definition d) := by
  rw [succeeds_definition_iff]
  constructor
  · intro hsucceeds
    cases hread : Statement.ofLine d.line.toList with
    | error fault =>
      exact absurd hsucceeds
        (not_succeeds_of_ofLine d.trim_line_ne_exit (scan_line_ne_nil hname) hread)
    | ok statement =>
      have hline := hread
      rw [d.toList_line] at hline
      obtain ⟨value, value', halone, hshape, rfl⟩ :=
        Statement.expression_of_ofLine_assigning hname hline
      obtain ⟨x, hvalue⟩ := (succeeds_assignment_iff hread).mp hsucceeds
      exact ⟨value, x, halone, valueOf_of_shape hshape.symm hvalue⟩
  · rintro ⟨value, x, halone, hvalue⟩
    obtain ⟨value', hline, hshape⟩ := Statement.ofLine_assigning_of_expression hname halone
    rw [← d.toList_line] at hline
    exact (succeeds_assignment_iff hline).mpr ⟨x, valueOf_of_shape hshape hvalue⟩

/-- A definition that succeeds assigns to its name. -/
theorem assigns_definition {value : Expr} {x : Binary64}
    (hread : Statement.ofLine d.expr.toList = .ok (.expression value))
    (hvalue : s.valueOf value = .ok x) : s.Assigns (.definition d) d.name value :=
  ⟨⟨rfl, hread⟩, succeeds_definition_iff.mpr ⟨value, x, hread, hvalue⟩⟩

/-- A definition that succeeds and its line leave the same session, in which the name has the value
of the expression. -/
theorem after_of_define {next : Session} (hname : Token.IsRun Token.isLetter d.name.toList)
    (h : s.define d = .ok next) :
    ∃ value x, Statement.ofLine d.expr.toList = .ok (.expression value) ∧
      s.valueOf value = .ok x ∧ next = { s with env := s.env.set d.name x } ∧
      (s.run d.line).session = next := by
  have hsucceeds : s.Succeeds (.definition d) := ⟨next, h⟩
  obtain ⟨value, x, hread, hvalue⟩ := succeeds_definition_iff.mp hsucceeds
  obtain ⟨x', hvalue', hafter⟩ := after_of_assigns (assigns_definition hread hvalue)
  obtain rfl := Except.ok.inj (hvalue.symm.trans hvalue')
  have hnext : next = { s with env := s.env.set d.name x } := by
    rw [← hafter, after, h]
  obtain ⟨value', hline, hshape⟩ := Statement.ofLine_assigning_of_expression hname hread
  rw [← d.toList_line, String.ofList_toList] at hline
  have hassigns : s.Assigns (.line d.line) d.name value' :=
    ⟨⟨_, hline⟩, (succeeds_line_iff hname).mpr hsucceeds⟩
  obtain ⟨x', hvalue'', hafter'⟩ := after_of_assigns hassigns
  obtain rfl := Except.ok.inj ((valueOf_of_shape hshape hvalue).symm.trans hvalue'')
  exact ⟨value, x, hread, hvalue, hnext, hafter'.trans hnext.symm⟩

/-- The line of a definition that fails leaves the session as it was. -/
theorem session_run_of_define {e : DefinitionError}
    (hname : Token.IsRun Token.isLetter d.name.toList) (h : s.define d = .error e) :
    (s.run d.line).session = s := by
  refine session_run_of_not_assigns ?_
  intro name value hassigns
  obtain ⟨next, hdefine⟩ := (succeeds_line_iff hname).mp hassigns.succeeds
  rw [h] at hdefine
  cases hdefine

/-- Definitions and assignments agree. In every session, whatever its precision, the definition of
a name by any text succeeds exactly if the line with the name, an equals sign and the text does not
fail. If so, the text is an expression with a value, and both leave the session in which the name
has this value and nothing else has changed; if not, both leave the session as it was.
Assumes: the name is a run of letters. -/
theorem define_iff_run (s : Session) (d : Definition)
    (hname : Token.IsRun Token.isLetter d.name.toList) :
    ((∃ next, s.define d = .ok next) ↔ (s.run d.line).fault? = none) ∧
      (s.run d.line).session = s.after (.definition d) ∧
      (∀ next, s.define d = .ok next →
        ∃ value x, Statement.ofLine d.expr.toList = .ok (.expression value) ∧
          s.valueOf value = .ok x ∧ (s.run d.line).session = next ∧
          next = { s with env := s.env.set d.name x }) ∧
      ∀ e, s.define d = .error e →
        (s.run d.line).session = s ∧ s.after (.definition d) = s := by
  refine ⟨(succeeds_line_iff hname).symm, ?_, ?_, ?_⟩
  · cases hdefine : s.define d with
    | error e => rw [session_run_of_define hname hdefine, after, hdefine]
    | ok next =>
      obtain ⟨_, _, -, -, -, hrun⟩ := after_of_define hname hdefine
      rw [hrun, after, hdefine]
  · intro next hdefine
    obtain ⟨value, x, hread, hvalue, hnext, hrun⟩ := after_of_define hname hdefine
    exact ⟨value, x, hread, hvalue, hrun, hnext⟩
  · intro e hdefine
    exact ⟨session_run_of_define hname hdefine, by rw [after, hdefine]⟩

/-- Where only `x` has a value, defining `y` by `x` and running `y=x` give it to `y`. Defining `y`
by the assignment `x=x` fails, and so does the line `y=x=x`, which changes nothing. -/
theorem define_iff_run_onlyX :
    Token.IsRun Token.isLetter "y".toList ∧
      (∃ next, onlyX.define ⟨"y", "x"⟩ = .ok next ∧ (onlyX.run "y=x").session = next ∧
        next = { onlyX with env := onlyX.env.set "y" Binary64.zero }) ∧
      (onlyX.run "y=x=x").fault? ≠ none ∧ (onlyX.run "y=x=x").session = onlyX := by
  have hname : Token.IsRun Token.isLetter "y".toList := ⟨by simp, by simp; rfl⟩
  have hread : Statement.ofLine "x".toList = .ok (.expression (.var "x" ⟨0, 1⟩)) := by cbv
  have hzero : onlyX.valueOf (.var "x" ⟨0, 1⟩) = .ok Binary64.zero := by
    simp [onlyX, valueOf, Expr.eval]
  have hinner : Statement.ofLine "x=x".toList =
      .ok (.assignment "x" ⟨0, 1⟩ (.var "x" ⟨2, 3⟩)) := by
    cbv
  have hrefused : onlyX.define ⟨"y", "x=x"⟩ = .error (.noResult "y") := by
    simp only [define, hinner]
  obtain ⟨next, hdefine⟩ : onlyX.Succeeds (.definition ⟨"y", "x"⟩) :=
    succeeds_definition_iff.mpr ⟨_, _, hread, hzero⟩
  obtain ⟨-, -, hok, -⟩ := define_iff_run onlyX ⟨"y", "x"⟩ hname
  obtain ⟨value, x, hread', hvalue, hrun, hnext⟩ := hok next hdefine
  cases hread.symm.trans hread'
  cases hzero.symm.trans hvalue
  obtain ⟨hiff, -, -, herror⟩ := define_iff_run onlyX ⟨"y", "x=x"⟩ hname
  refine ⟨hname, ⟨next, hdefine, hrun, hnext⟩, ?_, (herror _ hrefused).1⟩
  intro hfault
  obtain ⟨next', hdefine'⟩ := hiff.mpr hfault
  cases hrefused.symm.trans hdefine'

end Session

end Reckoner
