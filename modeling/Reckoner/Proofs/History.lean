import Reckoner.Proofs.Placement
import Reckoner.Session.Basic

/-!
# What a session remembers

The steps of a session are lines that are run and definitions that are made. A step assigns to a
name if it reads as an assignment of an expression, or defines the name by one, and does not fail.

Such a step stores one number, the value of its expression in the session just before it
(`Session.after_of_assigns`), and every other step leaves the whole session as it was
(`Session.after_of_not_assigns`): a line or a definition that fails in any way, an expression, a
line without tokens, the line that ends the session, a definition by an assignment. The line that
ends the session is no assignment because it has no equals sign in it, however it is surrounded by
white space.

Main statement: after all steps, every name has the value that the last step assigning to it gave
it, and the value it began with if there is no such step (`Session.lookup?_afterAll`).
-/

set_option autoImplicit false

namespace Reckoner

/-! ### Lines with an equals sign -/

/-- Only white space is trimmed. -/
theorem Text.mem_trimChars {c : Char} {chars : List Char} (hc : isBlank c = false)
    (hmem : c ∈ chars) : c ∈ trimChars chars := by
  have hkept : ∀ {l : List Char}, c ∈ l → c ∈ l.dropWhile isBlank := by
    intro l hl
    rw [← List.takeWhile_append_dropWhile (p := isBlank) (l := l), List.mem_append] at hl
    refine hl.resolve_left fun hfront ↦ ?_
    have hblank := List.all_eq_true.mp List.all_takeWhile c hfront
    rw [hc] at hblank
    cases hblank
  exact List.mem_reverse.mpr (hkept (List.mem_reverse.mpr (hkept hmem)))

/-- What is quoted from a line is in the line. -/
theorem Span.Quotes.subset {line : List Char} {s : Span} {text : String} (h : s.Quotes line text) :
    text.toList ⊆ line := by
  rw [← h.textIn_eq]
  exact List.Subset.trans (List.drop_subset _ _) (List.take_subset _ _)

namespace Statement

variable {line : List Char} {name : String} {span : Span} {value : Expr}

/-- A line that reads as an assignment has an equals sign in it. -/
theorem equals_mem_of_ofLine (h : ofLine line = .ok (.assignment name span value)) :
    '=' ∈ line := by
  obtain ⟨tokens, hscan, hread⟩ := ofLine_eq_ok_iff.mp h
  rcases ofTokens_cases hread with
    ⟨_, _, hexpression⟩ | ⟨target, equals, rest, _, rfl, _, hequals, _, _⟩
  · cases hexpression
  · have hstands : equals.StandsIn line :=
      (Token.placedIn_of_scan hscan).stands equals (by simp)
    have htext : equals.text = String.ofList ['='] :=
      hstands.lexeme.text_eq (by rw [hequals]; rfl)
    have hsubset := hstands.quotes.subset
    rw [htext, String.toList_ofList] at hsubset
    exact hsubset List.mem_cons_self

/-- The line that ends a session is no assignment. -/
theorem trim_ne_exit_of_ofLine {text : String}
    (h : ofLine text.toList = .ok (.assignment name span value)) : Text.trim text ≠ "exit" := by
  intro hexit
  have hmem : '=' ∈ Text.trimChars text.toList :=
    Text.mem_trimChars rfl (equals_mem_of_ofLine h)
  rw [← String.toList_ofList (l := Text.trimChars text.toList)] at hmem
  change '=' ∈ (Text.trim text).toList at hmem
  rw [hexit] at hmem
  exact absurd hmem (by decide)

end Statement

namespace Session

/-! ### Steps -/

/-- A step of a session. -/
inductive Step where
  | line (text : String)
  | definition (d : Definition)

/-- The session after a step; a definition that fails gives no new one. -/
def after (s : Session) : Step → Session
  | .line text => (s.run text).session
  | .definition d =>
    match s.define d with
    | .ok next => next
    | .error _ => s

/-- The session after several steps. -/
def afterAll (s : Session) (steps : List Step) : Session :=
  steps.foldl after s

/-- Whether a step ends without a failure. -/
def Succeeds (s : Session) : Step → Prop
  | .line text => (s.run text).fault? = none
  | .definition d => ∃ next, s.define d = .ok next

/-- A step is written as an assignment: a line that reads as one, or a definition by an
expression. -/
def Step.Sets (name : String) (value : Expr) : Step → Prop
  | .line text => ∃ span, Statement.ofLine text.toList = .ok (.assignment name span value)
  | .definition d => d.name = name ∧ Statement.ofLine d.expr.toList = .ok (.expression value)

/-- A step is an assignment of an expression to a name, and succeeds. -/
structure Assigns (s : Session) (step : Step) (name : String) (value : Expr) : Prop where
  sets : step.Sets name value
  succeeds : s.Succeeds step

/-- No one of several steps assigns to a name. -/
def NeverAssigns (s : Session) (steps : List Step) (name : String) : Prop :=
  ∀ front step behind, steps = front ++ step :: behind →
    ∀ value, ¬ (s.afterAll front).Assigns step name value

variable (s : Session)

/-! ### One step -/

/-- An assignment stores the value of its expression at the session's precision. -/
theorem execute_assignment (name : String) (span : Span) (value : Expr) :
    s.execute (.assignment name span value) =
      (s.valueOf value).map fun x ↦ (s.env.set name x, none) := by
  unfold execute valueOf
  split
  · simp only [Statement.execute]
    cases value.eval s.env <;> rfl
  · simp only [Statement.executePrecise]
    cases value.preciseValue s.library (Format.wide s.precision) s.env <;> rfl

/-- An expression stores nothing. -/
theorem env_of_execute_expression {s : Session} {value : Expr} {env : Environment}
    {result? : Option Written} (h : s.execute (.expression value) = .ok (env, result?)) :
    env = s.env := by
  unfold execute at h
  split at h
  · simp only [Statement.execute] at h
    cases hvalue : value.eval s.env with
    | error e => simp [hvalue, bind, Except.bind, Except.map] at h
    | ok x =>
      rw [hvalue] at h
      exact (Prod.mk.inj (Except.ok.inj h)).1.symm
  · simp only [Statement.executePrecise] at h
    cases hvalue : value.preciseValue s.library (Format.wide s.precision) s.env with
    | error e => simp [hvalue, bind, Except.bind, Except.map] at h
    | ok x =>
      rw [hvalue] at h
      exact (Prod.mk.inj (Except.ok.inj h)).1.symm

/-- A line that fails leaves the session as it was. -/
@[simp] theorem session_failedTurn (text : String) (fault : Fault) :
    (s.failedTurn text fault).session = s := by
  unfold failedTurn
  split <;> rfl

/-- A line that fails says so. -/
@[simp] theorem fault?_failedTurn (text : String) (fault : Fault) :
    (s.failedTurn text fault).fault? = some fault := by
  unfold failedTurn
  split <;> rfl

/-- A line that does not end the session is executed as the statement it reads as. -/
theorem run_of_ofLine {text : String} {statement : Statement} (hexit : Text.trim text ≠ "exit")
    (h : Statement.ofLine text.toList = .ok statement) :
    s.run text = s.statementTurn text statement := by
  obtain ⟨tokens, hscan, hread⟩ := Statement.ofLine_eq_ok_iff.mp h
  cases tokens with
  | nil => cases hread
  | cons t rest => simp only [run, hexit, if_false, hscan, hread]

variable {s} {step : Step} {name : String} {value : Expr}

/-- A step that assigns to a name stores the value that its expression has before the step. -/
theorem after_of_assigns (h : s.Assigns step name value) :
    ∃ x, s.valueOf value = .ok x ∧ s.after step = { s with env := s.env.set name x } := by
  obtain ⟨hsets, hsucceeds⟩ := h
  cases step with
  | line text =>
    obtain ⟨span, hread⟩ := hsets
    have hrun := s.run_of_ofLine (Statement.trim_ne_exit_of_ofLine hread) hread
    simp only [Succeeds, after, hrun, statementTurn, execute_assignment] at hsucceeds ⊢
    cases hvalue : s.valueOf value with
    | error e => simp [hvalue, Except.map] at hsucceeds
    | ok x => exact ⟨x, rfl, rfl⟩
  | definition d =>
    obtain ⟨rfl, hread⟩ := hsets
    obtain ⟨next, hdefine⟩ := hsucceeds
    simp only [after, define, hread] at hdefine ⊢
    cases hvalue : s.valueOf value with
    | error e => simp [hvalue] at hdefine
    | ok x => exact ⟨x, rfl, rfl⟩

/-- A line that does not assign leaves the session as it was. -/
theorem session_run_of_not_assigns {text : String}
    (h : ∀ name value, ¬ s.Assigns (.line text) name value) : (s.run text).session = s := by
  unfold run
  split
  · rfl
  · rename_i hexit
    split
    · exact s.session_failedTurn _ _
    · rfl
    · rename_i tokens _ hscan
      split
      · exact s.session_failedTurn _ _
      · rename_i statement hread
        have hline : Statement.ofLine text.toList = .ok statement :=
          Statement.ofLine_eq_ok_iff.mpr ⟨tokens, hscan, hread⟩
        unfold statementTurn
        split
        · exact s.session_failedTurn _ _
        · rename_i env result? hexecute
          cases statement with
          | expression value => rw [env_of_execute_expression hexecute]
          | assignment name span value =>
            refine absurd ⟨⟨span, hline⟩, ?_⟩ (h name value)
            simp only [Succeeds, s.run_of_ofLine hexit hline, statementTurn, hexecute]

/-- A step that does not assign leaves the session as it was. -/
theorem after_of_not_assigns (h : ∀ name value, ¬ s.Assigns step name value) :
    s.after step = s := by
  cases step with
  | line text => exact session_run_of_not_assigns h
  | definition d =>
    cases hread : Statement.ofLine d.expr.toList with
    | error fault => simp only [after, define, hread]
    | ok statement =>
      cases statement with
      | assignment target span value => simp only [after, define, hread]
      | expression value =>
        cases hvalue : s.valueOf value with
        | error e => simp only [after, define, hread, hvalue]
        | ok x =>
          refine absurd ⟨⟨rfl, hread⟩, ⟨{ s with env := s.env.set d.name x }, ?_⟩⟩ (h d.name value)
          simp only [define, hread, hvalue]

/-- Every step assigns or leaves the session as it was. -/
theorem after_cases (s : Session) (step : Step) :
    (∃ name value x, s.Assigns step name value ∧ s.valueOf value = .ok x ∧
        s.after step = { s with env := s.env.set name x }) ∨
      s.after step = s := by
  rcases Classical.em (∃ name value, s.Assigns step name value) with ⟨name, value, h⟩ | h
  · obtain ⟨x, hvalue, hafter⟩ := after_of_assigns h
    exact Or.inl ⟨name, value, x, h, hvalue, hafter⟩
  · exact Or.inr (after_of_not_assigns fun name value hassigns ↦ h ⟨name, value, hassigns⟩)

/-- A step that does not assign to a name leaves its value as it was. -/
theorem lookup?_after (h : ∀ value, ¬ s.Assigns step name value) :
    (s.after step).env.lookup? name = s.env.lookup? name := by
  rcases s.after_cases step with ⟨other, value, x, hassigns, -, hafter⟩ | hafter
  · have hne : name ≠ other := by
      rintro rfl
      exact h value hassigns
    rw [hafter]
    exact s.env.lookup?_set_of_ne hne x
  · rw [hafter]

/-- A name that has a value has one after a step. -/
theorem isSome_lookup?_after (h : (s.env.lookup? name).isSome) (step : Step) :
    ((s.after step).env.lookup? name).isSome := by
  rcases s.after_cases step with ⟨other, value, x, -, -, hafter⟩ | hafter
  · rw [hafter]
    rcases Classical.em (name = other) with rfl | hne
    · simp
    · simpa [s.env.lookup?_set_of_ne hne x] using h
  · rwa [hafter]

/-! ### All steps -/

/-- Steps are taken from the first to the last. -/
theorem afterAll_cons (s : Session) (step : Step) (steps : List Step) :
    s.afterAll (step :: steps) = (s.after step).afterAll steps :=
  rfl

/-- Further steps go on from the session after the first ones. -/
theorem afterAll_append (s : Session) (front behind : List Step) :
    s.afterAll (front ++ behind) = (s.afterAll front).afterAll behind :=
  List.foldl_append

/-- Without steps nothing is assigned. -/
theorem neverAssigns_nil (s : Session) (name : String) : s.NeverAssigns [] name := by
  intro front step behind hsteps
  simp at hsteps

/-- No step assigns to a name if the first one does not and no later one. -/
theorem neverAssigns_cons {steps : List Step} :
    s.NeverAssigns (step :: steps) name ↔
      (∀ value, ¬ s.Assigns step name value) ∧ (s.after step).NeverAssigns steps name := by
  constructor
  · intro h
    refine ⟨h [] step steps rfl, ?_⟩
    intro front later behind hsteps
    exact h (step :: front) later behind (by rw [hsteps]; rfl)
  · rintro ⟨hfirst, hrest⟩ front later behind hsteps
    cases front with
    | nil =>
      obtain ⟨rfl, -⟩ := List.cons.inj hsteps
      exact hfirst
    | cons earlier front =>
      obtain ⟨rfl, htail⟩ := List.cons.inj hsteps
      exact hrest front later behind htail

/-- Steps that do not assign to a name leave its value as it was. -/
theorem lookup?_afterAll_of_neverAssigns {steps : List Step} (h : s.NeverAssigns steps name) :
    (s.afterAll steps).env.lookup? name = s.env.lookup? name := by
  induction steps generalizing s with
  | nil => rfl
  | cons step steps ih =>
    obtain ⟨hfirst, hrest⟩ := neverAssigns_cons.mp h
    rw [afterAll_cons, ih hrest, lookup?_after hfirst]

/-- A name that has a value has one after all steps. -/
theorem isSome_lookup?_afterAll (h : (s.env.lookup? name).isSome) (steps : List Step) :
    ((s.afterAll steps).env.lookup? name).isSome := by
  induction steps generalizing s with
  | nil => exact h
  | cons step steps ih => exact ih (isSome_lookup?_after h step)

/-- Steps change nothing of a session but its environment. -/
theorem afterAll_eq (s : Session) (steps : List Step) :
    s.afterAll steps = { s with env := (s.afterAll steps).env } := by
  induction steps generalizing s with
  | nil => rfl
  | cons step steps ih =>
    rw [afterAll_cons, ih]
    rcases s.after_cases step with ⟨other, value, x, -, -, hafter⟩ | hafter <;> rw [hafter]

/-- After any steps from any session, a name has the value that the last step assigning to it gave
it, which is the value of that step's expression in the session just before, and the value it began
with if no step assigns to it. A step that assigns to no name leaves the session as it was, and a
name that has a value keeps having one. Nothing but the environment changes. -/
theorem lookup?_afterAll (s : Session) (steps : List Step) :
    (∀ name value front step behind, steps = front ++ step :: behind →
      (s.afterAll front).Assigns step name value →
      (s.afterAll (front ++ [step])).NeverAssigns behind name →
      ∃ x, (s.afterAll front).valueOf value = .ok x ∧
        (s.afterAll steps).env.lookup? name = some x) ∧
    (∀ name, s.NeverAssigns steps name →
      (s.afterAll steps).env.lookup? name = s.env.lookup? name) ∧
    (∀ front step behind, steps = front ++ step :: behind →
      (∀ name value, ¬ (s.afterAll front).Assigns step name value) →
      s.afterAll (front ++ [step]) = s.afterAll front) ∧
    (∀ name, (s.env.lookup? name).isSome → ((s.afterAll steps).env.lookup? name).isSome) ∧
    s.afterAll steps = { s with env := (s.afterAll steps).env } := by
  have hlast : ∀ front step, s.afterAll (front ++ [step]) = (s.afterAll front).after step :=
    fun front step ↦ s.afterAll_append front [step]
  refine ⟨?_, fun name ↦ lookup?_afterAll_of_neverAssigns, ?_,
    fun name h ↦ isSome_lookup?_afterAll h steps, s.afterAll_eq steps⟩
  · rintro name value front step behind rfl hassigns hnever
    obtain ⟨x, hvalue, hafter⟩ := after_of_assigns hassigns
    refine ⟨x, hvalue, ?_⟩
    rw [List.append_cons, afterAll_append, lookup?_afterAll_of_neverAssigns hnever, hlast, hafter]
    exact Environment.lookup?_set_self _ name x
  · rintro front step behind rfl hnot
    rw [hlast, after_of_not_assigns hnot]

/-- A batch session in which only `x` has a value. -/
def onlyX : Session :=
  ⟨Environment.empty.set "x" Binary64.zero, ⟨false⟩, "", 0, false, false, 0, Library.standard⟩

/-- Where only `x` has a value, `y = x` gives it to `y`, and neither the failing `y = z` nor the
definition of `y` by the assignment `x = y` changes it. -/
theorem lookup?_afterAll_onlyX :
    onlyX.Assigns (.line "y = x") "y" (.var "x" ⟨4, 5⟩) ∧
      (onlyX.after (.line "y = x")).NeverAssigns [.line "y = z", .definition ⟨"y", "x = y"⟩] "y" ∧
      (onlyX.afterAll
        [.line "y = x", .line "y = z", .definition ⟨"y", "x = y"⟩]).env.lookup? "y" =
          some Binary64.zero := by
  have hread : Statement.ofLine "y = x".toList =
      .ok (.assignment "y" ⟨0, 1⟩ (.var "x" ⟨4, 5⟩)) := by
    cbv
  have hzero : onlyX.valueOf (.var "x" ⟨4, 5⟩) = .ok Binary64.zero := by
    simp [onlyX, valueOf, Expr.eval]
  have hassigns : onlyX.Assigns (.line "y = x") "y" (.var "x" ⟨4, 5⟩) := by
    refine ⟨⟨⟨0, 1⟩, hread⟩, ?_⟩
    rw [Succeeds, run_of_ofLine _ (Statement.trim_ne_exit_of_ofLine hread) hread, statementTurn,
      execute_assignment, hzero]
    rfl
  have hnever : (onlyX.after (.line "y = x")).NeverAssigns
      [.line "y = z", .definition ⟨"y", "x = y"⟩] "y" := by
    have hundefined : (onlyX.after (.line "y = x")).valueOf (.var "z" ⟨4, 5⟩) =
        .error ⟨⟨4, 5⟩, .undefinedVariable "z"⟩ := by
      obtain ⟨x, -, hafter⟩ := after_of_assigns hassigns
      rw [hafter]
      rfl
    have hfailing : Statement.ofLine "y = z".toList =
        .ok (.assignment "y" ⟨0, 1⟩ (.var "z" ⟨4, 5⟩)) := by
      cbv
    have hinner : Statement.ofLine "x = y".toList =
        .ok (.assignment "x" ⟨0, 1⟩ (.var "y" ⟨4, 5⟩)) := by
      cbv
    refine neverAssigns_cons.mpr ⟨?_, neverAssigns_cons.mpr ⟨?_, neverAssigns_nil _ _⟩⟩
    · intro value h
      obtain ⟨span, hsets⟩ := h.sets
      cases hfailing.symm.trans hsets
      obtain ⟨x, hvalue, -⟩ := after_of_assigns h
      cases hundefined.symm.trans hvalue
    · intro value h
      cases hinner.symm.trans h.sets.2
  obtain ⟨x, hvalue, hlookup⟩ :=
    (lookup?_afterAll onlyX _).1 "y" _ [] (.line "y = x") _ rfl hassigns hnever
  cases hzero.symm.trans hvalue
  exact ⟨hassigns, hnever, hlookup⟩

end Session

end Reckoner
