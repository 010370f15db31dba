import Mathlib.Data.List.Forall2
import Reckoner.Evaluation.Storage
import Reckoner.Proofs.CanonicalForm
import Reckoner.Proofs.MaximalMunch
import Reckoner.Proofs.PositionalReading

/-!
# Layout does not matter

The tokens of a line can be written down again with one space between any two of them. The line that
comes out has the same tokens at other places, for a space ends every token.

Where tokens stand is seen only in spans. A token without its place is bare (`Token.bare`), and
matching parentheses, dividing items at an operator and cutting arguments at commas treat bare
tokens as they treat the others (`Nested.nestFrom_bare`, `Nested.divideFrom_bare`,
`Nested.segmentsFrom_bare`). So reading bare tokens gives the same shape or the same fault
(`Expr.outline_ofNested_bare`), and evaluation sees the shape of an expression only, wide evaluation
too (`Expr.unplaced_evalPrecise`).

Main statement: `Statement.layout_irrelevant`.
-/

set_option autoImplicit false

namespace Reckoner

/-! ### Tokens with single spaces between them -/

namespace Token

variable {kind : TokenKind} {chars behind : List Char}

/-- A space ends every token, and so does the end of the line. -/
theorem Takes.of_space {behind' : List Char} (h : Takes kind chars behind)
    (hspace : ∀ c ∈ behind'.head?, c = ' ') : Takes kind chars behind' := by
  refine h.of_behind ?_ ?_
  · intro c hc
    rw [hspace c hc]
    exact Or.inr ⟨rfl, rfl, by decide⟩
  · rintro d further rfl
    exact absurd (hspace '.' rfl) (by decide)

/-- A token is the same as one of the same kind and text at another place. -/
theorem same_ofChars (t : Token) (position : Nat) :
    t.same (ofChars t.kind position t.text.toList) = true := by
  simp [same, ofChars]

/-- The texts of tokens with single spaces between them are scanned to the same tokens. -/
theorem scanFrom_intercalate {tokens : List Token}
    (h : ∀ t ∈ tokens, ∃ behind, Takes t.kind t.text.toList behind) (position : Nat) :
    ∃ tokens',
      scanFrom position ([' '].intercalate (tokens.map fun t ↦ t.text.toList)) = .ok tokens' ∧
        List.Forall₂ (fun a b ↦ a.same b = true) tokens tokens' := by
  induction tokens generalizing position with
  | nil => exact ⟨[], by rw [List.map_nil, List.intercalate_nil, scanFrom], .nil⟩
  | cons t rest ih =>
    obtain ⟨⟨behind, htakes⟩, hrest⟩ := List.forall_mem_cons.mp h
    cases rest with
    | nil =>
      have hend : Takes t.kind t.text.toList [] := htakes.of_space (by simp)
      have hscan := scanFrom_append hend position
      rw [List.append_nil, scanFrom] at hscan
      rw [List.map_cons, List.map_nil, List.intercalate_singleton]
      exact ⟨_, hscan, .cons (t.same_ofChars position) .nil⟩
    | cons next further =>
      obtain ⟨tokens', hscan', hsame⟩ := ih hrest (position + t.text.toList.length + 1)
      rw [List.map_cons] at hscan'
      rw [List.map_cons, List.map_cons, List.intercalate_cons_cons, List.append_assoc,
        List.singleton_append]
      have hspaced : Takes t.kind t.text.toList
          (' ' :: [' '].intercalate (next.text.toList :: further.map fun t ↦ t.text.toList)) := by
        refine htakes.of_space ?_
        rintro c ⟨⟩
        rfl
      refine ⟨ofChars t.kind position t.text.toList :: tokens', ?_,
        .cons (t.same_ofChars position) hsame⟩
      rw [scanFrom_append hspaced, scanFrom, if_pos (by rfl), hscan']
      rfl

/-- The tokens of a line, written with single spaces between them, are the tokens of that line. -/
theorem exists_scan_intercalate {line : List Char} {tokens : List Token}
    (h : scan line = .ok tokens) :
    ∃ tokens', scan (" ".intercalate (tokens.map Token.text)).toList = .ok tokens' ∧
      List.Forall₂ (fun a b ↦ a.same b = true) tokens tokens' := by
  have hmunches := scan_eq_ok_iff.mp h
  rw [String.toList_intercalate, List.map_map]
  exact scanFrom_intercalate (fun t ht ↦ ⟨_, hmunches.takes t ht⟩) 0

/-! ### Tokens without places -/

/-- A token without its place. -/
def bare (t : Token) : Token :=
  ⟨t.kind, t.text, ⟨0, 0⟩⟩

/-- Tokens are the same if they are equal without their places. -/
theorem same_iff_bare {a b : Token} : a.same b = true ↔ a.bare = b.bare := by
  simp [same, bare]

/-- Lists of the same tokens are equal without places. -/
theorem map_bare_of_same {tokens tokens' : List Token}
    (h : List.Forall₂ (fun a b ↦ a.same b = true) tokens tokens') :
    tokens.map bare = tokens'.map bare := by
  induction h with
  | nil => rfl
  | cons hsame _ ih => rw [List.map_cons, List.map_cons, same_iff_bare.mp hsame, ih]

end Token

namespace Nested

mutual

/-- An item without the places of its tokens. -/
def bare : Nested → Nested
  | single t => single t.bare
  | group opening inner closing => group opening.bare (bareAll inner) closing.bare

/-- Items without the places of their tokens. -/
def bareAll : List Nested → List Nested
  | [] => []
  | item :: rest => item.bare :: bareAll rest

end

/-- Places are lost item by item. -/
theorem bareAll_eq_map (items : List Nested) : bareAll items = items.map bare := by
  induction items with
  | nil => rfl
  | cons item rest ih => rw [bareAll, List.map_cons, ih]

/-- Items without places are empty if the items are. -/
@[simp] theorem isEmpty_bareAll (items : List Nested) :
    (bareAll items).isEmpty = items.isEmpty := by
  cases items <;> rfl

/-- Items without places, last first. -/
theorem reverse_bareAll (items : List Nested) :
    (bareAll items).reverse = bareAll items.reverse := by
  rw [bareAll_eq_map, bareAll_eq_map, List.map_reverse]

/-- Parentheses that do not match, without their places. -/
def Mismatch.bare : Mismatch → Mismatch
  | redundant closing => redundant closing.bare
  | missing => missing

/-- Matching parentheses does not see where they stand. -/
theorem nestFrom_bare (outer : List (Token × List Nested)) (items : List Nested)
    (tokens : List Token) :
    nestFrom (outer.map fun level ↦ (level.1.bare, bareAll level.2)) (bareAll items)
        (tokens.map Token.bare) =
      ((nestFrom outer items tokens).map bareAll).mapError Mismatch.bare := by
  induction tokens generalizing outer items with
  | nil =>
    cases outer with
    | nil => simp [nestFrom, bareAll_eq_map, Except.map, Except.mapError]
    | cons level outer => rfl
  | cons t rest ih =>
    rw [List.map_cons]
    by_cases hopen : t.kind = .openParen
    · have hbare : t.bare.kind = .openParen := hopen
      rw [nestFrom_open hopen, nestFrom_open hbare, ← ih]
      rfl
    by_cases hclose : t.kind = .closeParen
    · have hbare : t.bare.kind = .closeParen := hclose
      cases outer with
      | nil =>
        rw [nestFrom_redundant hclose, List.map_nil, nestFrom_redundant hbare]
        rfl
      | cons level outer =>
        obtain ⟨opening, before⟩ := level
        rw [nestFrom_close hclose, List.map_cons, nestFrom_close hbare, ← ih]
        simp [bareAll, bare, bareAll_eq_map]
    · have hopen' : t.bare.kind ≠ .openParen := hopen
      have hclose' : t.bare.kind ≠ .closeParen := hclose
      rw [nestFrom_single hopen hclose, nestFrom_single hopen' hclose', ← ih]
      rfl

/-- A place to divide items, without the places of their tokens. -/
def Division.bare (d : Division) : Division :=
  ⟨bareAll d.before, d.token.bare, d.op, bareAll d.behind⟩

/-- Which of two divisions is better does not depend on where their tokens stand. -/
theorem Division.choose_bare (best : Option Division) (here : Division) :
    Division.choose (best.map bare) here.bare = (Division.choose best here).bare := by
  cases best with
  | none => rfl
  | some best =>
    by_cases hbetter : here.op.precedence ≤ best.op.precedence
    · simp [Division.choose, bare, hbetter]
    · simp [Division.choose, bare, hbetter]

/-- Dividing items does not see where their tokens stand. -/
theorem divideFrom_bare (afterOperator : Bool) (passed : List Nested) (best : Option Division)
    (rest : List Nested) :
    divideFrom afterOperator (bareAll passed) (best.map Division.bare) (bareAll rest) =
      (divideFrom afterOperator passed best rest).map Division.bare := by
  induction rest generalizing afterOperator passed best with
  | nil => rfl
  | cons item rest ih =>
    have hpass (next : Bool) (best : Option Division) :
        divideFrom next (item.bare :: bareAll passed) (best.map Division.bare) (bareAll rest) =
          (divideFrom next (item :: passed) best rest).map Division.bare :=
      ih next (item :: passed) best
    cases item with
    | group opening inner closing => exact hpass false best
    | single t =>
      have hkind : t.bare.kind = t.kind := rfl
      simp only [bareAll, bare] at hpass ⊢
      simp only [divideFrom, operator?, hkind]
      cases t.kind.operator? with
      | none => exact hpass false best
      | some op =>
        dsimp only [Option.map_some]
        split
        · exact hpass true best
        · have hchoose := Division.choose_bare best ⟨passed, t, op, rest⟩
          rw [← hpass true (some _), Option.map_some, ← hchoose]
          rfl

/-- The best place to divide items is the same without places. -/
theorem divide?_bare (items : List Nested) :
    divide? (bareAll items) = (divide? items).map Division.bare :=
  divideFrom_bare false [] none items

/-- An argument without the places of its tokens. -/
def Segment.bare (segment : Segment) : Segment :=
  ⟨segment.before.bare, bareAll segment.items⟩

/-- Cutting arguments does not see where the commas stand. -/
theorem segmentsFrom_bare (before : Token) (current inner : List Nested) :
    segmentsFrom before.bare (bareAll current) (bareAll inner) =
      (segmentsFrom before current inner).map Segment.bare := by
  induction inner generalizing before current with
  | nil => simp [segmentsFrom, bareAll, Segment.bare, bareAll_eq_map]
  | cons item rest ih =>
    have hpass : segmentsFrom before.bare (item.bare :: bareAll current) (bareAll rest) =
        (segmentsFrom before (item :: current) rest).map Segment.bare :=
      ih before (item :: current)
    cases item with
    | group opening inside closing => exact hpass
    | single t =>
      have hkind : t.bare.kind = t.kind := rfl
      simp only [bareAll, bare] at hpass ⊢
      simp only [segmentsFrom, hkind]
      split
      · have hnext := ih t []
        rw [bareAll] at hnext
        rw [hnext]
        simp [Segment.bare, bareAll_eq_map]
      · exact hpass

/-- The arguments of a call are the same without places. -/
theorem segments_bare (opening : Token) (inner : List Nested) :
    segments opening.bare (bareAll inner) = (segments opening inner).map Segment.bare := by
  cases inner with
  | nil => rfl
  | cons item rest => exact segmentsFrom_bare opening [] (item :: rest)

end Nested

/-! ### Reading without places -/

/-- What is read, in a form without places, or the fault without its place. -/
def outline {α β : Type} (form : α → β) (result : Except ParseError α) : Except ParseFault β :=
  (result.map form).mapError ParseError.fault

/-- Results with the same outline are faults of the same kind, or are both read, in the same
form. -/
theorem outline_cases {α β : Type} {form : α → β} {result result' : Except ParseError α}
    (h : outline form result = outline form result') :
    (∃ e e', result = .error e ∧ result' = .error e' ∧ e.fault = e'.fault) ∨
      ∃ x x', result = .ok x ∧ result' = .ok x' ∧ form x = form x' := by
  cases result with
  | error e =>
    cases result' with
    | error e' => exact Or.inl ⟨e, e', rfl, rfl, Except.error.inj h⟩
    | ok x' => cases h
  | ok x =>
    cases result' with
    | error e' => cases h
    | ok x' => exact Or.inr ⟨x, x', rfl, rfl, Except.ok.inj h⟩

/-- Faults with the same description. -/
theorem outline_error {α β : Type} {form : α → β} {e e' : ParseError} (h : e.fault = e'.fault) :
    outline form (.error e : Except ParseError α) = outline form (.error e') :=
  congrArg Except.error h

/-- Steps that have the same outline one by one have it together. -/
theorem outline_bind {α β γ δ : Type} {form : α → β} {form' : γ → δ}
    {result result' : Except ParseError α} {next next' : α → Except ParseError γ}
    (h : outline form result = outline form result')
    (hnext : ∀ x x', form x = form x' → outline form' (next x) = outline form' (next' x')) :
    outline form' (result >>= next) = outline form' (result' >>= next') := by
  rcases outline_cases h with ⟨e, e', rfl, rfl, hfault⟩ | ⟨x, x', rfl, rfl, hform⟩
  · exact outline_error hfault
  · exact hnext x x' hform

/-- Steps that cannot fail keep outlines equal if they keep forms equal. -/
theorem outline_map {α β γ δ : Type} {form : α → β} {form' : γ → δ}
    {result result' : Except ParseError α} {step step' : α → γ}
    (h : outline form result = outline form result')
    (hstep : ∀ x x', form x = form x' → form' (step x) = form' (step' x')) :
    outline form' (result.map step) = outline form' (result'.map step') := by
  show outline form' (result >>= fun x ↦ .ok (step x)) =
    outline form' (result' >>= fun x ↦ .ok (step' x))
  refine outline_bind h ?_
  intro x x' hx
  exact congrArg Except.ok (hstep x x' hx)

namespace Expr

/-- A single token is read in the same way wherever it stands. -/
theorem outline_ofToken_bare (t : Token) :
    outline shape (ofToken t.bare) = outline shape (ofToken t) := by
  unfold ofToken Token.bare
  dsimp only
  generalize t.kind = kind
  cases kind with
  | number => cases Literal.read? t.text <;> rfl
  | _ => rfl

/-- What is wrong with the shape of items does not depend on where they stand. -/
theorem fault_shapeError_bare (items : List Nested) :
    (shapeError (Nested.bareAll items)).fault = (shapeError items).fault := by
  have hclosed : (Nested.bareAll items).getLast?.any Nested.isGroup =
      items.getLast?.any Nested.isGroup := by
    rw [Nested.bareAll_eq_map, List.getLast?_map]
    cases items.getLast? with
    | none => rfl
    | some item => cases item <;> rfl
  match items, hclosed with
  | [], _ => rfl
  | [.single t], _ => rfl
  | [.group opening inner closing], _ => rfl
  | .group opening inner closing :: next :: rest, hclosed =>
    simp only [shapeError, Nested.bareAll, Nested.bare] at hclosed ⊢
    simp only [hclosed]
    split <;> rfl
  | .single t :: .single u :: rest, _ => rfl
  | [.single t, .group opening inner closing], _ => rfl
  | .single t :: .group opening inner closing :: next :: rest, hclosed =>
    have hkind : t.bare.kind = t.kind := rfl
    simp only [shapeError, Nested.bareAll, Nested.bare] at hclosed ⊢
    simp only [hclosed, hkind]
    split <;> rfl

/-- Assumes: the parts of a division are read in the same way wherever they stand. So is the
whole. -/
theorem outline_ofDivision_bare {d : Nested.Division}
    (hbefore : outline shape (ofNested (Nested.bareAll d.before.reverse)) =
      outline shape (ofNested d.before.reverse))
    (hbehind : outline shape (ofNested (Nested.bareAll d.behind)) =
      outline shape (ofNested d.behind)) :
    outline shape (ofDivision d.bare) = outline shape (ofDivision d) := by
  obtain ⟨before, token, op, behind⟩ := d
  simp only [ofDivision, Nested.Division.bare, Nested.isEmpty_bareAll, Nested.reverse_bareAll]
    at hbefore hbehind ⊢
  split
  · exact outline_error rfl
  · split
    · cases op with
      | add => exact hbehind
      | sub =>
        refine outline_bind hbehind ?_
        intro right right' hright
        show Except.ok (Shape.binary .sub (.literal "0" Binary64.zero) right.shape) =
          .ok (.binary .sub (.literal "0" Binary64.zero) right'.shape)
        rw [hright]
      | mul | div | pow => exact outline_error rfl
    · refine outline_bind hbefore ?_
      intro left left' hleft
      refine outline_bind hbehind ?_
      intro right right' hright
      show Except.ok (Shape.binary op left.shape right.shape) =
        .ok (.binary op left'.shape right'.shape)
      rw [hleft, hright]

/-- Assumes: each argument is read in the same way wherever it stands. So are all of them. -/
theorem outline_ofSegments_bare {segments : List Nested.Segment}
    (h : ∀ segment ∈ segments, outline shape (ofNested (Nested.bareAll segment.items)) =
      outline shape (ofNested segment.items)) :
    outline shapeAll (ofSegments (segments.map Nested.Segment.bare)) =
      outline shapeAll (ofSegments segments) := by
  induction segments with
  | nil => rfl
  | cons segment rest ih =>
    obtain ⟨hthis, hrest⟩ := List.forall_mem_cons.mp h
    rw [List.map_cons, ofSegments, ofSegments]
    simp only [Nested.Segment.bare, Nested.isEmpty_bareAll]
    split
    · exact outline_error rfl
    · refine outline_bind hthis ?_
      intro arg arg' harg
      refine outline_bind (ih hrest) ?_
      intro args args' hargs
      show Except.ok (arg.shape :: shapeAll args) = .ok (arg'.shape :: shapeAll args')
      rw [harg, hargs]

/-- Assumes: the arguments of a call are read in the same way wherever they stand. Items that are
not divided are a call, or have no known shape wherever they stand. -/
theorem outline_ofUndivided_bare {first second : Nested} {rest : List Nested}
    (h : ∀ opening inner closing, second = .group opening inner closing →
      outline shapeAll (ofSegments (Nested.segments opening.bare (Nested.bareAll inner))) =
        outline shapeAll (ofSegments (Nested.segments opening inner))) :
    outline shape (ofUndivided first.bare second.bare (Nested.bareAll rest)) =
      outline shape (ofUndivided first second rest) := by
  have hshape := fault_shapeError_bare (first :: second :: rest)
  match first, second, rest with
  | .group opening inner closing, second, rest => exact outline_error hshape
  | .single t, .single u, rest => exact outline_error hshape
  | .single t, .group opening inner closing, next :: more => exact outline_error hshape
  | .single t, .group opening inner closing, [] =>
    have hkind : t.bare.kind = t.kind := rfl
    simp only [ofUndivided, Nested.bare, Nested.bareAll, hkind]
    split
    · refine outline_bind (h opening inner closing rfl) ?_
      intro args args' hargs
      show Except.ok (Shape.call t.text (shapeAll args)) = .ok (.call t.text (shapeAll args'))
      rw [hargs]
    · exact outline_error hshape

/-- Items are read in the same way wherever their tokens stand. -/
theorem outline_ofNested_bare (items : List Nested) :
    outline shape (ofNested (Nested.bareAll items)) = outline shape (ofNested items) := by
  induction items using Nested.induction_parts with
  | nil => rfl
  | single t =>
    simp only [Nested.bareAll, Nested.bare]
    rw [ofNested, ofNested]
    exact outline_ofToken_bare t
  | group opening inner closing ih =>
    simp only [Nested.bareAll, Nested.bare]
    rw [ofNested, ofNested, Nested.isEmpty_bareAll]
    split
    · exact outline_error rfl
    · exact ih
  | divided first second rest d hdivide hbefore hbehind =>
    have hdivide' := Nested.divide?_bare (first :: second :: rest)
    simp only [Nested.bareAll] at hdivide' ⊢
    rw [ofNested_eq, ofNested_eq, hdivide', hdivide]
    exact outline_ofDivision_bare hbefore hbehind
  | undivided first second rest hdivide hargs =>
    have hdivide' := Nested.divide?_bare (first :: second :: rest)
    simp only [Nested.bareAll] at hdivide' ⊢
    rw [ofNested_eq, ofNested_eq, hdivide', hdivide]
    refine outline_ofUndivided_bare ?_
    intro opening inner closing hgroup
    rw [Nested.segments_bare]
    exact outline_ofSegments_bare (hargs opening inner closing hgroup)

/-- Tokens are read in the same way wherever they stand. -/
theorem outline_ofTokens_bare (tokens : List Token) :
    outline shape (ofTokens (tokens.map Token.bare)) = outline shape (ofTokens tokens) := by
  match tokens with
  | [] => rfl
  | [t] => exact outline_ofToken_bare t
  | first :: second :: rest =>
    have hnest : Nested.ofTokens ((first :: second :: rest).map Token.bare) =
        ((Nested.ofTokens (first :: second :: rest)).map Nested.bareAll).mapError
          Nested.Mismatch.bare :=
      Nested.nestFrom_bare [] [] (first :: second :: rest)
    simp only [List.map_cons] at hnest ⊢
    rw [ofTokens, ofTokens, hnest]
    cases Nested.ofTokens (first :: second :: rest) with
    | ok items => exact outline_ofNested_bare items
    | error mismatch => cases mismatch <;> exact outline_error rfl

end Expr

/-- A line is read in the same way wherever its tokens stand. -/
theorem Statement.outline_ofTokens_bare (tokens : List Token) :
    outline shape (ofTokens (tokens.map Token.bare)) = outline shape (ofTokens tokens) := by
  have hexpression : outline shape ((Expr.ofTokens (tokens.map Token.bare)).map expression) =
      outline shape ((Expr.ofTokens tokens).map expression) := by
    refine outline_map (Expr.outline_ofTokens_bare tokens) ?_
    intro e e' he
    exact congrArg LineShape.expression he
  match tokens, hexpression with
  | [], hexpression => exact hexpression
  | [t], hexpression => exact hexpression
  | [t, u], hexpression => exact hexpression
  | target :: equals :: first :: rest, hexpression =>
    simp only [List.map_cons] at hexpression ⊢
    simp only [ofTokens]
    by_cases hassigns : target.kind = .word ∧ equals.kind = .equals
    · have hbare : target.bare.kind = .word ∧ equals.bare.kind = .equals := hassigns
      rw [if_pos hassigns, if_pos hbare]
      refine outline_map (Expr.outline_ofTokens_bare (first :: rest)) ?_
      intro e e' he
      exact congrArg (LineShape.assignment target.text) he
    · have hbare : ¬(target.bare.kind = .word ∧ equals.bare.kind = .equals) := hassigns
      rw [if_neg hassigns, if_neg hbare]
      exact hexpression

/-! ### Evaluation without places -/

namespace Wide

variable (f : Format) (span span' : Span)

/-- Where an operation stands does not change its 64-bit result. -/
theorem unplaced_ofBinary64 (operation : String) (x : Binary64) :
    unplaced (ofBinary64 f span operation x) = unplaced (ofBinary64 f span' operation x) := by
  cases x <;> rfl

/-- Where a literal stands does not change its wide value. -/
theorem unplaced_literal (text : String) (value : Binary64) :
    unplaced (literal f text value span) = unplaced (literal f text value span') := by
  unfold literal
  cases Literal.readWide? f text with
  | some x => rfl
  | none => exact unplaced_ofBinary64 f span span' "literal" value

/-- Where a variable stands does not change its wide value. -/
theorem unplaced_variableValue (env : Environment) (name : String) :
    unplaced (variableValue f env name span) = unplaced (variableValue f env name span') := by
  unfold variableValue
  cases env.lookup? name with
  | none => rfl
  | some x => cases x <;> rfl

/-- Where an operation stands does not change its wide result. -/
theorem unplaced_arithmetic (lib : Library) (op : Operator) (x y : Number) :
    unplaced (arithmetic lib f span op x y) = unplaced (arithmetic lib f span' op x y) := by
  have helim (result : Option Number) :
      unplaced (result.elim (.error ⟨span, .notANumber op.symbol⟩) .ok) =
        unplaced (result.elim (.error ⟨span', .notANumber op.symbol⟩) .ok) := by
    cases result <;> rfl
  cases op with
  | add | sub | mul | div => exact helim _
  | pow =>
    simp only [arithmetic]
    cases pow lib f x y with
    | some effect => rfl
    | none => exact unplaced_ofBinary64 f span span' _ _

/-- Where a call stands does not change its effect. -/
theorem unplaced_callEffect (lib : Library) (function : Function) (args : List Number) :
    unplaced (callEffect lib f span function args) =
      unplaced (callEffect lib f span' function args) := by
  simp only [callEffect]
  split
  · rfl
  · cases function.apply (args.map Binary64.ofNumber) <;> rfl

end Wide

namespace Shape

mutual

/-- The expression of a shape that stands nowhere. -/
def nowhere : Shape → Expr
  | literal text value => .literal text value ⟨0, 0⟩
  | var name => .var name ⟨0, 0⟩
  | call callee args => .call callee ⟨0, 0⟩ (nowhereAll args) ⟨0, 0⟩
  | binary op left right => .binary op left.nowhere right.nowhere

/-- The expressions of shapes that stand nowhere. -/
def nowhereAll : List Shape → List Expr
  | [] => []
  | arg :: rest => arg.nowhere :: nowhereAll rest

end

/-- There are as many expressions as shapes. -/
@[simp] theorem length_nowhereAll (args : List Shape) :
    (nowhereAll args).length = args.length := by
  induction args with
  | nil => rfl
  | cons arg rest ih => simp [nowhereAll, ih]

end Shape

namespace Expr

variable (lib : Library) (f : Format) (env : Environment)

mutual

/-- Wide evaluation needs to know where an expression stands only for a failure. -/
theorem unplaced_evalPrecise (e : Expr) (slots : Slots Number) :
    unplaced (e.evalPrecise lib f env slots) =
      unplaced (e.shape.nowhere.evalPrecise lib f env slots) := by
  cases e with
  | literal text value span =>
    simp only [shape, Shape.nowhere, evalPrecise, unplaced_bind,
      Wide.unplaced_literal f span ⟨0, 0⟩]
  | var name span =>
    simp only [shape, Shape.nowhere, evalPrecise, unplaced_bind,
      Wide.unplaced_variableValue f span ⟨0, 0⟩]
  | call callee calleeSpan args span =>
    simp only [shape, Shape.nowhere, evalPrecise, unplaced_bind, Function.unplaced_resolve,
      Shape.length_nowhereAll, length_shapeAll, unplaced_evalPreciseAll args,
      Wide.unplaced_callEffect f span ⟨0, 0⟩]
  | binary op left right =>
    simp only [shape, Shape.nowhere, evalPrecise, unplaced_bind, unplaced_evalPrecise left,
      unplaced_evalPrecise right]
    refine congrArg _ (funext fun slots ↦ ?_)
    refine congrArg _ (funext fun slots ↦ ?_)
    split
    · simp only [unplaced_bind]
      rw [Wide.unplaced_arithmetic]
    · rfl

/-- Wide evaluation needs to know where arguments stand only for a failure. -/
theorem unplaced_evalPreciseAll (args : List Expr) (slots : Slots Number) :
    unplaced (evalPreciseAll lib f env args slots) =
      unplaced (evalPreciseAll lib f env (Shape.nowhereAll (shapeAll args)) slots) := by
  cases args with
  | nil => rfl
  | cons arg rest =>
    simp only [shapeAll, Shape.nowhereAll, evalPreciseAll, unplaced_bind,
      unplaced_evalPrecise arg, unplaced_evalPreciseAll rest]

end

/-- Wide values need to know where an expression stands only for a failure. -/
theorem unplaced_preciseValue (e : Expr) :
    unplaced (e.preciseValue lib f env) = unplaced (e.shape.nowhere.preciseValue lib f env) := by
  simp only [preciseValue, unplaced_bind, unplaced_evalPrecise lib f env e]

mutual

/-- The storage of a wide value does not depend on where an expression stands. -/
theorem store_nowhere (e : Expr) (slots : Slots Stored) :
    e.shape.nowhere.store lib f env slots = e.store lib f env slots := by
  cases e with
  | literal text value span => rfl
  | var name span => rfl
  | call callee calleeSpan args span =>
    simp only [shape, Shape.nowhere, store, Shape.length_nowhereAll, length_shapeAll,
      storeAll_nowhere args]
  | binary op left right =>
    simp only [shape, Shape.nowhere, store, store_nowhere left, store_nowhere right]

/-- The storage of arguments does not depend on where they stand. -/
theorem storeAll_nowhere (args : List Expr) (slots : Slots Stored) :
    storeAll lib f env (Shape.nowhereAll (shapeAll args)) slots =
      storeAll lib f env args slots := by
  cases args with
  | nil => rfl
  | cons arg rest =>
    simp only [shapeAll, Shape.nowhereAll, storeAll, store_nowhere arg, storeAll_nowhere rest]

end

end Expr

/-- The statement of a shape that stands nowhere. -/
def LineShape.nowhere : LineShape → Statement
  | expression value => .expression value.nowhere
  | assignment target value => .assignment target ⟨0, 0⟩ value.nowhere

namespace Statement

variable (lib : Library) (env : Environment) (bits : Nat)

/-- A wide execution needs to know where a statement stands only for a failure. -/
theorem unplaced_executePrecise (s : Statement) :
    unplaced (s.executePrecise lib env bits) =
      unplaced (s.shape.nowhere.executePrecise lib env bits) := by
  cases s with
  | expression value | assignment target targetSpan value =>
    simp only [shape, LineShape.nowhere, executePrecise, unplaced_bind,
      Expr.unplaced_preciseValue lib (Format.wide bits) env value]

/-- The storage of a wide result does not depend on where a statement stands. -/
theorem stored_nowhere (s : Statement) :
    s.shape.nowhere.stored lib env bits = s.stored lib env bits := by
  cases s with
  | expression value | assignment target targetSpan value =>
    simp only [shape, LineShape.nowhere, stored, Expr.store_nowhere]

/-! ### Statements that differ in places only -/

/-- Statements with the same canonical form, the same target and the same names, that do the same
in every environment and, with every library, at every precision: they show and store the same
values, in the same storage, or fail with the same fault and so with the same message. -/
structure Alike (s s' : Statement) : Prop where
  render : s.render = s'.render
  target : s.target? = s'.target?
  names : s.names = s'.names
  execute : ∀ env, unplaced (s.execute env) = unplaced (s'.execute env)
  executePrecise : ∀ lib env bits,
    unplaced (s.executePrecise lib env bits) = unplaced (s'.executePrecise lib env bits)
  stored : ∀ lib env bits, s.stored lib env bits = s'.stored lib env bits

/-- Statements of the same shape are alike. -/
theorem alike_of_shape {s s' : Statement} (h : s.shape = s'.shape) : Alike s s' := by
  obtain ⟨htarget, hnames, hexecute⟩ := alike_of_withoutTexts (congrArg LineShape.withoutTexts h)
  have hrender : s.render.toList = s'.render.toList := by
    have hspaced : s.render.toList ++ [' '] = s'.render.toList ++ [' '] := by
      rw [s.toList_render, s'.toList_render, h]
    exact List.append_cancel_right hspaced
  constructor
  · exact String.toList_inj.mp hrender
  · exact htarget
  · exact hnames
  · exact hexecute
  · intro lib env bits
    rw [unplaced_executePrecise, h, ← unplaced_executePrecise]
  · intro lib env bits
    rw [← stored_nowhere, h, stored_nowhere]

/-- Tokens that are the same but for their places are both refused with the same fault, or both
read, as statements of the same shape. -/
theorem ofTokens_of_same {tokens tokens' : List Token}
    (h : List.Forall₂ (fun a b ↦ a.same b = true) tokens tokens') :
    (∃ e e', ofTokens tokens = .error e ∧ ofTokens tokens' = .error e' ∧ e.fault = e'.fault) ∨
      ∃ s s', ofTokens tokens = .ok s ∧ ofTokens tokens' = .ok s' ∧ s.shape = s'.shape := by
  refine outline_cases ?_
  rw [← outline_ofTokens_bare, Token.map_bare_of_same h, outline_ofTokens_bare]

/-- Layout does not matter. The tokens of every line, written with single spaces between them, are
scanned again to tokens of the same kinds and texts, one by one. Any tokens of the same kinds and
texts, wherever they stand, are both refused with the same fault, or are both read, as statements
that are equal up to spans and so alike. -/
theorem layout_irrelevant :
    (∀ line tokens, Token.scan line = .ok tokens →
      ∃ tokens', Token.scan (" ".intercalate (tokens.map Token.text)).toList = .ok tokens' ∧
        List.Forall₂ (fun a b ↦ a.same b = true) tokens tokens') ∧
    ∀ tokens tokens', List.Forall₂ (fun a b ↦ a.same b = true) tokens tokens' →
      (∃ e e', ofTokens tokens = .error e ∧ ofTokens tokens' = .error e' ∧ e.fault = e'.fault) ∨
        ∃ s s', ofTokens tokens = .ok s ∧ ofTokens tokens' = .ok s' ∧ s.shape = s'.shape ∧
          Alike s s' := by
  constructor
  · intro line tokens hscan
    exact Token.exists_scan_intercalate hscan
  · intro tokens tokens' hsame
    rcases ofTokens_of_same hsame with hrefused | ⟨s, s', hread, hread', hshape⟩
    · exact Or.inl hrefused
    · exact Or.inr ⟨s, s', hread, hread', hshape, alike_of_shape hshape⟩

/-- The tokens of `x=1.5` are those of `x = 1.5`, and the two lines are statements that stand at
other places and are alike. -/
theorem layout_irrelevant_assignment :
    ∃ tokens tokens' s s', Token.scan "x=1.5".toList = .ok tokens ∧
      Token.scan "x = 1.5".toList = .ok tokens' ∧
      List.Forall₂ (fun a b ↦ a.same b = true) tokens tokens' ∧
      ofTokens tokens = .ok s ∧ ofTokens tokens' = .ok s' ∧ s.span = ⟨0, 5⟩ ∧ s'.span = ⟨0, 7⟩ ∧
      s.shape = s'.shape ∧ Alike s s' := by
  have hscan : Token.scan "x=1.5".toList =
      .ok [.ofChars .word 0 ['x'], .ofChars .equals 1 ['='],
        .ofChars .number 2 ['1', '.', '5']] := by
    cbv
  obtain ⟨tokens', hscan', hsame⟩ := layout_irrelevant.1 _ _ hscan
  have htokens : Token.scan "x = 1.5".toList =
      .ok [.ofChars .word 0 ['x'], .ofChars .equals 2 ['='],
        .ofChars .number 4 ['1', '.', '5']] := by
    cbv
  obtain rfl : tokens' = _ := Except.ok.inj (hscan'.symm.trans htokens)
  rcases layout_irrelevant.2 _ _ hsame with ⟨e, e', hrefused, -, -⟩ | ⟨s, s', hread, hread', halike⟩
  · cases hrefused
  · refine ⟨_, _, s, s', hscan, htokens, hsame, hread, hread', ?_, ?_, halike⟩
    · cases hread
      rfl
    · cases hread'
      rfl

end Statement

end Reckoner
