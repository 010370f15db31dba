import Mathlib.Algebra.Ring.Int.Defs
import Mathlib.Data.List.Basic
import Reckoner.Proofs.Failures
import Reckoner.Proofs.PositionalReading

/-!
# Parentheses that do not match

Matching parentheses is a matter of counting them. A closing parenthesis is redundant where a
beginning of the tokens has more closing than opening ones for the first time, and one is missing
where no beginning has and the whole has more opening ones (`Nested.verdict_nestFrom`).

Reading items finds no such fault any more (`Expr.failsOnly_ofNested_ofShape`). Reading by position
matches the parentheses of every part again, and cuts the arguments of a call by counting them once
more. A part that it reads of tokens that match has parentheses that match
(`LooseNode.itemized_of_asks`), so it finds a fault of parentheses only in the tokens of the whole
expression.

Main statement: `Statement.parentheses_exact`.
-/

set_option autoImplicit false

namespace Reckoner

/-! ### Counting parentheses -/

namespace Token

/-- The number of opening parentheses. -/
def opens (tokens : List Token) : Nat :=
  tokens.countP fun t ↦ t.kind = .openParen

/-- The number of closing parentheses. -/
def closes (tokens : List Token) : Nat :=
  tokens.countP fun t ↦ t.kind = .closeParen

/-- No beginning of the tokens closes more parentheses than it opens, beside a number of open
ones. -/
def Covered (depth : Nat) (tokens : List Token) : Prop :=
  ∀ front, front <+: tokens → closes front ≤ depth + opens front

/-- As many parentheses are closed as are opened, and none before it is opened. -/
def Balanced (tokens : List Token) : Prop :=
  Covered 0 tokens ∧ closes tokens = opens tokens

/-- A closing parenthesis ends the first beginning of the tokens that closes more than it opens,
beside a number of open ones. -/
def FirstExcess (depth : Nat) (tokens : List Token) (t : Token) : Prop :=
  ∃ front back, tokens = front ++ t :: back ∧ t.kind = .closeParen ∧
    depth + opens (front ++ [t]) < closes (front ++ [t]) ∧ Covered depth front

/-- Opening parentheses are counted part by part. -/
@[simp] theorem opens_append (front back : List Token) :
    opens (front ++ back) = opens front + opens back :=
  List.countP_append

/-- Closing parentheses are counted part by part. -/
@[simp] theorem closes_append (front back : List Token) :
    closes (front ++ back) = closes front + closes back :=
  List.countP_append

/-- The first token is counted on its own. -/
theorem opens_cons (t : Token) (rest : List Token) : opens (t :: rest) = opens [t] + opens rest :=
  opens_append [t] rest

/-- The first token is counted on its own. -/
theorem closes_cons (t : Token) (rest : List Token) :
    closes (t :: rest) = closes [t] + closes rest :=
  closes_append [t] rest

/-- A token takes the number of open parentheses from one to another. -/
def Leads (t : Token) (depth depth' : Nat) : Prop :=
  depth + opens [t] = depth' + closes [t]

variable {t : Token} {rest : List Token} {depth depth' : Nat}

/-- An opening parenthesis is one more. -/
theorem leads_open (h : t.kind = .openParen) (depth : Nat) : t.Leads depth (depth + 1) := by
  simp [Leads, opens, closes, h]

/-- A closing parenthesis is one less. -/
theorem leads_close (h : t.kind = .closeParen) (depth : Nat) : t.Leads (depth + 1) depth := by
  simp [Leads, opens, closes, h]

/-- Every other token changes nothing. -/
theorem leads_single (hopen : t.kind ≠ .openParen) (hclose : t.kind ≠ .closeParen) (depth : Nat) :
    t.Leads depth depth := by
  simp [Leads, opens, closes, hopen, hclose]

/-- A token in front shifts the number of open parentheses. -/
theorem covered_cons (h : t.Leads depth depth') :
    Covered depth (t :: rest) ↔ Covered depth' rest := by
  unfold Leads at h
  constructor
  · intro hcovered front hfront
    have hle := hcovered (t :: front) (List.cons_prefix_cons.mpr ⟨rfl, hfront⟩)
    rw [opens_cons, closes_cons] at hle
    omega
  · intro hcovered front hfront
    rcases List.prefix_cons_iff.mp hfront with rfl | ⟨front, rfl, hrest⟩
    · exact Nat.zero_le _
    · have hle := hcovered front hrest
      rw [opens_cons, closes_cons]
      omega

/-- A token in front of the first excess. -/
theorem FirstExcess.cons {u : Token} (hlead : t.Leads depth depth')
    (h : FirstExcess depth' rest u) : FirstExcess depth (t :: rest) u := by
  obtain ⟨front, back, rfl, hclose, hexcess, hcovered⟩ := h
  refine ⟨t :: front, back, rfl, hclose, ?_, (covered_cons hlead).mpr hcovered⟩
  rw [List.cons_append, opens_cons, closes_cons]
  unfold Leads at hlead
  omega

/-- Tokens with an excess are not covered. -/
theorem FirstExcess.not_covered {tokens : List Token} (h : FirstExcess depth tokens t) :
    ¬ Covered depth tokens := by
  obtain ⟨front, back, rfl, -, hexcess, -⟩ := h
  intro hcovered
  have hfront : front ++ [t] <+: front ++ t :: back := ⟨back, by simp⟩
  exact absurd (hcovered _ hfront) (Nat.not_le.mpr hexcess)

/-- There is only one first excess. -/
theorem FirstExcess.unique {tokens : List Token} {u : Token} (ht : FirstExcess depth tokens t)
    (hu : FirstExcess depth tokens u) : t = u := by
  obtain ⟨front, back, rfl, -, hexcess, hcovered⟩ := ht
  obtain ⟨front', back', heq, -, hexcess', hcovered'⟩ := hu
  have hprefix : front ++ [t] <+: front ++ t :: back := ⟨back, by simp⟩
  have hprefix' : front' ++ [u] <+: front ++ t :: back := ⟨back', by simp [heq]⟩
  -- the shorter of the two beginnings is all of the longer one, or is covered by it
  rcases List.prefix_or_prefix_of_prefix hprefix hprefix' with hle | hle
  · rcases List.prefix_concat_iff.mp hle with hsame | hle
    · exact (List.append_inj' hsame rfl).2 |> List.singleton_inj.mp
    · exact absurd (hcovered' _ hle) (Nat.not_le.mpr hexcess)
  · rcases List.prefix_concat_iff.mp hle with hsame | hle
    · exact ((List.append_inj' hsame rfl).2 |> List.singleton_inj.mp).symm
    · exact absurd (hcovered _ hle) (Nat.not_le.mpr hexcess')

end Token

namespace Nested

open Token

/-- What counting the parentheses of tokens says about matching them, beside a number of open
ones. -/
def Verdict (depth : Nat) (tokens : List Token) : Except Mismatch (List Nested) → Prop
  | .ok _ => Covered depth tokens ∧ closes tokens = depth + opens tokens
  | .error (.redundant t) => FirstExcess depth tokens t
  | .error .missing => Covered depth tokens ∧ closes tokens < depth + opens tokens

/-- A token in front shifts the number of open parentheses. -/
theorem Verdict.cons {t : Token} {rest : List Token} {depth depth' : Nat}
    {result : Except Mismatch (List Nested)} (hlead : t.Leads depth depth')
    (h : Verdict depth' rest result) : Verdict depth (t :: rest) result := by
  have hopens := opens_cons t rest
  have hcloses := closes_cons t rest
  have hlead' : depth + opens [t] = depth' + closes [t] := hlead
  match result with
  | .ok items => exact ⟨(covered_cons hlead).mpr h.1, by have := h.2; omega⟩
  | .error (.redundant u) => exact FirstExcess.cons hlead h
  | .error .missing => exact ⟨(covered_cons hlead).mpr h.1, by have := h.2; omega⟩

/-- Matching parentheses does what counting them says: as many are open as there are open groups. -/
theorem verdict_nestFrom (outer : List (Token × List Nested)) (items : List Nested)
    (tokens : List Token) : Verdict outer.length tokens (nestFrom outer items tokens) := by
  induction tokens generalizing outer items with
  | nil =>
    have hcovered : Covered outer.length [] := by
      intro front hfront
      rw [List.prefix_nil.mp hfront]
      exact Nat.zero_le _
    cases outer with
    | nil => exact ⟨hcovered, rfl⟩
    | cons level outer => exact ⟨hcovered, Nat.succ_pos _⟩
  | cons t rest ih =>
    by_cases hopen : t.kind = .openParen
    · rw [nestFrom_open hopen]
      exact (ih _ _).cons (leads_open hopen outer.length)
    by_cases hclose : t.kind = .closeParen
    · cases outer with
      | nil =>
        rw [nestFrom_redundant hclose]
        refine ⟨[], rest, rfl, hclose, ?_, ?_⟩
        · simp [opens, closes, hclose]
        · intro front hfront
          rw [List.prefix_nil.mp hfront]
          exact Nat.zero_le _
      | cons level outer =>
        rw [nestFrom_close hclose]
        exact (ih _ _).cons (leads_close hclose outer.length)
    · rw [nestFrom_single hopen hclose]
      exact (ih _ _).cons (leads_single hopen hclose outer.length)

variable {tokens : List Token}

/-- The three outcomes of matching the parentheses of tokens. -/
theorem ofTokens_cases (tokens : List Token) :
    (∃ items, ofTokens tokens = .ok items ∧ Balanced tokens) ∨
      (∃ t, ofTokens tokens = .error (.redundant t) ∧ FirstExcess 0 tokens t) ∨
      (ofTokens tokens = .error .missing ∧ Covered 0 tokens ∧ closes tokens < opens tokens) := by
  have hverdict : Verdict 0 tokens (ofTokens tokens) := verdict_nestFrom [] [] tokens
  match hresult : ofTokens tokens with
  | .ok items =>
    rw [hresult] at hverdict
    exact Or.inl ⟨items, rfl, hverdict.1, hverdict.2.trans (Nat.zero_add _)⟩
  | .error (.redundant t) =>
    rw [hresult] at hverdict
    exact Or.inr (Or.inl ⟨t, rfl, hverdict⟩)
  | .error .missing =>
    rw [hresult] at hverdict
    exact Or.inr (Or.inr ⟨rfl, hverdict.1, Nat.zero_add (opens tokens) ▸ hverdict.2⟩)

/-- Parentheses match if they are balanced. -/
theorem exists_ofTokens_iff : (∃ items, ofTokens tokens = .ok items) ↔ Balanced tokens := by
  rcases ofTokens_cases tokens with
    ⟨items, hresult, hbalanced⟩ | ⟨t, hresult, hexcess⟩ | ⟨hresult, -, hlt⟩
  · simp [hresult, hbalanced]
  · have hnot : ¬ Balanced tokens := fun hbalanced ↦ hexcess.not_covered hbalanced.1
    simp [hresult, hnot]
  · have hnot : ¬ Balanced tokens := fun hbalanced ↦ Nat.ne_of_lt hlt hbalanced.2
    simp [hresult, hnot]

/-- A closing parenthesis is redundant if it is the first excess. -/
theorem ofTokens_redundant_iff {t : Token} :
    ofTokens tokens = .error (.redundant t) ↔ FirstExcess 0 tokens t := by
  rcases ofTokens_cases tokens with
    ⟨items, hresult, hbalanced⟩ | ⟨u, hresult, hexcess⟩ | ⟨hresult, hcovered, -⟩
  · have hnot : ¬ FirstExcess 0 tokens t := fun hexcess ↦ hexcess.not_covered hbalanced.1
    simp [hresult, hnot]
  · rw [hresult]
    constructor
    · rintro ⟨⟩
      exact hexcess
    · intro ht
      rw [ht.unique hexcess]
  · have hnot : ¬ FirstExcess 0 tokens t := fun hexcess ↦ hexcess.not_covered hcovered
    simp [hresult, hnot]

/-- There is a first excess if some beginning of the tokens closes more than it opens. -/
theorem exists_firstExcess_iff :
    (∃ t, FirstExcess 0 tokens t) ↔ ∃ front, front <+: tokens ∧ opens front < closes front := by
  constructor
  · rintro ⟨t, front, back, rfl, -, hexcess, -⟩
    exact ⟨front ++ [t], ⟨back, by simp⟩, by omega⟩
  · rintro ⟨front, hfront, hlt⟩
    have hnot : ¬ Covered 0 tokens := by
      intro hcovered
      have hle := hcovered front hfront
      omega
    rcases ofTokens_cases tokens with ⟨_, -, hbalanced⟩ | ⟨t, -, hexcess⟩ | ⟨-, hcovered, -⟩
    · exact absurd hbalanced.1 hnot
    · exact ⟨t, hexcess⟩
    · exact absurd hcovered hnot

/-- A closing parenthesis is missing if none is redundant and more are opened than closed. -/
theorem ofTokens_missing_iff :
    ofTokens tokens = .error .missing ↔
      (∀ front, front <+: tokens → closes front ≤ opens front) ∧ closes tokens < opens tokens := by
  have hcovers : (∀ front, front <+: tokens → closes front ≤ opens front) ↔ Covered 0 tokens := by
    simp only [Covered, Nat.zero_add]
  rw [hcovers]
  rcases ofTokens_cases tokens with
    ⟨items, hresult, hbalanced⟩ | ⟨t, hresult, hexcess⟩ | ⟨hresult, hcovered, hlt⟩
  · simp [hresult, hbalanced.2]
  · simp [hresult, hexcess.not_covered]
  · simp [hresult, hcovered, hlt]

end Nested

/-! ### Faults of other kinds -/

/-- A fault that is not about parentheses that do not match. -/
def ParseError.OfShape (e : ParseError) : Prop :=
  e.fault ≠ .redundantClose ∧ e.fault ≠ .missingClose

namespace Expr

/-- A single token has no parentheses to match. -/
theorem failsOnly_ofToken_ofShape (t : Token) : FailsOnly ParseError.OfShape (ofToken t) := by
  unfold ofToken
  split
  · split
    · exact .of_ok _
    · exact .of_error (by simp [ParseError.OfShape])
  · exact .of_ok _
  · exact .of_error (by simp [ParseError.OfShape])

/-- Items of no known shape have parentheses that match. -/
theorem ofShape_shapeError (items : List Nested) : (shapeError items).OfShape := by
  unfold shapeError ParseError.OfShape
  dsimp only
  split
  -- a group with more behind it, a call with more behind it, anything else
  · split <;> simp
  · split <;> simp
  · simp

/-- Assumes: the parts of a division have no fault of parentheses. Nor has the whole. -/
theorem failsOnly_ofDivision_ofShape {d : Nested.Division}
    (hbefore : FailsOnly ParseError.OfShape (ofNested d.before.reverse))
    (hbehind : FailsOnly ParseError.OfShape (ofNested d.behind)) :
    FailsOnly ParseError.OfShape (ofDivision d) := by
  unfold ofDivision
  split
  · exact .of_error (by simp [ParseError.OfShape])
  · split
    · split
      · exact hbehind
      · exact hbehind.bind fun _ ↦ .of_ok _
      · exact .of_error (by simp [ParseError.OfShape])
    · refine hbefore.bind ?_
      intro left
      exact hbehind.bind fun _ ↦ .of_ok _

/-- Assumes: no argument has a fault of parentheses. Nor have all of them. -/
theorem failsOnly_ofSegments_ofShape {segments : List Nested.Segment}
    (h : ∀ segment ∈ segments, FailsOnly ParseError.OfShape (ofNested segment.items)) :
    FailsOnly ParseError.OfShape (ofSegments segments) := by
  induction segments with
  | nil =>
    rw [ofSegments]
    exact .of_ok []
  | cons segment rest ih =>
    obtain ⟨hthis, hrest⟩ := List.forall_mem_cons.mp h
    rw [ofSegments]
    split
    · exact .of_error (by simp [ParseError.OfShape])
    · refine hthis.bind ?_
      intro arg
      exact (ih hrest).bind fun _ ↦ .of_ok _

/-- Assumes: no argument of a call has a fault of parentheses. Nor have items that are not
divided. -/
theorem failsOnly_ofUndivided_ofShape {first second : Nested} {rest : List Nested}
    (h : ∀ opening inner closing, second = .group opening inner closing →
      FailsOnly ParseError.OfShape (ofSegments (Nested.segments opening inner))) :
    FailsOnly ParseError.OfShape (ofUndivided first second rest) := by
  unfold ofUndivided
  split
  · split
    · exact (h _ _ _ rfl).bind fun _ ↦ .of_ok _
    · exact .of_error (ofShape_shapeError _)
  · exact .of_error (ofShape_shapeError _)

/-- Reading items finds no fault of parentheses. -/
theorem failsOnly_ofNested_ofShape (items : List Nested) :
    FailsOnly ParseError.OfShape (ofNested items) := by
  induction items using Nested.induction_parts with
  | nil =>
    rw [ofNested]
    exact .of_error (by simp [ParseError.OfShape])
  | single t =>
    rw [ofNested]
    exact failsOnly_ofToken_ofShape t
  | group opening inner closing ih =>
    rw [ofNested]
    split
    · exact .of_error (by simp [ParseError.OfShape])
    · exact ih
  | divided first second rest d hdivide hbefore hbehind =>
    rw [ofNested_eq, hdivide]
    exact failsOnly_ofDivision_ofShape hbefore hbehind
  | undivided first second rest hdivide hargs =>
    rw [ofNested_eq, hdivide]
    refine failsOnly_ofUndivided_ofShape ?_
    intro opening inner closing hgroup
    exact failsOnly_ofSegments_ofShape (hargs opening inner closing hgroup)

variable {tokens : List Token}

/-- Several tokens are read by their items, or their parentheses do not match. -/
theorem ofTokens_of_two_le (h : 2 ≤ tokens.length) :
    ∃ last, tokens.getLast? = some last ∧
      (∀ items, Nested.ofTokens tokens = .ok items → ofTokens tokens = ofNested items) ∧
      ∀ mismatch, Nested.ofTokens tokens = .error mismatch →
        ofTokens tokens = .error (mismatchError last.span mismatch) := by
  match tokens with
  | [] => cases h
  | [t] => exact absurd h (by simp)
  | first :: second :: rest =>
    refine ⟨(first :: second :: rest).getLast (by simp), List.getLast?_eq_some_getLast _, ?_, ?_⟩
    · intro items hitems
      simp only [ofTokens, hitems]
    · intro mismatch hmismatch
      simp only [ofTokens, hmismatch]

/-- Reading several tokens fails at a redundant parenthesis if matching their parentheses does. -/
theorem ofTokens_eq_redundantClose_iff (h : 2 ≤ tokens.length) {span : Span} :
    ofTokens tokens = .error ⟨span, .redundantClose⟩ ↔
      ∃ t, Nested.ofTokens tokens = .error (.redundant t) ∧ span = t.span := by
  obtain ⟨last, -, hread, hrefused⟩ := ofTokens_of_two_le h
  match hresult : Nested.ofTokens tokens with
  | .ok items =>
    have hnot : ofNested items ≠ .error ⟨span, .redundantClose⟩ := by
      intro he
      exact (failsOnly_ofNested_ofShape items _ he).1 rfl
    simp [hread items hresult, hnot]
  | .error (.redundant t) => simp [hrefused _ hresult, mismatchError, eq_comm]
  | .error .missing => simp [hrefused _ hresult, mismatchError]

/-- Reading several tokens fails for a missing parenthesis if matching their parentheses does. -/
theorem ofTokens_eq_missingClose_iff (h : 2 ≤ tokens.length) {span : Span} :
    ofTokens tokens = .error ⟨span, .missingClose⟩ ↔
      Nested.ofTokens tokens = .error .missing ∧
        ∃ last, tokens.getLast? = some last ∧ span = last.span.after := by
  obtain ⟨last, hlast, hread, hrefused⟩ := ofTokens_of_two_le h
  rw [hlast]
  match hresult : Nested.ofTokens tokens with
  | .ok items =>
    have hnot : ofNested items ≠ .error ⟨span, .missingClose⟩ := by
      intro he
      exact (failsOnly_ofNested_ofShape items _ he).2 rfl
    simp [hread items hresult, hnot]
  | .error (.redundant t) => simp [hrefused _ hresult, mismatchError]
  | .error .missing => simp [hrefused _ hresult, mismatchError, eq_comm]

end Expr

/-! ### Reading parts by position -/

namespace LooseNode

/-- Reading tokens asks for a part to be read: with another answer for this part, and with the same
answers for all others, the result would be another. -/
def Asks (read : List Token → Gathering LooseNode) (tokens part : List Token) : Prop :=
  ∃ read', (∀ other, other ≠ part → read' other = read other) ∧
    readStep read' tokens ≠ readStep read tokens

/-- The parts that are read when tokens are read not deeper than a limit, each with the limit that
is left for it. -/
inductive Reaches (limit : Nat) (tokens : List Token) : Nat → List Token → Prop where
  | whole : Reaches limit tokens limit tokens
  | part {next : Nat} {outer inner : List Token} (h : Reaches limit tokens (next + 1) outer)
    (hasks : Asks (readExpr next) outer inner) : Reaches limit tokens next inner

/-- The tokens of items, not more than a limit. -/
def Itemized (limit : Nat) (tokens : List Token) : Prop :=
  ∃ items, Nested.WellNestedAll items ∧ items ≠ [] ∧ Nested.countAll items ≤ limit ∧
    tokens = Nested.tokensAll items

/-- Reading the tokens of items asks only for tokens of items. -/
theorem itemized_of_asks {limit : Nat} {tokens part : List Token} (h : Itemized (limit + 1) tokens)
    (hasks : Asks (readExpr limit) tokens part) : Itemized limit part := by
  obtain ⟨items, hnested, hne, hcount, rfl⟩ := h
  obtain ⟨read', hothers, hchanged⟩ := hasks
  -- otherwise the other reader reads all items as this one does
  by_contra hnot
  have hread := readsUpTo_readExpr limit
  have hread' : ReadsUpTo limit read' := by
    intro part' hnested' hne' hcount'
    rw [hothers, hread part' hnested' hne' hcount']
    rintro rfl
    exact hnot ⟨part', hnested', hne', hcount', rfl⟩
  refine hchanged ?_
  rw [readStep_tokensAll hread' items hnested hne hcount,
    readStep_tokensAll hread items hnested hne hcount]

/-- All parts that are read of the tokens of items are tokens of items. -/
theorem Reaches.itemized {limit next : Nat} {tokens part : List Token}
    (hstart : Itemized limit tokens) (h : Reaches limit tokens next part) : Itemized next part := by
  induction h with
  | whole => exact hstart
  | part _ hasks ih => exact itemized_of_asks ih hasks

/-- Tokens are read as a call, and what is between its parentheses is cut into arguments: they are
not divided, begin with a word and an opening parenthesis and end with a closing one, and nothing
else is outside of parentheses. -/
def CutsArguments (tokens inner : List Token) : Prop :=
  ∃ pass callee opening closing, Pass.run tokens = .ok pass ∧ pass.split = none ∧
    pass.top.length = 2 ∧ tokens = callee :: opening :: (inner ++ [closing]) ∧
    callee.kind = .word ∧ opening.kind = .openParen ∧ closing.kind = .closeParen

/-- The parentheses of a part match wherever they are looked at. -/
structure Matches (limit : Nat) (part : List Token) : Prop where
  balanced : Token.Balanced part
  passes : ∃ pass, Pass.run part = .ok pass ∧ pass.depth = 0
  /-- No closing parenthesis is redundant or missing in the part, whatever was gathered before. -/
  reads : ∀ names e, (readExpr limit part).run names = .error (.fault e) → e.OfShape
  /-- No closing parenthesis is redundant between the parentheses of a call. -/
  cuts : ∀ inner, CutsArguments part inner → ∃ parts, cut .comma inner = .ok parts

/-- The tokens between the parentheses of a call are those of items. -/
theorem exists_items_of_call {items : List Nested} (hnested : Nested.WellNestedAll items)
    (hlength : items.length = 2) {callee opening closing : Token} {inner : List Token}
    (htokens : Nested.tokensAll items = callee :: opening :: (inner ++ [closing]))
    (hword : callee.kind = .word) (hopen : opening.kind = .openParen) :
    ∃ inside, Nested.WellNestedAll inside ∧ Nested.tokensAll inside = inner := by
  obtain ⟨first, second, rfl⟩ := List.length_eq_two.mp hlength
  obtain ⟨hfirst, hsecond, -⟩ := hnested
  simp only [Nested.tokensAll, List.append_nil] at htokens
  cases first with
  | group opening' inside closing' =>
    obtain ⟨rfl, -⟩ := List.cons.inj htokens
    have hopen' := hfirst.1
    simp [hword] at hopen'
  | single t =>
    obtain ⟨-, hbehind⟩ := List.cons.inj htokens
    cases second with
    | single u =>
      obtain ⟨rfl, -⟩ := List.cons.inj hbehind
      exact absurd hopen hsecond.1
    | group opening' inside closing' =>
      obtain ⟨-, hinner⟩ := List.cons.inj hbehind
      exact ⟨inside, hsecond.2.2, (List.append_inj' hinner rfl).1⟩

/-- The parentheses of the tokens of items match. -/
theorem Itemized.matches {limit : Nat} {tokens : List Token} (h : Itemized limit tokens) :
    Matches limit tokens := by
  obtain ⟨items, hnested, hne, hcount, rfl⟩ := h
  obtain ⟨lastAfter, hrun⟩ := Pass.run_tokensAll hnested
  constructor
  · exact Nested.exists_ofTokens_iff.mp ⟨items, Nested.ofTokens_tokensAll hnested⟩
  · exact ⟨_, hrun, rfl⟩
  · intro names e he
    rw [readsUpTo_readExpr limit items hnested hne hcount] at he
    refine Expr.failsOnly_ofNested_ofShape items e ?_
    cases hread : Expr.ofNested items with
    | ok value =>
      rw [hread] at he
      cases he
    | error e' =>
      rw [hread] at he
      cases he
      rfl
  · rintro inner ⟨pass, callee, opening, closing, hpass, -, htop, htokens, hword, hopen, -⟩
    obtain rfl := Except.ok.inj (hrun.symm.trans hpass)
    have hlength : items.length = 2 := (Nested.length_starts 0 items).symm.trans htop
    obtain ⟨inside, hinside, rfl⟩ := exists_items_of_call hnested hlength htokens hword hopen
    exact ⟨_, cut_tokensAll hinside opening⟩

end LooseNode

/-! ### Lines -/

namespace Statement

/-- The tokens of a line's expression: what is behind the equals sign of an assignment, and
otherwise all tokens. -/
def valueTokens : List Token → List Token
  | target :: equals :: first :: rest =>
    if target.kind = .word ∧ equals.kind = .equals then first :: rest
    else target :: equals :: first :: rest
  | tokens => tokens

/-- A line is read as its expression is. -/
theorem ofTokens_eq_map (tokens : List Token) :
    ∃ form, ofTokens tokens = (Expr.ofTokens (valueTokens tokens)).map form := by
  match tokens with
  | [] => exact ⟨expression, rfl⟩
  | [t] => exact ⟨expression, rfl⟩
  | [t, u] => exact ⟨expression, rfl⟩
  | target :: equals :: first :: rest =>
    unfold ofTokens valueTokens
    by_cases hassigns : target.kind = .word ∧ equals.kind = .equals
    · exact ⟨assignment target.text target.span, by simp [hassigns]⟩
    · exact ⟨expression, by simp [hassigns]⟩

/-- A line has the faults of its expression. -/
theorem ofTokens_eq_error_iff {tokens : List Token} {e : ParseError} :
    ofTokens tokens = .error e ↔ Expr.ofTokens (valueTokens tokens) = .error e := by
  obtain ⟨form, hform⟩ := ofTokens_eq_map tokens
  rw [hform]
  cases Expr.ofTokens (valueTokens tokens) with
  | ok value => simp [Except.map]
  | error e' => simp [Except.map]

/-- A line has no fewer tokens than its expression. -/
theorem length_valueTokens_le (tokens : List Token) :
    (valueTokens tokens).length ≤ tokens.length := by
  unfold valueTokens
  split
  · split
    · simp only [List.length_cons]
      omega
    · exact Nat.le_refl _
  · exact Nat.le_refl _

section Parentheses

variable {tokens value : List Token}

/-- Assumes: tokens of a line whose expression has at least two. A closing parenthesis is redundant
if it is the first excess, and then it is marked. -/
theorem redundantClose_iff (hvalue : valueTokens tokens = value) (hlength : 2 ≤ value.length)
    (span : Span) :
    ofTokens tokens = .error ⟨span, .redundantClose⟩ ↔
      ∃ t, Token.FirstExcess 0 value t ∧ span = t.span := by
  rw [ofTokens_eq_error_iff, hvalue, Expr.ofTokens_eq_redundantClose_iff hlength]
  simp only [Nested.ofTokens_redundant_iff]

/-- Assumes: tokens of a line whose expression has at least two. A closing parenthesis is missing
if more are opened than closed and none is redundant, and the end of the last token is marked. -/
theorem missingClose_iff (hvalue : valueTokens tokens = value) (hlength : 2 ≤ value.length)
    (span : Span) :
    ofTokens tokens = .error ⟨span, .missingClose⟩ ↔
      ((∀ front, front <+: value → Token.closes front ≤ Token.opens front) ∧
        Token.closes value < Token.opens value) ∧
        ∃ last, value.getLast? = some last ∧ span = last.span.after := by
  rw [ofTokens_eq_error_iff, hvalue, Expr.ofTokens_eq_missingClose_iff hlength,
    Nested.ofTokens_missing_iff]

/-- Assumes: balanced tokens of a line's expression. The parentheses of every part that is read
match. -/
theorem matches_of_reaches (hvalue : valueTokens tokens = value) (hlength : 2 ≤ value.length)
    (hbalanced : Token.Balanced value) {limit : Nat} {part : List Token}
    (hreaches : LooseNode.Reaches tokens.length value limit part) :
    LooseNode.Matches limit part := by
  obtain ⟨items, hitems⟩ := Nested.exists_ofTokens_iff.mpr hbalanced
  obtain ⟨htokens, hnested⟩ := Nested.tokensAll_of_ofTokens hitems
  have hcount : Nested.countAll items = value.length := by
    rw [← Nested.length_tokensAll, htokens]
  have hwhole : LooseNode.Itemized tokens.length value := by
    refine ⟨items, hnested, ?_, ?_, htokens.symm⟩
    · rintro rfl
      simp only [Nested.countAll] at hcount
      omega
    · rw [hcount, ← hvalue]
      exact length_valueTokens_le tokens
  exact (hreaches.itemized hwhole).matches

/-- Assumes: tokens of a line whose expression has at least two. A closing parenthesis is redundant
if some beginning of the expression has more closing parentheses than opening ones, and the first of
those that end such a beginning is marked. A closing parenthesis is missing if no beginning has and
the whole expression has more opening than closing ones, and the two characters around the end of
the last token are marked. If the parentheses are balanced, then those of every part that is read
match: neither fault is found in any of them, and cutting the arguments of a call never fails. -/
theorem parentheses_exact (hvalue : valueTokens tokens = value) (hlength : 2 ≤ value.length) :
    ((∃ span, ofTokens tokens = .error ⟨span, .redundantClose⟩) ↔
      ∃ front, front <+: value ∧ Token.opens front < Token.closes front) ∧
    (∀ span, ofTokens tokens = .error ⟨span, .redundantClose⟩ ↔
      ∃ t, Token.FirstExcess 0 value t ∧ span = t.span) ∧
    ((∃ span, ofTokens tokens = .error ⟨span, .missingClose⟩) ↔
      (∀ front, front <+: value → Token.closes front ≤ Token.opens front) ∧
        Token.closes value < Token.opens value) ∧
    (∀ span, ofTokens tokens = .error ⟨span, .missingClose⟩ →
      ∃ last, value.getLast? = some last ∧ span = last.span.after ∧
        (-2 ^ 63 < last.span.stop → last.span.stop < 2 ^ 63 - 1 →
          span = ⟨last.span.stop - 1, last.span.stop + 1⟩)) ∧
    (Token.Balanced value → ∀ limit part,
      LooseNode.Reaches tokens.length value limit part → LooseNode.Matches limit part) := by
  have hredundant := redundantClose_iff hvalue hlength
  have hmissing := missingClose_iff hvalue hlength
  refine ⟨?_, hredundant, ?_, ?_, ?_⟩
  · rw [← Nested.exists_firstExcess_iff]
    constructor
    · rintro ⟨span, hspan⟩
      obtain ⟨t, ht, -⟩ := (hredundant span).mp hspan
      exact ⟨t, ht⟩
    · rintro ⟨t, ht⟩
      exact ⟨t.span, (hredundant t.span).mpr ⟨t, ht, rfl⟩⟩
  · constructor
    · rintro ⟨span, hspan⟩
      exact ((hmissing span).mp hspan).1
    · intro hcounts
      obtain ⟨last, hlast, -⟩ := Expr.ofTokens_of_two_le hlength
      exact ⟨last.span.after, (hmissing _).mpr ⟨hcounts, last, hlast, rfl⟩⟩
  · intro span hspan
    obtain ⟨-, last, hlast, rfl⟩ := (hmissing span).mp hspan
    refine ⟨last, hlast, rfl, ?_⟩
    intro hlow hhigh
    rw [Span.after, Span.wrapped_eq (by omega) (by omega), Span.wrapped_eq (by omega) (by omega)]
  · intro hbalanced limit part hreaches
    exact matches_of_reaches hvalue hlength hbalanced hreaches

end Parentheses

/-- The tokens of `(x))(`. -/
def reopened : List Token :=
  [.ofChars .openParen 0 ['('], .ofChars .word 1 ['x'], .ofChars .closeParen 2 [')'],
    .ofChars .closeParen 3 [')'], .ofChars .openParen 4 ['(']]

/-- The tokens of `y=f(x)`. -/
def assignedCall : List Token :=
  [.ofChars .word 0 ['y'], .ofChars .equals 1 ['='], .ofChars .word 2 ['f'],
    .ofChars .openParen 3 ['('], .ofChars .word 4 ['x'], .ofChars .closeParen 5 [')']]

/-- In `(x))(` as many parentheses are closed as are opened, and the second closing one is marked.
In `y=f(x)` the parentheses are balanced, and reading the call asks for its argument, whose
parentheses match too. -/
theorem parentheses_exact_reopened :
    ofTokens reopened = .error ⟨⟨3, 4⟩, .redundantClose⟩ ∧
      LooseNode.Reaches 6 (valueTokens assignedCall) 5 [.ofChars .word 4 ['x']] ∧
      LooseNode.Matches 5 [.ofChars .word 4 ['x']] := by
  have hexcess : Token.FirstExcess 0 reopened (.ofChars .closeParen 3 [')']) := by
    refine ⟨reopened.take 3, reopened.drop 4, rfl, rfl, by decide, ?_⟩
    exact (Nested.exists_ofTokens_iff.mp ⟨_, rfl⟩).1
  have hbalanced : Token.Balanced (valueTokens assignedCall) :=
    Nested.exists_ofTokens_iff.mp ⟨_, rfl⟩
  have hreaches : LooseNode.Reaches 6 (valueTokens assignedCall) 5 [.ofChars .word 4 ['x']] := by
    refine .part .whole ⟨fun other ↦ if other = [.ofChars .word 4 ['x']] then
      throw (.breach .tooDeep) else LooseNode.readExpr 5 other, ?_, ?_⟩
    · intro other hother
      exact if_neg hother
    · intro hsame
      exact Bool.false_ne_true (congrArg (fun reading ↦ (reading.run []).isOk) hsame)
  obtain ⟨-, hmarked, -, -, -⟩ := parentheses_exact (rfl : valueTokens reopened = _) (by decide)
  obtain ⟨-, -, -, -, hmatches⟩ :=
    parentheses_exact (rfl : valueTokens assignedCall = _) (by decide)
  exact ⟨(hmarked _).mpr ⟨_, hexcess, rfl⟩, hreaches, hmatches hbalanced _ _ hreaches⟩

end Statement

end Reckoner
