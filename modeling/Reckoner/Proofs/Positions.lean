import Reckoner.Proofs.Nodes

/-!
# Reading by position

Tokens can be read without nesting them first. One pass over the tokens of an expression counts the
parentheses that are open, notes the positions of the tokens outside of all of them, and finds the
position of the operator to divide at. The parts on both sides of it, what is between a pair of
parentheses and what is between commas are cut out by their positions and read in the same way.

Every position may be out of range, every part may be empty and every kind may be none that binds,
and each of these is a breach; so is reading deeper than the limit. `LooseNode.ofTokens` reads a
line in this way into a tree of loose nodes. The names of variables are gathered while they are read
(`LooseNode.readLeaf`), and not from the tree.

Main statements: in tokens whose parentheses match, the pass finds where their items begin and where
they are divided (`Pass.run_tokensAll`), and cutting finds the arguments (`cut_tokensAll`); in other
tokens the pass finds the same parenthesis as nesting does (`Pass.finds_run`).
-/

set_option autoImplicit false

namespace Reckoner

/-! ### Positions in a list -/

section Positions

variable {α : Type}

/-- The element at a position. -/
def itemAt (list : List α) (position : Nat) : Except (Stop ParseError) α :=
  match list[position]? with
  | some x => .ok x
  | none => .error (.breach (.noPosition position))

/-- The elements from a position up to, and without, another one. -/
def partOf (list : List α) (start stop : Nat) : Except (Stop ParseError) (List α) :=
  if start ≤ stop ∧ stop ≤ list.length then .ok ((list.take stop).drop start)
  else .error (.breach (.noPart start stop))

/-- The element behind a front stands at the front's length. -/
theorem itemAt_append (front : List α) (x : α) (back : List α) :
    itemAt (front ++ x :: back) front.length = .ok x := by
  simp [itemAt]

/-- The last element stands in front of the end. -/
theorem itemAt_getLast {list : List α} (h : list ≠ []) :
    itemAt list (list.length - 1) = .ok (list.getLast h) := by
  rw [itemAt, ← List.getLast?_eq_getElem?, List.getLast?_eq_some_getLast h]

/-- A part is bounded by the length in front of it and the length up to its end. -/
theorem partOf_append {list front middle back : List α} {start stop : Nat}
    (hlist : list = front ++ middle ++ back) (hstart : start = front.length)
    (hstop : stop = front.length + middle.length) :
    partOf list start stop = .ok middle := by
  subst hlist hstart hstop
  have hbounds : front.length ≤ front.length + middle.length ∧
      front.length + middle.length ≤ (front ++ middle ++ back).length := by
    simp only [List.length_append]
    omega
  rw [partOf, if_pos hbounds, ← List.length_append, List.take_left, List.drop_left]

/-- A front is cut out by its length. -/
theorem partOf_front {list front back : List α} (hlist : list = front ++ back) :
    partOf list 0 front.length = .ok front :=
  @partOf_append α list [] front back 0 front.length hlist rfl (Nat.zero_add _).symm

/-- What is behind a front is cut out by the front's length. -/
theorem partOf_behind {list front back : List α} (hlist : list = front ++ back) :
    partOf list front.length list.length = .ok back :=
  partOf_append (hlist.trans (List.append_nil _).symm) rfl (by rw [hlist, List.length_append])

end Positions

/-- The kind of node that a token stands for as an operator. -/
def TokenKind.nodeKind : TokenKind → NodeKind
  | .plus => .add
  | .minus => .sub
  | .star => .mul
  | .slash => .div
  | .karat => .pow
  | _ => .none

/-- An operator's token stands for the operator's kind. -/
theorem TokenKind.nodeKind_of_operator? {kind : TokenKind} {op : Operator}
    (h : kind.operator? = some op) : kind.nodeKind = op.kind := by
  cases kind <;> cases h <;> rfl

/-- Every other token stands for no kind. -/
theorem TokenKind.nodeKind_of_operator?_none {kind : TokenKind} (h : kind.operator? = none) :
    kind.nodeKind = .none := by
  cases kind with
  | plus | minus | star | slash | karat => cases h
  | _ => rfl

/-- An operator's kind is not none. -/
theorem Operator.kind_ne_none (op : Operator) : op.kind ≠ .none := by
  cases op <;> decide

/-! ### The pass over the tokens of an expression -/

/-- What a pass has found. -/
structure Pass where
  /-- The position of the operator to divide at, so far. -/
  split : Option Nat
  depth : Nat
  /-- Whether the last token outside of parentheses is an operator. -/
  afterOperator : Bool
  /-- The positions of the tokens outside of parentheses. -/
  top : List Nat

namespace Pass

/-- Notes the position of a token outside of parentheses. -/
def note (p : Pass) (position : Nat) : Pass :=
  if p.depth = 0 then { p with top := p.top ++ [position] } else p

/-- Whether to divide at an operator rather than at the one found before. -/
def prefers (tokens : List Token) (p : Pass) (kind : NodeKind) : Except (Stop ParseError) Bool :=
  match p.split with
  | none => .ok true
  | some earlier => do
    let here ← kind.precedence
    let token ← itemAt tokens earlier
    let there ← token.kind.nodeKind.precedence
    return here ≤ there

/-- Passes one token. -/
def step (tokens : List Token) (p : Pass) (position : Nat) (t : Token) :
    Except (Stop ParseError) Pass :=
  let p := p.note position
  match t.kind with
  | .openParen => .ok { p with depth := p.depth + 1, afterOperator := false }
  | .closeParen =>
    if p.depth = 0 then .error (.fault ⟨t.span, .redundantClose⟩)
    else .ok { p with depth := p.depth - 1 }
  | kind =>
    if 0 < p.depth then .ok p
    else if kind.nodeKind = .none then .ok { p with afterOperator := false }
    -- an operator behind another one is a sign of what follows
    else if p.afterOperator then .ok p
    else do
      let preferred ← p.prefers tokens kind.nodeKind
      return { p with
        afterOperator := true
        split := if preferred then some position else p.split }

/-- Passes the tokens from a position on. -/
def runFrom (tokens : List Token) (p : Pass) (position : Nat) :
    List Token → Except (Stop ParseError) Pass
  | [] => .ok p
  | t :: rest => do
    let next ← p.step tokens position t
    runFrom tokens next (position + 1) rest

/-- Passes all tokens. -/
def run (tokens : List Token) : Except (Stop ParseError) Pass :=
  runFrom tokens ⟨none, 0, false, []⟩ 0 tokens

end Pass

/-! ### Cutting at a kind of token -/

/-- The parts between the tokens of a kind that stand outside of parentheses, from a position on:
the parts found so far, and where the current one begins. -/
def cutFrom (separator : TokenKind) (tokens : List Token) (depth start position : Nat)
    (parts : List (List Token)) : List Token → Except (Stop ParseError) (List (List Token))
  | [] => do
    let last ← partOf tokens start tokens.length
    return parts ++ [last]
  | t :: rest =>
    match t.kind with
    | .openParen => cutFrom separator tokens (depth + 1) start (position + 1) parts rest
    | .closeParen =>
      if depth = 0 then .error (.fault ⟨t.span, .redundantClose⟩)
      else cutFrom separator tokens (depth - 1) start (position + 1) parts rest
    | kind =>
      if kind = separator ∧ depth = 0 then do
        let part ← partOf tokens start position
        cutFrom separator tokens depth (position + 1) (position + 1) (parts ++ [part]) rest
      else cutFrom separator tokens depth start (position + 1) parts rest

/-- The parts between the tokens of a kind that stand outside of parentheses. -/
def cut (separator : TokenKind) (tokens : List Token) :
    Except (Stop ParseError) (List (List Token)) :=
  cutFrom separator tokens 0 0 0 [] tokens

/-! ### Reading -/

namespace LooseNode

/-- The span of a node that has to be there. -/
def spanOf : LooseNode → Except (Stop ParseError) Span
  | missing => .error (.breach .missingNode)
  | node _ span _ _ _ _ _ => .ok span

/-- Reading that gathers a set of names on the way. A fault or a breach ends it. -/
abbrev Gathering : Type → Type := StateT (List String) (Except (Stop ParseError))

/-- Reads a single token. The name of a variable is gathered. -/
def readLeaf (t : Token) : Gathering LooseNode :=
  match t.kind with
  | .number =>
    match Literal.read? t.text with
    | some value => return leaf .number t.span value.toBinary64 t.text
    | none => throw (.fault ⟨t.span, .malformed⟩)
  | .word => do
    modify (·.insert t.text)
    return leaf .name t.span Binary64.zero t.text
  | _ => throw (.fault ⟨t.span, .malformed⟩)

section

variable (read : List Token → Gathering LooseNode)

/-- Reads the parts on both sides of an operator. -/
def readDivided (tokens : List Token) (split : Nat) : Gathering LooseNode := do
  let token ← itemAt tokens split
  let front ← partOf tokens 0 split
  let behind ← partOf tokens (split + 1) tokens.length
  if behind.length = 0 then throw (.fault ⟨token.span.after, .noRightHand⟩)
  else if front.length = 0 then
    match token.kind.nodeKind with
    | .add => read behind
    | .sub => do
      let right ← read behind
      let rightSpan ← right.spanOf
      let zero := leaf .number token.span Binary64.zero "0"
      return pair .sub (token.span.union rightSpan) zero right
    | _ => throw (.fault ⟨token.span, .badSign⟩)
  else do
    let left ← read front
    let right ← read behind
    let leftSpan ← left.spanOf
    let rightSpan ← right.spanOf
    return pair token.kind.nodeKind (leftSpan.union rightSpan) left right

/-- Reads the arguments of a call, given the token in front of the current one and the number of
tokens that are behind. -/
def readArguments (inner : List Token) (before : Token) (passed : Nat) :
    List (List Token) → Gathering (List LooseNode)
  | [] => return []
  | part :: rest =>
    if part.length = 0 then throw (.fault ⟨before.span.after, .empty⟩)
    else do
      let arg ← read part
      let passed := passed + part.length
      if passed < inner.length then do
        let comma ← itemAt inner passed
        let args ← readArguments inner comma (passed + 1) rest
        return arg :: args
      else do
        let args ← readArguments inner before passed rest
        return arg :: args

/-- Reads a word and the arguments between the parentheses behind it. -/
def readCall (tokens : List Token) (span : Span) : Gathering LooseNode := do
  let callee ← itemAt tokens 0
  let inner ← partOf tokens 2 (tokens.length - 1)
  let name := leaf .name callee.span Binary64.zero callee.text
  if inner.length = 0 then return application span name []
  else do
    let parts ← cut .comma inner
    let opening ← itemAt tokens 1
    let args ← readArguments read inner opening 0 parts
    return application span name args

/-- Reads tokens that are not divided: a group or a call. -/
def readGroup (tokens : List Token) (top : List Nat) (span : Span) : Gathering LooseNode := do
  let first ← itemAt tokens 0
  let second ← itemAt tokens 1
  let last ← itemAt tokens (tokens.length - 1)
  if first.kind = .openParen ∧ last.kind = .closeParen then
    if top.length ≠ 1 then do
      let position ← itemAt top 1
      let next ← itemAt tokens position
      throw (.fault ⟨next.span, .bracketInterrupt⟩)
    else do
      let inner ← partOf tokens 1 (tokens.length - 1)
      if inner.length = 0 then throw (.fault ⟨span, .empty⟩) else read inner
  else if first.kind = .word ∧ second.kind = .openParen ∧ last.kind = .closeParen then
    if top.length ≠ 2 then do
      let position ← itemAt top 2
      let next ← itemAt tokens position
      throw (.fault ⟨next.span, .callInterrupt⟩)
    else readCall read tokens span
  else throw (.fault ⟨span, .malformed⟩)

/-- Reads an expression, its parts by the given reader. -/
def readStep (tokens : List Token) : Gathering LooseNode :=
  if tokens.length = 0 then throw (.breach .noTokens)
  else do
    let first ← itemAt tokens 0
    let last ← itemAt tokens (tokens.length - 1)
    let span := first.span.union last.span
    if tokens.length = 1 then readLeaf first
    else do
      let pass ← Pass.run tokens
      if 0 < pass.depth then throw (.fault ⟨span.after, .missingClose⟩)
      else
        match pass.split with
        | none => readGroup read tokens pass.top span
        | some split => readDivided read tokens split

end

/-- Reads an expression, not deeper than the limit. -/
def readExpr : Nat → List Token → Gathering LooseNode
  | 0, _ => throw (.breach .tooDeep)
  | limit + 1, tokens => readStep (readExpr limit) tokens

/-- Whether tokens begin with a word, an equals sign and one more token. -/
def readsAssignment (tokens : List Token) : Except (Stop ParseError) Bool :=
  if 2 < tokens.length then do
    let first ← itemAt tokens 0
    let second ← itemAt tokens 1
    return first.kind = .word ∧ second.kind = .equals
  else return false

/-- Reads the tree of a line, not deeper than there are tokens. -/
def readLine (tokens : List Token) : Gathering LooseNode :=
  if tokens.length = 0 then throw (.fault ⟨⟨0, 0⟩, .empty⟩)
  else do
    let assigns ← readsAssignment tokens
    if assigns then do
      let rest ← partOf tokens 2 tokens.length
      let value ← readExpr tokens.length rest
      let target ← itemAt tokens 0
      let valueSpan ← value.spanOf
      return pair .assign (target.span.union valueSpan)
        (leaf .name target.span Binary64.zero target.text) value
    else readExpr tokens.length tokens

/-- Reads the tokens of a line: its tree, and the names that were gathered on the way, in increasing
order. -/
def ofTokens (tokens : List Token) : Except (Stop ParseError) (LooseNode × List String) := do
  let (root, names) ← (readLine tokens).run []
  return (root, sortNames names)

end LooseNode

/-! ### Positions of items -/

namespace Nested

mutual

/-- An item has as many tokens as it counts. -/
theorem length_tokens (item : Nested) : item.tokens.length = item.count := by
  cases item with
  | single t => rfl
  | group opening inner closing => simp [tokens, count, length_tokensAll inner]

/-- Items have as many tokens as they count. -/
@[simp] theorem length_tokensAll (items : List Nested) :
    (tokensAll items).length = countAll items := by
  cases items with
  | nil => rfl
  | cons item rest => simp [tokensAll, countAll, length_tokens item, length_tokensAll rest]

end

/-- The positions at which items begin, the first one at a given position. -/
def starts (position : Nat) : List Nested → List Nat
  | [] => []
  | item :: rest => position :: starts (position + item.count) rest

/-- There is a position for each item. -/
@[simp] theorem length_starts (position : Nat) (items : List Nested) :
    (starts position items).length = items.length := by
  induction items generalizing position with
  | nil => rfl
  | cons item rest ih => simp [starts, ih]

/-- Further items begin behind the tokens of the ones in front. -/
theorem starts_append (position : Nat) (front back : List Nested) :
    starts position (front ++ back) =
      starts position front ++ starts (position + countAll front) back := by
  induction front generalizing position with
  | nil => rfl
  | cons item rest ih => simp [starts, ih, countAll, Nat.add_assoc]

/-- A scan with a number of open parentheses and a position leaves no trace of what is inside of
parentheses: it only counts the parentheses and passes the other tokens. -/
structure SkipsInside {γ : Type} (scan : Nat → Nat → List Token → γ) : Prop where
  opens : ∀ {depth position : Nat} {t : Token} {rest : List Token}, t.kind = .openParen →
    scan (depth + 1) position (t :: rest) = scan (depth + 2) (position + 1) rest
  closes : ∀ {depth position : Nat} {t : Token} {rest : List Token}, t.kind = .closeParen →
    scan (depth + 1) position (t :: rest) = scan depth (position + 1) rest
  passes : ∀ {depth position : Nat} {t : Token} {rest : List Token}, (single t).WellNested →
    scan (depth + 1) position (t :: rest) = scan (depth + 1) (position + 1) rest

namespace SkipsInside

variable {γ : Type} {scan : Nat → Nat → List Token → γ}

mutual

/-- An item inside parentheses leaves no trace. -/
theorem tokens (h : SkipsInside scan) (item : Nested) (hitem : item.WellNested)
    (depth position : Nat) (rest : List Token) :
    scan (depth + 1) position (item.tokens ++ rest) =
      scan (depth + 1) (position + item.count) rest := by
  cases item with
  | single t => exact h.passes hitem
  | group opening inner closing =>
    obtain ⟨hopen, hclose, hinner⟩ := hitem
    simp only [Nested.tokens, List.cons_append, List.append_assoc, List.nil_append]
    rw [h.opens hopen, h.tokensAll inner hinner, h.closes hclose]
    congr 1
    simp only [count]
    omega

/-- Items inside parentheses leave no trace. -/
theorem tokensAll (h : SkipsInside scan) (items : List Nested) (hitems : WellNestedAll items)
    (depth position : Nat) (rest : List Token) :
    scan (depth + 1) position (Nested.tokensAll items ++ rest) =
      scan (depth + 1) (position + countAll items) rest := by
  cases items with
  | nil => rfl
  | cons item further =>
    obtain ⟨hitem, hfurther⟩ := hitems
    rw [Nested.tokensAll, List.append_assoc, h.tokens item hitem, h.tokensAll further hfurther,
      countAll, Nat.add_assoc]

end

/-- Behind an opening parenthesis, the rest of its group leaves no trace. -/
theorem group (h : SkipsInside scan) {opening closing : Token} {inner : List Nested}
    (hgroup : (Nested.group opening inner closing).WellNested) (depth position : Nat)
    (rest : List Token) :
    scan (depth + 1) (position + 1) (Nested.tokensAll inner ++ closing :: rest) =
      scan depth (position + (Nested.group opening inner closing).count) rest := by
  rw [h.tokensAll inner hgroup.2.2, h.closes hgroup.2.1]
  congr 1
  simp only [count]
  omega

end SkipsInside

end Nested

namespace Pass

variable {tokens : List Token} {p : Pass} {position : Nat} {t : Token}

/-! ### Passing one token -/

/-- Noting a position does not change the depth. -/
@[simp] theorem depth_note (p : Pass) (position : Nat) : (p.note position).depth = p.depth := by
  unfold note
  split <;> rfl

/-- Inside parentheses no position is noted. -/
theorem note_of_pos (h : 0 < p.depth) : p.note position = p :=
  if_neg (by omega)

/-- An opening parenthesis goes deeper. -/
theorem step_open (h : t.kind = .openParen) : p.step tokens position t =
    .ok { p.note position with depth := p.depth + 1, afterOperator := false } := by
  simp [step, h]

/-- A closing parenthesis inside parentheses goes back. -/
theorem step_close (h : t.kind = .closeParen) (hdepth : 0 < p.depth) :
    p.step tokens position t = .ok { p with depth := p.depth - 1 } := by
  simp [step, h, note_of_pos hdepth, Nat.ne_of_gt hdepth]

/-- A closing parenthesis outside of parentheses is redundant. -/
theorem step_redundant (h : t.kind = .closeParen) (hdepth : p.depth = 0) :
    p.step tokens position t = .error (.fault ⟨t.span, .redundantClose⟩) := by
  simp [step, h, hdepth]

/-- What is not a parenthesis is judged as an operator. -/
theorem step_single (hopen : t.kind ≠ .openParen) (hclose : t.kind ≠ .closeParen) :
    p.step tokens position t =
      if 0 < p.depth then .ok (p.note position)
      else if t.kind.nodeKind = .none then .ok { p.note position with afterOperator := false }
      else if (p.note position).afterOperator then .ok (p.note position)
      else do
        let preferred ← (p.note position).prefers tokens t.kind.nodeKind
        return { p.note position with
          afterOperator := true
          split := if preferred then some position else (p.note position).split } := by
  unfold step
  split
  · contradiction
  · contradiction
  · simp only [depth_note]

/-- What is inside of parentheses leaves no trace in the pass. -/
theorem skipsInside_runFrom (tokens : List Token) (split : Option Nat) (top : List Nat) :
    Nested.SkipsInside fun depth position rest ↦
      runFrom tokens ⟨split, depth, false, top⟩ position rest where
  opens h := by
    rw [runFrom, step_open h, note_of_pos (Nat.succ_pos _)]
    rfl
  closes h := by
    rw [runFrom, step_close h (Nat.succ_pos _)]
    rfl
  passes h := by
    rw [runFrom, step_single h.1 h.2, if_pos (Nat.succ_pos _), note_of_pos (Nat.succ_pos _)]
    rfl

/-! ### Passing items outside of parentheses -/

/-- What a pass has found behind items, given last first, with the best place to divide them. -/
def found (passed : List Nested) (afterOperator : Bool) (best : Option Nested.Division) : Pass :=
  ⟨best.map fun d ↦ Nested.countAll d.before, 0, afterOperator, Nested.starts 0 passed.reverse⟩

/-- A place divides items at the token of its operator. -/
def DividesAt (items : List Nested) (d : Nested.Division) : Prop :=
  d.Divides items ∧ d.token.kind.operator? = some d.op

/-- The token at the position of a place is its operator's. -/
theorem itemAt_of_divides {items : List Nested} {d : Nested.Division} (h : d.Divides items) :
    itemAt (Nested.tokensAll items) (Nested.countAll d.before) = .ok d.token := by
  have hlength : (Nested.tokensAll d.before.reverse).length = Nested.countAll d.before := by simp
  rw [Expr.tokensAll_of_divides h, ← hlength]
  exact itemAt_append _ _ _

/-- Noting the next item. -/
theorem note_found (item : Nested) (passed : List Nested) (afterOperator : Bool)
    (best : Option Nested.Division) :
    (found passed afterOperator best).note (Nested.countAll passed) =
      found (item :: passed) afterOperator best := by
  simp [note, found, Nested.starts_append, Nested.starts]

/-- An operator is preferred to the best place so far if it binds no tighter. -/
theorem prefers_found {items passed : List Nested} {afterOperator : Bool}
    {best : Option Nested.Division} (hbest : ∀ d, best = some d → DividesAt items d)
    (op : Operator) :
    (found passed afterOperator best).prefers (Nested.tokensAll items) op.kind =
      .ok (best.all fun d ↦ op.precedence ≤ d.op.precedence) := by
  cases best with
  | none => rfl
  | some d =>
    obtain ⟨hdivides, hop⟩ := hbest d rfl
    simp only [prefers, found, Option.map_some, itemAt_of_divides hdivides, ok_bind,
      Operator.precedence_kind, TokenKind.nodeKind_of_operator? hop]
    rfl

/-- The position of the better of two places. -/
theorem position_choose (best : Option Nested.Division) (here : Nested.Division) :
    (if best.all fun d ↦ here.op.precedence ≤ d.op.precedence then
        some (Nested.countAll here.before)
      else best.map fun d ↦ Nested.countAll d.before) =
      some (Nested.countAll (Nested.Division.choose best here).before) := by
  cases best with
  | none => rfl
  | some d =>
    simp only [Option.all_some, decide_eq_true_eq, Option.map_some, Nested.Division.choose]
    split <;> rfl

/-- The better of two places that divide items divides them. -/
theorem divides_choose {items : List Nested} {best : Option Nested.Division}
    {here : Nested.Division} (hbest : ∀ d, best = some d → DividesAt items d)
    (hhere : DividesAt items here) : DividesAt items (Nested.Division.choose best here) := by
  cases best with
  | none => exact hhere
  | some d =>
    simp only [Nested.Division.choose]
    split
    · exact hhere
    · exact hbest d rfl

section Items

variable {items passed rest : List Nested} {afterOperator : Bool} {best : Option Nested.Division}

/-- Passing a single token outside of parentheses finds what dividing the items finds there. -/
theorem step_found {t : Token} (hitems : passed.reverse ++ .single t :: rest = items)
    (ht : (Nested.single t).WellNested) (hbest : ∀ d, best = some d → DividesAt items d) :
    ∃ nextAfter nextBest,
      (found passed afterOperator best).step (Nested.tokensAll items) (Nested.countAll passed) t =
        .ok (found (.single t :: passed) nextAfter nextBest) ∧
      Nested.divideFrom afterOperator passed best (.single t :: rest) =
        Nested.divideFrom nextAfter (.single t :: passed) nextBest rest ∧
      ∀ d, nextBest = some d → DividesAt items d := by
  have hdepth : ¬ 0 < (found passed afterOperator best).depth := Nat.lt_irrefl 0
  rw [step_single ht.1 ht.2, if_neg hdepth, note_found (.single t)]
  cases hop : t.kind.operator? with
  | none =>
    refine ⟨false, best, ?_, ?_, hbest⟩
    · rw [if_pos (TokenKind.nodeKind_of_operator?_none hop)]
      rfl
    · simp [Nested.divideFrom, Nested.operator?, hop]
  | some op =>
    have hkind := TokenKind.nodeKind_of_operator? hop
    have hne : t.kind.nodeKind ≠ .none := hkind ▸ op.kind_ne_none
    rw [if_neg hne]
    cases afterOperator with
    | true =>
      refine ⟨true, best, rfl, ?_, hbest⟩
      simp [Nested.divideFrom, Nested.operator?, hop]
    | false =>
      have hhere : DividesAt items ⟨passed, t, op, rest⟩ := ⟨hitems, hop⟩
      refine ⟨true, some (Nested.Division.choose best ⟨passed, t, op, rest⟩), ?_, ?_, ?_⟩
      · have hposition := position_choose best ⟨passed, t, op, rest⟩
        rw [if_neg (by simp [found]), hkind, prefers_found hbest, ok_bind]
        simp only [found, hposition]
        rfl
      · simp [Nested.divideFrom, Nested.operator?, hop]
      · intro d hd
        obtain rfl := Option.some.inj hd
        exact divides_choose hbest hhere

/-- Passing a group outside of parentheses notes where it begins. -/
theorem runFrom_found_group {tokens : List Token} {opening closing : Token} {inner : List Nested}
    (hgroup : (Nested.group opening inner closing).WellNested) (further : List Token) :
    runFrom tokens (found passed afterOperator best) (Nested.countAll passed)
        ((Nested.group opening inner closing).tokens ++ further) =
      runFrom tokens (found (.group opening inner closing :: passed) false best)
        (Nested.countAll passed + (Nested.group opening inner closing).count) further := by
  simp only [Nested.tokens, List.cons_append, List.append_assoc, List.nil_append]
  rw [runFrom, step_open hgroup.1, note_found (.group opening inner closing), ok_bind]
  exact (skipsInside_runFrom tokens _ _).group hgroup 0 _ further

/-- Passing items outside of parentheses finds what dividing them finds. -/
theorem runFrom_found (hitems : passed.reverse ++ rest = items) (hrest : Nested.WellNestedAll rest)
    (hbest : ∀ d, best = some d → DividesAt items d) :
    ∃ lastAfter, runFrom (Nested.tokensAll items) (found passed afterOperator best)
        (Nested.countAll passed) (Nested.tokensAll rest) =
      .ok (found items.reverse lastAfter (Nested.divideFrom afterOperator passed best rest)) := by
  -- on the items behind: `found` of the items in front is kept, whatever the best place there is
  induction rest generalizing passed afterOperator best with
  | nil =>
    refine ⟨afterOperator, ?_⟩
    have hpassed : items.reverse = passed := by simp [← hitems]
    rw [hpassed]
    rfl
  | cons item rest ih =>
    obtain ⟨hitem, hrest⟩ := hrest
    have hnext : (item :: passed).reverse ++ rest = items := by simp [← hitems]
    have hcount : Nested.countAll passed + item.count = Nested.countAll (item :: passed) := by
      rw [Nested.countAll, Nat.add_comm]
    rw [Nested.tokensAll]
    cases item with
    | single t =>
      obtain ⟨nextAfter, nextBest, hstep, hdivide, hnextBest⟩ := step_found hitems hitem hbest
      rw [Nested.tokens, List.singleton_append, runFrom, hstep, ok_bind, hdivide]
      exact hcount ▸ ih hnext hrest hnextBest
    | group opening inner closing =>
      have hdivide : Nested.divideFrom afterOperator passed best
          (.group opening inner closing :: rest) =
            Nested.divideFrom false (.group opening inner closing :: passed) best rest := rfl
      rw [runFrom_found_group hitem, hcount, hdivide]
      exact ih hnext hrest hbest

end Items

/-- The pass over the tokens of items finds where the items begin and where they are divided. -/
theorem run_tokensAll {items : List Nested} (h : Nested.WellNestedAll items) :
    ∃ lastAfter, run (Nested.tokensAll items) =
      .ok ⟨(Nested.divide? items).map fun d ↦ Nested.countAll d.before, 0, lastAfter,
        Nested.starts 0 items⟩ := by
  obtain ⟨lastAfter, hrun⟩ := @runFrom_found items [] items false none rfl h (by simp)
  refine ⟨lastAfter, hrun.trans ?_⟩
  rw [found, List.reverse_reverse]
  rfl

/-! ### Passing parentheses that do not match -/

/-- The operator to divide at is one of the tokens. -/
def SplitsIn (tokens : List Token) (p : Pass) : Prop :=
  ∀ split, p.split = some split →
    ∃ t op, tokens[split]? = some t ∧ t.kind.operator? = some op

/-- Noting a position does not change the operator to divide at. -/
@[simp] theorem split_note (p : Pass) (position : Nat) : (p.note position).split = p.split := by
  unfold note
  split <;> rfl

/-- Two operators can always be compared. -/
theorem exists_prefers (h : p.SplitsIn tokens) (op : Operator) :
    ∃ preferred, p.prefers tokens op.kind = .ok preferred := by
  unfold prefers
  split
  · exact ⟨true, rfl⟩
  · rename_i earlier hearlier
    obtain ⟨u, op', hu, hop'⟩ := h earlier hearlier
    refine ⟨op.precedence ≤ op'.precedence, ?_⟩
    simp only [itemAt, hu, ok_bind, Operator.precedence_kind, TokenKind.nodeKind_of_operator? hop']
    rfl

/-- Every token that is not a parenthesis is passed at the same depth. -/
theorem exists_step_single (h : p.SplitsIn tokens) (ht : tokens[position]? = some t)
    (hopen : t.kind ≠ .openParen) (hclose : t.kind ≠ .closeParen) :
    ∃ q, p.step tokens position t = .ok q ∧ q.SplitsIn tokens ∧ q.depth = p.depth := by
  have hnote : (p.note position).SplitsIn tokens := by
    intro split hsplit
    exact h split (by rwa [split_note] at hsplit)
  rw [step_single hopen hclose]
  split
  · exact ⟨_, rfl, hnote, depth_note p position⟩
  · cases hop : t.kind.operator? with
    | none =>
      rw [if_pos (TokenKind.nodeKind_of_operator?_none hop)]
      exact ⟨_, rfl, hnote, depth_note p position⟩
    | some op =>
      have hkind := TokenKind.nodeKind_of_operator? hop
      rw [if_neg (hkind ▸ op.kind_ne_none), hkind]
      split
      · exact ⟨_, rfl, hnote, depth_note p position⟩
      · obtain ⟨preferred, hpreferred⟩ := exists_prefers hnote op
        rw [hpreferred]
        refine ⟨_, rfl, ?_, depth_note p position⟩
        intro split hsplit
        cases preferred with
        | false => exact hnote split hsplit
        | true =>
          obtain rfl := Option.some.inj hsplit
          exact ⟨t, op, ht, hop⟩

/-- The outcome of a pass over parentheses that do not match: a redundant one is a fault where it
stands, and a missing one shows in the depth at the end. -/
def Finds : Nested.Mismatch → Except (Stop ParseError) Pass → Prop
  | .redundant t, result => result = .error (.fault ⟨t.span, .redundantClose⟩)
  | .missing, result => ∃ q, result = .ok q ∧ 0 < q.depth

/-- The pass finds the parenthesis that nesting the tokens finds: its depth is the number of groups
that are open. -/
theorem runFrom_nestFrom {front rest : List Token} {outer : List (Token × List Nested)}
    {items : List Nested} {mismatch : Nested.Mismatch} (hfront : front ++ rest = tokens)
    (hsplits : p.SplitsIn tokens) (hdepth : p.depth = outer.length)
    (h : Nested.nestFrom outer items rest = .error mismatch) :
    Finds mismatch (runFrom tokens p front.length rest) := by
  -- on the tokens behind: the depth is kept equal to the number of open groups, and what the pass
  -- divides at an operator, so that comparing with it never fails
  induction rest generalizing front p outer items with
  | nil =>
    cases outer with
    | nil => cases h
    | cons level outer =>
      cases h
      exact ⟨p, rfl, by rw [hdepth]; exact Nat.succ_pos _⟩
  | cons t rest ih =>
    have ht : tokens[front.length]? = some t := by simp [← hfront]
    have hnext : ∀ {q : Pass} {outer : List (Token × List Nested)} {items : List Nested},
        p.step tokens front.length t = .ok q → q.SplitsIn tokens → q.depth = outer.length →
        Nested.nestFrom outer items rest = .error mismatch →
        Finds mismatch (runFrom tokens p front.length (t :: rest)) := by
      intro q outer items hstep hsplits hdepth h
      have hlength : (front ++ [t]).length = front.length + 1 := by simp
      rw [runFrom, hstep, ok_bind, ← hlength]
      exact ih (by simp [← hfront]) hsplits hdepth h
    by_cases hopen : t.kind = .openParen
    · rw [Nested.nestFrom_open hopen] at h
      refine hnext (step_open hopen) ?_ (by simp [hdepth]) h
      intro split hsplit
      exact hsplits split ((split_note p _).symm.trans hsplit)
    by_cases hclose : t.kind = .closeParen
    · cases outer with
      | nil =>
        rw [Nested.nestFrom_redundant hclose] at h
        cases h
        rw [Finds, runFrom, step_redundant hclose hdepth, error_bind]
      | cons level outer =>
        obtain ⟨opening, before⟩ := level
        have hpos : 0 < p.depth := by rw [hdepth]; exact Nat.succ_pos _
        rw [Nested.nestFrom_close hclose] at h
        exact hnext (step_close hclose hpos) hsplits (by simp [hdepth]) h
    · rw [Nested.nestFrom_single hopen hclose] at h
      obtain ⟨q, hstep, hsplits', hdepth'⟩ := exists_step_single hsplits ht hopen hclose
      exact hnext hstep hsplits' (hdepth'.trans hdepth) h

/-- The pass over all tokens finds the parenthesis that does not match. -/
theorem finds_run {mismatch : Nested.Mismatch} (h : Nested.ofTokens tokens = .error mismatch) :
    Finds mismatch (run tokens) := by
  have hsplits : SplitsIn tokens ⟨none, 0, false, []⟩ := by
    intro split hsplit
    cases hsplit
  exact runFrom_nestFrom (List.nil_append tokens) hsplits rfl h

end Pass

/-! ### Cutting items at commas -/

/-- The tokens of an argument. -/
def Nested.Segment.tokens (segment : Nested.Segment) : List Token :=
  Nested.tokensAll segment.items

section Cut

variable {separator : TokenKind} {tokens : List Token} {t : Token}

/-- An opening parenthesis goes deeper. -/
theorem cutFrom_open (h : t.kind = .openParen) (depth start position : Nat)
    (parts : List (List Token)) (rest : List Token) :
    cutFrom separator tokens depth start position parts (t :: rest) =
      cutFrom separator tokens (depth + 1) start (position + 1) parts rest := by
  simp [cutFrom, h]

/-- A closing parenthesis inside parentheses goes back. -/
theorem cutFrom_close (h : t.kind = .closeParen) (depth start position : Nat)
    (parts : List (List Token)) (rest : List Token) :
    cutFrom separator tokens (depth + 1) start position parts (t :: rest) =
      cutFrom separator tokens depth start (position + 1) parts rest := by
  simp [cutFrom, h]

/-- What is not a parenthesis is a place to cut, or belongs to the current part. -/
theorem cutFrom_single (ht : (Nested.single t).WellNested) (depth start position : Nat)
    (parts : List (List Token)) (rest : List Token) :
    cutFrom separator tokens depth start position parts (t :: rest) =
      if t.kind = separator ∧ depth = 0 then do
        let part ← partOf tokens start position
        cutFrom separator tokens depth (position + 1) (position + 1) (parts ++ [part]) rest
      else cutFrom separator tokens depth start (position + 1) parts rest := by
  obtain ⟨hopen, hclose⟩ := ht
  conv =>
    lhs
    unfold cutFrom
  split
  · contradiction
  · contradiction
  · rfl

/-- What is inside of parentheses is no place to cut. -/
theorem skipsInside_cutFrom (separator : TokenKind) (tokens : List Token) (start : Nat)
    (parts : List (List Token)) :
    Nested.SkipsInside fun depth position rest ↦
      cutFrom separator tokens depth start position parts rest where
  opens h := cutFrom_open h _ _ _ _ _
  closes h := cutFrom_close h _ _ _ _ _
  passes h := by
    rw [cutFrom_single h, if_neg (by simp)]

/-- Cutting at commas, from the current argument on, gives the tokens of the arguments. -/
theorem cutFrom_segmentsFrom {front : List Token} {current rest : List Nested}
    (htokens : front ++ Nested.tokensAll current.reverse ++ Nested.tokensAll rest = tokens)
    (hrest : Nested.WellNestedAll rest) (before : Token) (parts : List (List Token)) :
    cutFrom .comma tokens 0 front.length (front.length + Nested.countAll current) parts
        (Nested.tokensAll rest) =
      .ok (parts ++ (Nested.segmentsFrom before current rest).map Nested.Segment.tokens) := by
  -- on the items behind: the current argument begins behind `front` and ends at the position
  induction rest generalizing front current before parts with
  | nil =>
    have htokens' : tokens = front ++ Nested.tokensAll current.reverse ++ [] := htokens.symm
    have hlast : partOf tokens front.length tokens.length =
        .ok (Nested.tokensAll current.reverse) := by
      refine partOf_append htokens' rfl ?_
      simp [htokens']
    rw [Nested.tokensAll, cutFrom, hlast]
    rfl
  | cons item rest ih =>
    obtain ⟨hitem, hrest⟩ := hrest
    have hnext : front ++ Nested.tokensAll (item :: current).reverse ++ Nested.tokensAll rest =
        tokens := by
      simp [← htokens, Nested.tokensAll]
    have hcount : front.length + Nested.countAll current + item.count =
        front.length + Nested.countAll (item :: current) := by
      rw [Nested.countAll]
      omega
    cases item with
    | single t =>
      rw [Nested.tokensAll, Nested.tokens, List.singleton_append, cutFrom_single hitem]
      by_cases hcomma : t.kind = .comma
      · have hpart : partOf tokens front.length (front.length + Nested.countAll current) =
            .ok (Nested.tokensAll current.reverse) := by
          refine partOf_append htokens.symm rfl ?_
          simp
        have hbehind : (front ++ Nested.tokensAll current.reverse ++ [t]) ++
            Nested.tokensAll ([] : List Nested).reverse ++ Nested.tokensAll rest = tokens := by
          simp [← htokens, Nested.tokensAll, Nested.tokens]
        have hlength : front.length + Nested.countAll current + 1 =
            (front ++ Nested.tokensAll current.reverse ++ [t]).length := by
          simp only [List.length_append, Nested.length_tokensAll, Nested.countAll_reverse,
            List.length_singleton]
        rw [if_pos ⟨hcomma, rfl⟩, hpart, ok_bind, hlength, Nested.segmentsFrom, if_pos hcomma]
        refine (ih hbehind hrest t (parts ++ [Nested.tokensAll current.reverse])).trans ?_
        simp [Nested.Segment.tokens]
      · rw [if_neg (fun h ↦ hcomma h.1), Nested.segmentsFrom, if_neg hcomma]
        exact hcount ▸ ih hnext hrest before parts
    | group opening inner closing =>
      have hgroup := (skipsInside_cutFrom .comma tokens front.length parts).group hitem 0
        (front.length + Nested.countAll current) (Nested.tokensAll rest)
      simp only [Nested.tokensAll, Nested.tokens, List.cons_append, List.append_assoc,
        List.nil_append]
      rw [cutFrom_open hitem.1, hgroup, hcount]
      exact ih hnext hrest before parts

/-- Cutting the tokens of items at commas gives the tokens of the arguments. -/
theorem cut_tokensAll {inner : List Nested} (h : Nested.WellNestedAll inner) (opening : Token) :
    cut .comma (Nested.tokensAll inner) =
      .ok ((Nested.segmentsFrom opening [] inner).map Nested.Segment.tokens) := by
  have htokens : [] ++ Nested.tokensAll ([] : List Nested).reverse ++ Nested.tokensAll inner =
      Nested.tokensAll inner := rfl
  exact cutFrom_segmentsFrom htokens h opening []

end Cut

end Reckoner
