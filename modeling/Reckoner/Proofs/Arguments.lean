import Reckoner.Proofs.Parentheses

/-!
# The arguments of a call

Tokens are read as a call if they are a word, an opening parenthesis, other tokens and the closing
parenthesis that matches the opening one. What is between the parentheses is cut at the commas
outside of all others. Then the pieces are read one after the other; an empty one is a fault around
the end of the token in front of it. Which token this is the reader finds by counting the tokens of
the pieces it has read.

A piece has its tokens and the token directly in front of them, which is the opening parenthesis or
a comma. Written one behind the other, pieces with the tokens in front of them are the tokens that
were cut (`Nested.flatMap_segmentsFrom`), so that counting finds the right token
(`LooseNode.inTurn_readArguments`). Reading pieces in turn, each with the names that were gathered
before it, gives all of them or the fault of the first that has one (`Token.Piece.InTurn`).

Main statement: `LooseNode.readCall_arguments`.
-/

set_option autoImplicit false

namespace Reckoner

/-! ### Commas outside of parentheses -/

namespace Token

/-- The commas that stand outside of parentheses, beside a number of open ones. -/
def outerCommas (depth : Nat) : List Token → List Token
  | [] => []
  | t :: rest =>
    match t.kind with
    | .openParen => outerCommas (depth + 1) rest
    | .closeParen => outerCommas (depth - 1) rest
    | .comma => if depth = 0 then t :: outerCommas depth rest else outerCommas depth rest
    | _ => outerCommas depth rest

variable {t : Token}

/-- An opening parenthesis goes deeper. -/
theorem outerCommas_open (h : t.kind = .openParen) (depth : Nat) (rest : List Token) :
    outerCommas depth (t :: rest) = outerCommas (depth + 1) rest := by
  simp [outerCommas, h]

/-- A closing parenthesis goes back. -/
theorem outerCommas_close (h : t.kind = .closeParen) (depth : Nat) (rest : List Token) :
    outerCommas (depth + 1) (t :: rest) = outerCommas depth rest := by
  simp [outerCommas, h]

/-- Outside of parentheses a comma is found, and no other token. -/
theorem outerCommas_single (h : (Nested.single t).WellNested) (rest : List Token) :
    outerCommas 0 (t :: rest) =
      if t.kind = .comma then t :: outerCommas 0 rest else outerCommas 0 rest := by
  obtain ⟨hopen, hclose⟩ := h
  generalize hkind : t.kind = kind at hopen hclose
  cases kind <;> simp_all [outerCommas]

/-- Inside of parentheses no comma is found. -/
theorem outerCommas_inside (h : (Nested.single t).WellNested) (depth : Nat) (rest : List Token) :
    outerCommas (depth + 1) (t :: rest) = outerCommas (depth + 1) rest := by
  obtain ⟨hopen, hclose⟩ := h
  generalize hkind : t.kind = kind at hopen hclose
  cases kind <;> simp_all [outerCommas]

/-- What is inside of parentheses is not found. -/
theorem skipsInside_outerCommas :
    Nested.SkipsInside fun depth _ rest ↦ outerCommas depth rest where
  opens h := outerCommas_open h _ _
  closes h := outerCommas_close h _ _
  passes h := outerCommas_inside h _ _

/-- The commas in the tokens of a group are not found. -/
theorem outerCommas_group {opening closing : Token} {inner : List Nested}
    (h : (Nested.group opening inner closing).WellNested) (rest : List Token) :
    outerCommas 0 ((Nested.group opening inner closing).tokens ++ rest) = outerCommas 0 rest := by
  simp only [Nested.tokens, List.cons_append, List.append_assoc, List.nil_append]
  rw [outerCommas_open h.1]
  exact skipsInside_outerCommas.group h 0 0 rest

end Token

/-! ### Pieces between commas -/

/-- Some of the tokens between parentheses, and the token directly in front of them. -/
structure Token.Piece where
  before : Token
  tokens : List Token

namespace Nested

open Token (Piece)

/-- The tokens of an argument and the one in front of them. -/
def Segment.piece (segment : Segment) : Piece :=
  ⟨segment.before, segment.tokens⟩

/-- Pieces with the tokens in front of them, one behind the other, are the tokens of all items. -/
theorem flatMap_segmentsFrom (before : Token) (current inner : List Nested) :
    ((segmentsFrom before current inner).map Segment.piece).flatMap
        (fun piece ↦ piece.before :: piece.tokens) =
      before :: (tokensAll current.reverse ++ tokensAll inner) := by
  induction inner generalizing before current with
  | nil => simp [segmentsFrom, Segment.piece, Segment.tokens, tokensAll]
  | cons item inner ih =>
    have hpass : ((segmentsFrom before (item :: current) inner).map Segment.piece).flatMap
        (fun piece ↦ piece.before :: piece.tokens) =
          before :: (tokensAll current.reverse ++ tokensAll (item :: inner)) := by
      rw [ih, List.reverse_cons, tokensAll_append, List.append_assoc, ← tokensAll_append]
      rfl
    cases item with
    | single t =>
      rw [segmentsFrom]
      split
      · rw [List.map_cons, List.flatMap_cons, ih t []]
        rfl
      · exact hpass
    | group opening inside closing => exact hpass

/-- The tokens in front of arguments are the given one and the commas outside of parentheses. -/
theorem map_before_segmentsFrom (before : Token) (current : List Nested) {inner : List Nested}
    (h : WellNestedAll inner) :
    (segmentsFrom before current inner).map Segment.before =
      before :: Token.outerCommas 0 (tokensAll inner) := by
  induction inner generalizing before current with
  | nil => rfl
  | cons item inner ih =>
    obtain ⟨hitem, hinner⟩ := h
    rw [tokensAll]
    cases item with
    | single t =>
      rw [segmentsFrom, tokens, List.singleton_append, Token.outerCommas_single hitem]
      split
      · rw [List.map_cons, ih t [] hinner]
      · exact ih before _ hinner
    | group opening inside closing =>
      rw [Token.outerCommas_group hitem]
      exact ih before _ hinner

/-- No comma stands among the items of an argument. -/
theorem commaFree_of_mem_segmentsFrom {before : Token} {current inner : List Nested}
    {segment : Segment} (hcurrent : CommaFree current)
    (h : segment ∈ segmentsFrom before current inner) : CommaFree segment.items := by
  have hreverse : CommaFree current.reverse := fun t ht ↦ hcurrent t (List.mem_reverse.mp ht)
  induction inner generalizing before current with
  | nil =>
    obtain rfl := List.mem_singleton.mp h
    exact hreverse
  | cons item inner ih =>
    cases item with
    | single t =>
      rw [segmentsFrom] at h
      split at h
      · rcases List.mem_cons.mp h with rfl | h
        · exact hreverse
        · exact ih commaFree_nil h commaFree_nil
      · rename_i hcomma
        have hnext : CommaFree (single t :: current) :=
          (commaFree_single t current).mpr ⟨hcomma, hcurrent⟩
        exact ih hnext h fun u hu ↦ hnext u (List.mem_reverse.mp hu)
    | group opening inside closing =>
      have hnext : CommaFree (group opening inside closing :: current) :=
        (commaFree_group opening inside closing current).mpr hcurrent
      exact ih hnext h fun u hu ↦ hnext u (List.mem_reverse.mp hu)

/-- Where no comma stands among items, none stands outside of parentheses in their tokens. -/
theorem outerCommas_of_commaFree {items : List Nested} (hnested : WellNestedAll items)
    (h : CommaFree items) : Token.outerCommas 0 (tokensAll items) = [] := by
  induction items with
  | nil => rfl
  | cons item rest ih =>
    obtain ⟨hitem, hrest⟩ := hnested
    rw [tokensAll]
    cases item with
    | single t =>
      obtain ⟨hcomma, hfree⟩ := (commaFree_single t rest).mp h
      rw [tokens, List.singleton_append, Token.outerCommas_single hitem, if_neg hcomma]
      exact ih hrest hfree
    | group opening inside closing =>
      rw [Token.outerCommas_group hitem]
      exact ih hrest ((commaFree_group opening inside closing rest).mp h)

end Nested

/-! ### Reading pieces in turn -/

namespace Token.Piece

variable {ε α σ : Type}

/-- Pieces are read from left to right, each in the state that is left by the one in front of it,
and none is without tokens. -/
inductive Reads (read : List Token → StateT σ (Except ε) α) :
    σ → List Piece → List α → σ → Prop where
  | nil (state : σ) : Reads read state [] [] state
  | cons {state next last : σ} {piece : Piece} {pieces : List Piece} {result : α} {results : List α}
    (some : piece.tokens ≠ []) (this : (read piece.tokens).run state = .ok (result, next))
    (rest : Reads read next pieces results last) :
    Reads read state (piece :: pieces) (result :: results) last

/-- An outcome of reading pieces from left to right: what each of them is read as, or the fault of
the first that is not read. A piece without tokens has a fault around the end of the token in front
of it. -/
def InTurn (fault : ParseError → ε) (read : List Token → StateT σ (Except ε) α) (state : σ)
    (pieces : List Piece) : Except ε (List α × σ) → Prop
  | .ok (results, last) => Reads read state pieces results last
  | .error e =>
    ∃ front piece back results next, pieces = front ++ piece :: back ∧
      Reads read state front results next ∧
      (piece.tokens = [] ∧ e = fault ⟨piece.before.span.after, .empty⟩ ∨
        piece.tokens ≠ [] ∧ (read piece.tokens).run next = .error e)

variable {fault : ParseError → ε} {read : List Token → StateT σ (Except ε) α} {piece : Piece}
  {pieces : List Piece}

/-- A first piece without tokens is a fault. -/
theorem inTurn_of_empty (h : piece.tokens = []) (state : σ) :
    InTurn fault read state (piece :: pieces)
      (.error (fault ⟨piece.before.span.after, .empty⟩)) :=
  ⟨[], piece, pieces, [], state, rfl, .nil state, Or.inl ⟨h, rfl⟩⟩

/-- A first piece with tokens is read, and then the others are. -/
theorem inTurn_of_ne_nil (h : piece.tokens ≠ []) {rest : StateT σ (Except ε) (List α)}
    (hrest : ∀ state, InTurn fault read state pieces (rest.run state)) (state : σ) :
    InTurn fault read state (piece :: pieces) ((do
      let result ← read piece.tokens
      let results ← rest
      return result :: results).run state) := by
  rw [StateT.run_bind]
  cases hread : (read piece.tokens).run state with
  | error e => exact ⟨[], piece, pieces, [], state, rfl, .nil state, Or.inr ⟨h, hread⟩⟩
  | ok first =>
    obtain ⟨result, next⟩ := first
    have hrest := hrest next
    rw [ok_bind, StateT.run_bind]
    cases hresults : rest.run next with
    | ok others =>
      rw [hresults] at hrest
      exact .cons h hread hrest
    | error e =>
      rw [hresults] at hrest
      obtain ⟨front, other, back, results, last, rfl, hfront, hfault⟩ := hrest
      exact ⟨piece :: front, other, back, result :: results, last, rfl, .cons h hread hfront,
        hfault⟩

end Token.Piece

namespace Expr

open Token (Piece)

/-- The tokens of items are read as the items are. -/
theorem ofTokens_tokensAll {items : List Nested} (hnested : Nested.WellNestedAll items)
    (hne : items ≠ []) : ofTokens (Nested.tokensAll items) = ofNested items := by
  have hseveral (hlength : 2 ≤ (Nested.tokensAll items).length) :
      ofTokens (Nested.tokensAll items) = ofNested items := by
    obtain ⟨_, -, hread, -⟩ := ofTokens_of_two_le hlength
    exact hread _ (Nested.ofTokens_tokensAll hnested)
  match items with
  | [] => exact absurd rfl hne
  | [.single t] =>
    rw [ofNested]
    rfl
  | [.group opening inner closing] =>
    exact hseveral (by simp [Nested.countAll, Nested.count])
  | first :: second :: rest =>
    have hfirst := first.count_pos
    have hsecond := second.count_pos
    refine hseveral ?_
    simp only [Nested.length_tokensAll, Nested.countAll]
    omega

/-- The arguments of a call are read in turn, each from its own tokens. No state is kept. -/
theorem inTurn_ofSegments {segments : List Nested.Segment}
    (h : ∀ segment ∈ segments, Nested.WellNestedAll segment.items) :
    Piece.InTurn id (fun tokens ↦ liftM (ofTokens tokens)) () (segments.map Nested.Segment.piece)
      ((ofSegments segments).map (·, ())) := by
  have hlift : (liftM (ofSegments segments) : StateT Unit (Except ParseError) (List Expr)).run () =
      (ofSegments segments).map (·, ()) := by
    cases ofSegments segments <;> rfl
  rw [← hlift]
  clear hlift
  induction segments with
  | nil =>
    rw [ofSegments]
    exact .nil ()
  | cons segment rest ih =>
    obtain ⟨hnested, hrest⟩ := List.forall_mem_cons.mp h
    rw [ofSegments, List.map_cons]
    by_cases hempty : segment.items = []
    · have htokens : segment.piece.tokens = [] := by
        rw [Nested.Segment.piece, Nested.Segment.tokens, hempty]
        rfl
      rw [if_pos (by rw [hempty]; rfl)]
      exact Piece.inTurn_of_empty htokens ()
    · have htokens : segment.piece.tokens ≠ [] := by
        refine List.ne_nil_of_length_pos ?_
        rw [Nested.Segment.piece, Nested.Segment.tokens, Nested.length_tokensAll]
        exact Nested.countAll_pos hempty
      rw [if_neg (by simpa using hempty), ← ofTokens_tokensAll hnested hempty]
      simp only [liftM_bind, liftM_pure]
      exact Piece.inTurn_of_ne_nil htokens (fun _ ↦ ih hrest) ()

end Expr

namespace LooseNode

open Token (Piece)

section Parts

variable (read : List Token → Gathering LooseNode)

/-- Pieces that follow each other are read in turn: counting their tokens finds the token in front
of each.
Assumes: the tokens that are behind, with the opening parenthesis, are as many as were counted. -/
theorem inTurn_readArguments {opening before : Token} {inner ahead : List Token}
    {pieces : List Piece}
    (hinner : opening :: inner = ahead ++ pieces.flatMap fun piece ↦ piece.before :: piece.tokens)
    (hfirst : ∀ piece ∈ pieces.head?, piece.before = before) (names : List String) :
    Piece.InTurn .fault read names pieces
      ((readArguments read inner before ahead.length (pieces.map Piece.tokens)).run names) := by
  induction pieces generalizing ahead before names with
  | nil => exact .nil names
  | cons piece rest ih =>
    obtain rfl := hfirst piece rfl
    rw [List.map_cons, readArguments]
    by_cases hempty : piece.tokens = []
    · rw [if_pos (by rw [hempty]; rfl)]
      exact Piece.inTurn_of_empty hempty names
    rw [if_neg (by simpa using hempty)]
    -- with the tokens of this piece, and the one in front of it, behind
    have hahead : (ahead ++ piece.before :: piece.tokens).length =
        ahead.length + piece.tokens.length + 1 := by
      rw [List.length_append, List.length_cons, Nat.add_assoc]
    rw [List.flatMap_cons, ← List.append_assoc] at hinner
    have hlength := congrArg List.length hinner
    rw [List.length_cons, List.length_append, hahead] at hlength
    cases rest with
    | nil =>
      have hend : ¬ ahead.length + piece.tokens.length < inner.length := by
        simp only [List.flatMap_nil, List.length_nil] at hlength
        omega
      simp only [hend, if_false]
      exact Piece.inTurn_of_ne_nil hempty Piece.Reads.nil names
    | cons next rest =>
      have hmore : ahead.length + piece.tokens.length < inner.length := by
        simp only [List.flatMap_cons, List.length_append, List.length_cons] at hlength
        omega
      have hcomma : itemAt inner (ahead.length + piece.tokens.length) = .ok next.before := by
        have hnext := congrArg (·[ahead.length + piece.tokens.length + 1]?) hinner
        simp only [List.getElem?_cons_succ] at hnext
        rw [itemAt, hnext, ← hahead]
        simp
      simp only [hmore, if_true, hcomma, lift_ok_bind]
      rw [← hahead]
      exact Piece.inTurn_of_ne_nil hempty (ih hinner (by simp)) names

end Parts

/-! ### Calls -/

/-- Tokens that are read as a call: a word, an opening parenthesis, other tokens and a closing
parenthesis. The pass over all of them finds that parentheses match, that there is no operator to
divide at, and that only the word and the opening parenthesis are outside of parentheses. -/
structure IsCall (tokens : List Token) (callee opening : Token) (inner : List Token)
    (closing : Token) : Prop where
  tokens_eq : tokens = callee :: opening :: (inner ++ [closing])
  isWord : callee.kind = .word
  isOpening : opening.kind = .openParen
  isClosing : closing.kind = .closeParen
  passes : ∃ pass, Pass.run tokens = .ok pass ∧ pass.depth = 0 ∧ pass.split = none ∧
    pass.top.length = 2

namespace IsCall

variable {tokens inner : List Token} {callee opening closing : Token}
  (h : IsCall tokens callee opening inner closing)
include h

/-- The last token stands in front of the end. -/
theorem itemAt_last : itemAt tokens (tokens.length - 1) = .ok closing := by
  have htokens : tokens = (callee :: opening :: inner) ++ [closing] := h.tokens_eq
  have hlength : tokens.length - 1 = (callee :: opening :: inner).length := by
    rw [htokens, List.length_append]
    rfl
  rw [hlength, htokens]
  exact itemAt_append _ _ _

/-- Reading such tokens is reading a call. -/
theorem readStep_eq (read : List Token → Gathering LooseNode) :
    readStep read tokens = readCall read tokens (callee.span.union closing.span) := by
  obtain ⟨pass, hrun, hdepth, hsplit, htop⟩ := h.passes
  have hfirst : itemAt tokens 0 = .ok callee := by rw [h.tokens_eq]; rfl
  have hsecond : itemAt tokens 1 = .ok opening := by rw [h.tokens_eq]; rfl
  have hlength : tokens.length ≠ 0 ∧ tokens.length ≠ 1 := by simp [h.tokens_eq]
  rw [readStep, if_neg hlength.1, hfirst, lift_ok_bind, h.itemAt_last, lift_ok_bind]
  dsimp only
  rw [if_neg hlength.2, hrun, lift_ok_bind, hdepth, if_neg (Nat.lt_irrefl 0), hsplit]
  dsimp only
  rw [readGroup, hfirst, lift_ok_bind, hsecond, lift_ok_bind, h.itemAt_last, lift_ok_bind,
    if_neg (by simp [h.isWord]), if_pos ⟨h.isWord, h.isOpening, h.isClosing⟩,
    if_neg (by simp [htop])]

/-- The tokens between the parentheses are those of items. -/
theorem exists_items : ∃ items, Nested.WellNestedAll items ∧ Nested.tokensAll items = inner := by
  obtain ⟨pass, hrun, hdepth, -, htop⟩ := h.passes
  cases hitems : Nested.ofTokens tokens with
  | error mismatch =>
    have hfinds := Pass.finds_run hitems
    rw [hrun] at hfinds
    cases mismatch with
    | redundant t => cases hfinds
    | missing =>
      obtain ⟨_, ⟨⟩, hpos⟩ := hfinds
      omega
  | ok items =>
    obtain ⟨htokens, hnested⟩ := Nested.tokensAll_of_ofTokens hitems
    obtain ⟨lastAfter, hpass⟩ := Pass.run_tokensAll hnested
    rw [htokens, hrun] at hpass
    obtain rfl := Except.ok.inj hpass
    have hlength : items.length = 2 := (Nested.length_starts 0 items).symm.trans htop
    exact exists_items_of_call hnested hlength (htokens.trans h.tokens_eq) h.isWord h.isOpening

/-- Such tokens are read by position as a call of the pieces between its parentheses. -/
theorem exists_readCall_eq {pieces : List Piece} (hne : inner ≠ [])
    (hcut : cut .comma inner = .ok (pieces.map Piece.tokens))
    (hlayout : (pieces.flatMap fun piece ↦ piece.before :: piece.tokens) = opening :: inner)
    (read : List Token → Gathering LooseNode) (span : Span) (names : List String) :
    ∃ result, Piece.InTurn .fault read names pieces result ∧
      (readCall read tokens span).run names = result.map fun (args, names) ↦
        (application span (leaf .name callee.span Binary64.zero callee.text) args, names) := by
  have hcallee : itemAt tokens 0 = .ok callee := by rw [h.tokens_eq]; rfl
  have hopening : itemAt tokens 1 = .ok opening := by rw [h.tokens_eq]; rfl
  have hpart : partOf tokens 2 (tokens.length - 1) = .ok inner := by
    have htokens : tokens = [callee, opening] ++ inner ++ [closing] := by simp [h.tokens_eq]
    refine partOf_append htokens rfl ?_
    simp only [htokens, List.length_append, List.length_singleton]
    omega
  have hfirst : ∀ piece ∈ pieces.head?, piece.before = opening := by
    cases pieces with
    | nil => cases hlayout
    | cons piece rest =>
      rintro _ ⟨⟩
      exact (List.cons.inj hlayout).1
  refine ⟨_, @inTurn_readArguments read opening opening inner [] pieces hlayout.symm hfirst names,
    ?_⟩
  rw [readCall, hcallee, lift_ok_bind, hpart, lift_ok_bind]
  dsimp only
  rw [if_neg (by simpa using hne), hcut, lift_ok_bind, hopening, lift_ok_bind]
  rfl

/-- Such tokens are read as a call of the arguments among the items between its parentheses. -/
theorem ofTokens_eq {items : List Nested} (hitems : Nested.WellNestedAll items)
    (hinner : Nested.tokensAll items = inner) (hne : items ≠ []) :
    Expr.ofTokens tokens =
      (Expr.ofSegments (Nested.segmentsFrom opening [] items)).map fun args ↦
        .call callee.text callee.span args (callee.span.union closing.span) := by
  have hword : (Nested.single callee).WellNested := by
    simp [Nested.WellNested, h.isWord]
  have hgroup : (Nested.group opening items closing).WellNested :=
    ⟨h.isOpening, h.isClosing, hitems⟩
  have hnested : Nested.WellNestedAll [.single callee, .group opening items closing] :=
    ⟨hword, hgroup, trivial⟩
  have htokens : tokens = Nested.tokensAll [.single callee, .group opening items closing] := by
    simp [h.tokens_eq, ← hinner, Nested.tokensAll, Nested.tokens]
  have hdivide : Nested.divide? [.single callee, .group opening items closing] = none := by
    simp [Nested.divide?, Nested.divideFrom, Nested.operator?, h.isWord, TokenKind.operator?]
  have hsegments : Nested.segments opening items = Nested.segmentsFrom opening [] items :=
    if_neg (by simpa using hne)
  rw [htokens, Expr.ofTokens_tokensAll hnested (List.cons_ne_nil _ _), Expr.ofNested_eq, hdivide]
  simp only [Expr.ofUndivided, h.isWord, if_true, hsegments]
  rfl

end IsCall

/-- Assumes: tokens that are read as a call, with tokens between its parentheses. Cutting these at
commas succeeds. The parts, written one behind the other with the tokens directly in front of them,
are the opening parenthesis and the tokens that were cut; the tokens in front are the opening
parenthesis and the commas outside of all parentheses. In each part parentheses are balanced and no
comma stands outside of them. The call is read from its parts in turn, by position and by items
alike: all of them are its arguments, or the first that is not read gives the fault, which is for an
empty one around the end of the token in front of it. -/
theorem readCall_arguments {tokens inner : List Token} {callee opening closing : Token}
    (h : IsCall tokens callee opening inner closing) (hne : inner ≠ []) :
    ∃ pieces : List Piece,
      cut .comma inner = .ok (pieces.map Piece.tokens) ∧
      (pieces.flatMap fun piece ↦ piece.before :: piece.tokens) = opening :: inner ∧
      pieces.map Piece.before = opening :: Token.outerCommas 0 inner ∧
      pieces.length = (Token.outerCommas 0 inner).length + 1 ∧
      (∀ piece ∈ pieces,
        Token.Balanced piece.tokens ∧ Token.outerCommas 0 piece.tokens = [] ∧
          (-2 ^ 63 < piece.before.span.stop → piece.before.span.stop < 2 ^ 63 - 1 →
            piece.before.span.after =
              ⟨piece.before.span.stop - 1, piece.before.span.stop + 1⟩)) ∧
      (∀ read, readStep read tokens = readCall read tokens (callee.span.union closing.span) ∧
        ∀ names, ∃ result, Piece.InTurn .fault read names pieces result ∧
          (readStep read tokens).run names = result.map fun (args, names) ↦
            (application (callee.span.union closing.span)
              (leaf .name callee.span Binary64.zero callee.text) args, names)) ∧
      ∃ result : Except ParseError (List Expr),
        Piece.InTurn id (fun tokens ↦ liftM (Expr.ofTokens tokens)) () pieces
          (result.map (·, ())) ∧
        Expr.ofTokens tokens = result.map fun args ↦
          .call callee.text callee.span args (callee.span.union closing.span) := by
  obtain ⟨items, hitems, hinner⟩ := h.exists_items
  have hitemsNe : items ≠ [] := by
    rintro rfl
    exact hne hinner.symm
  have hnone : Nested.WellNestedAll [] := trivial
  have hnested : ∀ segment ∈ Nested.segmentsFrom opening [] items,
      Nested.WellNestedAll segment.items :=
    fun segment hmem ↦ Nested.wellNestedAll_of_mem_segmentsFrom hnone hitems hmem
  have hcut := cut_tokensAll hitems opening
  have hlayout := Nested.flatMap_segmentsFrom opening [] items
  have hbefore := Nested.map_before_segmentsFrom opening [] hitems
  rw [hinner] at hcut hlayout hbefore
  refine ⟨(Nested.segmentsFrom opening [] items).map Nested.Segment.piece, ?_, hlayout, ?_, ?_, ?_,
    ?_, _, Expr.inTurn_ofSegments hnested, h.ofTokens_eq hitems hinner hitemsNe⟩
  · rw [List.map_map]
    exact hcut
  · rw [List.map_map]
    exact hbefore
  · rw [List.length_map, ← List.length_map (f := Nested.Segment.before), hbefore, List.length_cons]
  · intro piece hpiece
    obtain ⟨segment, hmem, rfl⟩ := List.mem_map.mp hpiece
    refine ⟨?_, ?_, ?_⟩
    · exact Nested.exists_ofTokens_iff.mp ⟨_, Nested.ofTokens_tokensAll (hnested segment hmem)⟩
    · exact Nested.outerCommas_of_commaFree (hnested segment hmem)
        (Nested.commaFree_of_mem_segmentsFrom Nested.commaFree_nil hmem)
    · intro hlow hhigh
      rw [Span.after, Span.wrapped_eq (by omega) (by omega), Span.wrapped_eq (by omega) (by omega)]
  · intro read
    have hread := h.readStep_eq read
    refine ⟨hread, fun names ↦ ?_⟩
    rw [hread]
    refine h.exists_readCall_eq hne ?_ hlayout read _ names
    rw [List.map_map]
    exact hcut

/-- The tokens between the outer parentheses of `f(g(x,y),)`. -/
def pairThenNothing : List Token :=
  [.ofChars .word 2 ['g'], .ofChars .openParen 3 ['('], .ofChars .word 4 ['x'],
    .ofChars .comma 5 [','], .ofChars .word 6 ['y'], .ofChars .closeParen 7 [')'],
    .ofChars .comma 8 [',']]

/-- The tokens of `f(g(x,y),)`. -/
def callOfPairThenNothing : List Token :=
  .ofChars .word 0 ['f'] :: .ofChars .openParen 1 ['('] ::
    (pairThenNothing ++ [.ofChars .closeParen 9 [')']])

/-- In `f(g(x,y),)` the second comma is outside of the inner parentheses and the first is not. So
there are two parts, a call and an empty one, and the fault is around the end of the second comma,
which is the token in front of the empty part. -/
theorem readCall_arguments_pairThenNothing :
    IsCall callOfPairThenNothing (.ofChars .word 0 ['f']) (.ofChars .openParen 1 ['('])
        pairThenNothing (.ofChars .closeParen 9 [')']) ∧
      cut .comma pairThenNothing = .ok [pairThenNothing.take 6, []] ∧
      Token.outerCommas 0 pairThenNothing = [.ofChars .comma 8 [',']] ∧
      Expr.ofTokens callOfPairThenNothing = .error ⟨⟨8, 10⟩, .empty⟩ := by
  have hcall : IsCall callOfPairThenNothing (.ofChars .word 0 ['f']) (.ofChars .openParen 1 ['('])
      pairThenNothing (.ofChars .closeParen 9 [')']) :=
    ⟨rfl, rfl, rfl, rfl, _, rfl, rfl, rfl, rfl⟩
  have hparts : cut .comma pairThenNothing = .ok [pairThenNothing.take 6, []] := rfl
  have hcommas : Token.outerCommas 0 pairThenNothing = [.ofChars .comma 8 [',']] := rfl
  have hinside : (liftM (Expr.ofTokens (pairThenNothing.take 6)) :
      StateT Unit (Except ParseError) Expr).run () =
        .ok (.call "g" ⟨2, 3⟩ [.var "x" ⟨4, 5⟩, .var "y" ⟨6, 7⟩] ⟨2, 8⟩, ()) := by
    cbv
  obtain ⟨pieces, hcut, -, hbefore, hlength, -, -, result, hturn, hread⟩ :=
    readCall_arguments hcall (by decide)
  refine ⟨hcall, hparts, hcommas, ?_⟩
  obtain ⟨⟨_, _⟩, ⟨_, _⟩, rfl⟩ := List.length_eq_two.mp hlength
  cases hcut.symm.trans hparts
  rw [hcommas] at hbefore
  cases hbefore
  cases result with
  | ok args =>
    cases hturn with
    | cons _ _ hlast =>
      cases hlast with
      | cons hempty _ _ => exact absurd rfl hempty
  | error e =>
    rw [hread]
    obtain ⟨front, piece, back, _, _, hsplit, -, hfault⟩ := hturn
    cases front with
    | nil =>
      cases hsplit
      rcases hfault with ⟨hempty, -⟩ | ⟨-, hrefused⟩
      · cases hempty
      · cases hinside.symm.trans hrefused
    | cons _ rest =>
      cases rest with
      | nil =>
        cases hsplit
        rcases hfault with ⟨-, rfl⟩ | ⟨hsome, -⟩
        · rfl
        · exact absurd rfl hsome
      | cons _ _ => simp at hsplit

end LooseNode

end Reckoner
