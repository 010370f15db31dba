import Reckoner.Proofs.Positions

/-!
# Reading by position has no breach

Reading tokens by their positions gives the tree of what reading them by their items gives, or the
same fault. So no position that it uses is out of range, no part that it reads is empty, no kind
that it compares binds nothing, and it goes no deeper than there are tokens. The names that it
gathers on the way are those of the variables in the value, and no others.

Each reader of a part is brought to the items of its tokens, given that parts of fewer tokens are
read so (`LooseNode.ReadsUpTo`): what is divided (`LooseNode.readDivided_tokensAll`), arguments
(`LooseNode.readArguments_segments`), groups and calls (`LooseNode.readGroup_tokensAll`).
Expressions follow by induction on the limit (`LooseNode.readsUpTo_readExpr`), and from them lines
(`LooseNode.readLine_eq`).

Main statement: every list of tokens is read as a tree or has a fault, and what is done with the
tree comes to no breach (`LooseNode.ofTokens_sound`).
-/

set_option autoImplicit false

namespace Reckoner

/-! ### Gathering names -/

namespace LooseNode

section Gathering

variable {α β γ δ : Type}

/-- What gives a value gathers nothing and goes on with it. -/
theorem lift_ok_bind (x : α) (next : α → Gathering β) :
    ((liftM (.ok x : Except (Stop ParseError) α) : Gathering α) >>= next) = next x :=
  rfl

/-- A set with further names, one after the other. -/
def insertAll (gathered names : List String) : List String :=
  names.foldl (fun gathered name ↦ gathered.insert name) gathered

/-- Gathers names one after the other. -/
def note (names : List String) : Gathering Unit :=
  modify (insertAll · names)

/-- A result without a breach, brought to another form while names in it are gathered. -/
def gatherAs (form : α → β) (names : α → List String) (result : Except ParseError α) :
    Gathering β := do
  let x ← Stop.free result
  note (names x)
  return form x

variable {form : α → β} {names : α → List String} {form' : γ → δ} {names' : γ → List String}
  {result : Except ParseError α}

/-- A fault has no form. -/
theorem gatherAs_error (e : ParseError) : gatherAs form names (.error e) = throw (.fault e) :=
  rfl

/-- Names that are gathered in front of a result. -/
theorem note_bind_gatherAs (front : List String) :
    (note front >>= fun _ ↦ gatherAs form names result) =
      gatherAs form (fun x ↦ front ++ names x) result := by
  cases result with
  | error e => rfl
  | ok x =>
    funext gathered
    have hnames : insertAll (insertAll gathered front) (names x) =
        insertAll gathered (front ++ names x) :=
      List.foldl_append.symm
    exact congrArg (fun names ↦ Except.ok (form x, names)) hnames

/-- What follows a value goes on in the other form, with the value's names gathered. -/
theorem bind_gatherAs {next : α → Except ParseError γ} {next' : β → Gathering δ}
    (h : ∀ x, (note (names x) >>= fun _ ↦ next' (form x)) = gatherAs form' names' (next x)) :
    (gatherAs form names result >>= next') = gatherAs form' names' (result >>= next) := by
  cases result with
  | ok x => exact h x
  | error e => rfl

/-- A second value follows a first one. -/
theorem note_bind_bind_gatherAs {front : List String} {next : α → Except ParseError γ}
    {next' : β → Gathering δ}
    (h : ∀ x, (note (front ++ names x) >>= fun _ ↦ next' (form x)) =
      gatherAs form' names' (next x)) :
    (note front >>= fun _ ↦ gatherAs form names result >>= next') =
      gatherAs form' names' (result >>= next) := by
  rw [← bind_assoc, note_bind_gatherAs]
  exact bind_gatherAs h

end Gathering

end LooseNode

/-! ### Tokens at the ends of items -/

namespace Nested

/-- The tokens of an item begin with its first one. -/
theorem tokens_eq_cons (item : Nested) : ∃ tail, item.tokens = item.first :: tail := by
  cases item with
  | single t => exact ⟨[], rfl⟩
  | group opening inner closing => exact ⟨_, rfl⟩

/-- The tokens of an item end with its last one. -/
theorem tokens_eq_concat (item : Nested) : ∃ init, item.tokens = init ++ [item.last] := by
  cases item with
  | single t => exact ⟨[], rfl⟩
  | group opening inner closing => exact ⟨opening :: tokensAll inner, rfl⟩

/-- Only no items have no tokens. -/
theorem countAll_pos {items : List Nested} (h : items ≠ []) : 0 < countAll items := by
  cases items with
  | nil => exact absurd rfl h
  | cons item rest => exact Nat.lt_of_lt_of_le item.count_pos (Nat.le_add_right _ _)

/-- The first token of an item stands where the item begins. -/
theorem itemAt_tokensAll {items front back : List Nested} {item : Nested}
    (hitems : items = front ++ item :: back) :
    itemAt (tokensAll items) (countAll front) = .ok item.first := by
  obtain ⟨tail, htail⟩ := item.tokens_eq_cons
  rw [hitems, tokensAll_append, tokensAll, htail, List.cons_append, ← length_tokensAll front]
  exact itemAt_append _ _ _

/-- The first token of items is that of the first item. -/
theorem itemAt_first (item : Nested) (rest : List Nested) :
    itemAt (tokensAll (item :: rest)) 0 = .ok item.first :=
  itemAt_tokensAll (List.nil_append _).symm

/-- A token follows the opening parenthesis of a group. -/
theorem exists_itemAt_one (opening closing : Token) (inner rest : List Nested) :
    ∃ t, itemAt (tokensAll (.group opening inner closing :: rest)) 1 = .ok t := by
  simp only [tokensAll, tokens, List.cons_append]
  cases tokensAll inner with
  | nil => exact ⟨closing, rfl⟩
  | cons t _ => exact ⟨t, rfl⟩

/-- The position of an item is the number of tokens in front of it. -/
theorem itemAt_starts {items front back : List Nested} {item : Nested}
    (hitems : items = front ++ item :: back) :
    itemAt (starts 0 items) front.length = .ok (countAll front) := by
  rw [hitems, starts_append, starts, ← length_starts 0 front, Nat.zero_add]
  exact itemAt_append _ _ _

/-- The last token of items is that of the last item. -/
theorem itemAt_last {items : List Nested} (h : items ≠ []) :
    itemAt (tokensAll items) ((tokensAll items).length - 1) = .ok (items.getLast h).last := by
  obtain ⟨init, hinit⟩ := (items.getLast h).tokens_eq_concat
  have htokens : tokensAll items =
      tokensAll items.dropLast ++ init ++ [(items.getLast h).last] := by
    have hitems := congrArg tokensAll (List.dropLast_concat_getLast h)
    rw [tokensAll_append, tokensAll, hinit] at hitems
    simpa [tokensAll] using hitems.symm
  have hne : tokensAll items ≠ [] := by simp [htokens]
  rw [itemAt_getLast hne]
  simp [htokens]

/-- The first token of an item is an opening parenthesis only if the item is a group. -/
theorem first_kind_iff {item : Nested} (h : item.WellNested) :
    item.first.kind = .openParen ↔ item.isGroup = true := by
  cases item with
  | single t => simp [first, isGroup, h.1]
  | group opening inner closing => simp [first, isGroup, h.1]

/-- The last token of an item is a closing parenthesis only if the item is a group. -/
theorem last_kind_iff {item : Nested} (h : item.WellNested) :
    item.last.kind = .closeParen ↔ item.isGroup = true := by
  cases item with
  | single t => simp [last, isGroup, h.2]
  | group opening inner closing => simp [last, isGroup, h.2.1]

/-- Every item of a well nested sequence is well nested. -/
theorem wellNested_of_mem {item : Nested} {items : List Nested} (h : WellNestedAll items)
    (hmem : item ∈ items) : item.WellNested := by
  induction items with
  | nil => cases hmem
  | cons other rest ih =>
    rcases List.mem_cons.mp hmem with rfl | hmem
    · exact h.1
    · exact ih h.2 hmem

/-! ### Arguments in a row -/

/-- The tokens of arguments, with the token in front of each but the first. -/
def layout : List Segment → List Token
  | [] => []
  | [segment] => segment.tokens
  | segment :: next :: rest => segment.tokens ++ next.before :: layout (next :: rest)

/-- The first argument stands behind the given token. -/
theorem segmentsFrom_eq_cons (before : Token) (current inner : List Nested) :
    ∃ items rest, segmentsFrom before current inner = ⟨before, items⟩ :: rest := by
  induction inner generalizing current with
  | nil => exact ⟨_, _, rfl⟩
  | cons item inner ih =>
    cases item with
    | single t =>
      rw [segmentsFrom]
      split
      · exact ⟨_, _, rfl⟩
      · exact ih _
    | group opening inside closing => exact ih _

/-- Arguments in a row are the tokens between the parentheses. -/
theorem layout_segmentsFrom (before : Token) (current inner : List Nested) :
    layout (segmentsFrom before current inner) =
      tokensAll current.reverse ++ tokensAll inner := by
  induction inner generalizing before current with
  | nil => simp [segmentsFrom, layout, Segment.tokens, tokensAll]
  | cons item inner ih =>
    have hpass : layout (segmentsFrom before (item :: current) inner) =
        tokensAll current.reverse ++ tokensAll (item :: inner) := by
      rw [ih, List.reverse_cons, tokensAll_append, List.append_assoc, ← tokensAll_append]
      rfl
    cases item with
    | single t =>
      rw [segmentsFrom]
      split
      · have hnext := ih t []
        obtain ⟨items, rest, hsegments⟩ := segmentsFrom_eq_cons t [] inner
        rw [hsegments] at hnext ⊢
        rw [layout, hnext]
        rfl
      · exact hpass
    | group opening inside closing => exact hpass

/-- Every argument of well nested items is well nested. -/
theorem wellNestedAll_of_mem_segmentsFrom {before : Token} {current inner : List Nested}
    {segment : Segment} (hcurrent : WellNestedAll current) (hinner : WellNestedAll inner)
    (h : segment ∈ segmentsFrom before current inner) : WellNestedAll segment.items := by
  induction inner generalizing before current with
  | nil =>
    obtain rfl := List.mem_singleton.mp h
    exact (wellNestedAll_reverse current).mpr hcurrent
  | cons item inner ih =>
    obtain ⟨hitem, hinner⟩ := hinner
    have hnone : WellNestedAll [] := trivial
    have hpassed : WellNestedAll (item :: current) := ⟨hitem, hcurrent⟩
    cases item with
    | single t =>
      rw [segmentsFrom] at h
      split at h
      · rcases List.mem_cons.mp h with rfl | h
        · exact (wellNestedAll_reverse current).mpr hcurrent
        · exact ih hnone hinner h
      · exact ih hpassed hinner h
    | group opening inside closing => exact ih hpassed hinner h

/-- An argument has fewer tokens than all arguments count. -/
theorem countAll_lt_segmentCount {segment : Segment} {segments : List Segment}
    (h : segment ∈ segments) : countAll segment.items < segmentCount segments := by
  induction segments with
  | nil => cases h
  | cons other rest ih =>
    rw [segmentCount]
    rcases List.mem_cons.mp h with rfl | h
    · omega
    · have hlt := ih h
      omega

/-- What holds of items if it holds of every part that reading them reads: what is inside of a
group, both sides of a division, and the arguments of a call. -/
@[elab_as_elim] theorem induction_parts {motive : List Nested → Prop} (nil : motive [])
    (single : ∀ t, motive [.single t])
    (group : ∀ opening inner closing, motive inner → motive [.group opening inner closing])
    (divided : ∀ first second rest d, divide? (first :: second :: rest) = some d →
      motive d.before.reverse → motive d.behind → motive (first :: second :: rest))
    (undivided : ∀ first second rest, divide? (first :: second :: rest) = none →
      (∀ opening inner closing, second = .group opening inner closing →
        ∀ segment ∈ segments opening inner, motive segment.items) →
      motive (first :: second :: rest))
    (items : List Nested) : motive items := by
  -- on the number of tokens: every part has fewer
  induction hcount : countAll items using Nat.strongRecOn generalizing items with
  | ind count ih =>
    subst hcount
    match items with
    | [] => exact nil
    | [.single t] => exact single t
    | [.group opening inner closing] =>
      refine group opening inner closing (ih _ ?_ inner rfl)
      simp only [countAll, Nested.count]
      omega
    | first :: second :: rest =>
      cases hdivide : divide? (first :: second :: rest) with
      | some d =>
        obtain ⟨hbefore, hbehind⟩ := count_of_divides (divides_of_divide? hdivide)
        exact divided first second rest d hdivide (ih _ hbefore _ rfl) (ih _ hbehind _ rfl)
      | none =>
        refine undivided first second rest hdivide ?_
        rintro opening inner closing rfl segment hsegment
        refine ih _ ?_ segment.items rfl
        have hlt := countAll_lt_segmentCount hsegment
        have hle := segmentCount_segments_le opening inner
        simp only [countAll, Nested.count]
        omega

end Nested

namespace Expr

/-- The expression of divided items, from the expressions of their parts. -/
def ofDivision (d : Nested.Division) : Except ParseError Expr :=
  if d.behind.isEmpty then .error ⟨d.token.span.after, .noRightHand⟩
  else if d.before.isEmpty then
    match d.op with
    | .add => ofNested d.behind
    | .sub => do
      let right ← ofNested d.behind
      return binary .sub (signZero d.token.span) right
    | _ => .error ⟨d.token.span, .badSign⟩
  else do
    let left ← ofNested d.before.reverse
    let right ← ofNested d.behind
    return binary d.op left right

/-- The expression of several items that are not divided. -/
def ofUndivided (first second : Nested) (rest : List Nested) : Except ParseError Expr :=
  match first, second, rest with
  | .single t, .group opening inner closing, [] =>
    if t.kind = .word then do
      let args ← ofSegments (Nested.segments opening inner)
      return call t.text t.span args (t.span.union closing.span)
    else .error (shapeError (first :: second :: rest))
  | _, _, _ => .error (shapeError (first :: second :: rest))

/-- Several items are read by their division, if there is one. -/
theorem ofNested_eq (first second : Nested) (rest : List Nested) :
    ofNested (first :: second :: rest) =
      match Nested.divide? (first :: second :: rest) with
      | some d => ofDivision d
      | none => ofUndivided first second rest := by
  rw [ofNested]
  split
  · rename_i d hdivide
    simp only [hdivide]
    rfl
  · rename_i hdivide
    simp only [hdivide]
    cases first <;> cases second <;> cases rest <;> rfl

/-- The tree of an expression has the expression's span. -/
@[simp] theorem spanOf_toNode (e : Expr) : e.toNode.spanOf = .ok e.span := by
  cases e with
  | literal text value span => rfl
  | var name span => rfl
  | call callee calleeSpan args span => rfl
  | binary op left right => rfl

end Expr

namespace LooseNode

/-- A single token is read as a leaf. -/
theorem readLeaf_eq (t : Token) :
    readLeaf t = gatherAs Expr.toNode Expr.reads (Expr.ofToken t) := by
  unfold readLeaf Expr.ofToken
  generalize t.kind = kind
  cases kind with
  | number => cases Literal.read? t.text <;> rfl
  | _ => rfl

/-- A reader reads the tokens of items, up to a number of them, as the items are read. -/
def ReadsUpTo (limit : Nat) (read : List Token → Gathering LooseNode) : Prop :=
  ∀ items, Nested.WellNestedAll items → items ≠ [] → Nested.countAll items ≤ limit →
    read (Nested.tokensAll items) = gatherAs Expr.toNode Expr.reads (Expr.ofNested items)

section Parts

variable {limit : Nat} {read : List Token → Gathering LooseNode}

/-- Tokens that are divided are read as their parts are. -/
theorem readDivided_tokensAll (hread : ReadsUpTo limit read) {items : List Nested}
    (hnested : Nested.WellNestedAll items) (hcount : Nested.countAll items ≤ limit + 1)
    {d : Nested.Division} (hd : d.Divides items) (hop : d.token.kind.operator? = some d.op) :
    readDivided read (Nested.tokensAll items) (Nested.countAll d.before) =
      gatherAs Expr.toNode Expr.reads (Expr.ofDivision d) := by
  obtain ⟨before, token, op, behind⟩ := d
  have htokens := Expr.tokensAll_of_divides hd
  have hbefore := (Expr.wellNestedAll_of_divides hd hnested).1
  have hbehind := (Expr.wellNestedAll_of_divides hd hnested).2
  obtain ⟨hbeforeLt, hbehindLt⟩ := Nested.count_of_divides hd
  dsimp only [Expr.ofDivision] at htokens hbefore hbehind hbeforeLt hbehindLt hop ⊢
  have hlength : (Nested.tokensAll before.reverse).length = Nested.countAll before := by simp
  have hfront : partOf (Nested.tokensAll items) 0 (Nested.countAll before) =
      .ok (Nested.tokensAll before.reverse) :=
    hlength ▸ partOf_front htokens
  have hback : partOf (Nested.tokensAll items) (Nested.countAll before + 1)
      (Nested.tokensAll items).length = .ok (Nested.tokensAll behind) := by
    have hlength' : (Nested.tokensAll before.reverse ++ [token]).length =
        Nested.countAll before + 1 := by
      simp
    rw [← hlength']
    exact partOf_behind (htokens.trans (List.append_cons _ _ _))
  have hkind := TokenKind.nodeKind_of_operator? hop
  rw [readDivided, Pass.itemAt_of_divides hd, lift_ok_bind, hfront, lift_ok_bind, hback,
    lift_ok_bind, Nested.length_tokensAll, Nested.length_tokensAll, Nested.countAll_reverse]
  by_cases hnone : behind = []
  · subst hnone
    rfl
  have hbehindCount : Nested.countAll behind ≠ 0 := Nat.ne_of_gt (Nested.countAll_pos hnone)
  have hbehindSome : behind.isEmpty = false := by simpa using hnone
  have hreadBehind := hread behind hbehind hnone (by omega)
  simp only [hbehindCount, hbehindSome, ↓reduceIte, Bool.false_eq_true, hreadBehind, hkind]
  by_cases hfirst : before = []
  · subst hfirst
    simp only [Nested.countAll, List.isEmpty_nil, ↓reduceIte]
    cases op with
    | add => rfl
    | sub =>
      refine bind_gatherAs fun right ↦ ?_
      rw [Expr.spanOf_toNode]
      rfl
    | mul | div | pow => rfl
  · have hbeforeCount : Nested.countAll before ≠ 0 := Nat.ne_of_gt (Nested.countAll_pos hfirst)
    have hbeforeSome : before.isEmpty = false := by simpa using hfirst
    have hreadBefore := hread before.reverse hbefore (by simpa using hfirst) (by omega)
    simp only [hbeforeCount, hbeforeSome, ↓reduceIte, Bool.false_eq_true, hreadBefore]
    refine bind_gatherAs fun left ↦ note_bind_bind_gatherAs fun right ↦ ?_
    rw [Expr.spanOf_toNode, Expr.spanOf_toNode]
    rfl

/-- Arguments that follow each other in the tokens are read as they are cut, the comma in front of
each found by the number of tokens behind. -/
theorem readArguments_segments (hread : ReadsUpTo limit read) {segments : List Nested.Segment}
    {inner front : List Token} {before : Token} (hinner : inner = front ++ Nested.layout segments)
    (hfirst : ∀ segment ∈ segments.head?, segment.before = before)
    (hsegments : ∀ segment ∈ segments,
      Nested.WellNestedAll segment.items ∧ Nested.countAll segment.items ≤ limit) :
    readArguments read inner before front.length (segments.map Nested.Segment.tokens) =
      gatherAs Expr.toNodes Expr.readsAll (Expr.ofSegments segments) := by
  -- on the arguments: `front` holds the tokens that are behind
  induction segments generalizing front before with
  | nil =>
    rw [Expr.ofSegments]
    rfl
  | cons segment rest ih =>
    obtain rfl := hfirst segment rfl
    obtain ⟨hnested, hcount⟩ := hsegments segment List.mem_cons_self
    have hlength : segment.tokens.length = Nested.countAll segment.items :=
      Nested.length_tokensAll _
    rw [List.map_cons, readArguments, Expr.ofSegments, hlength]
    by_cases hempty : segment.items = []
    · simp only [hempty, Nested.countAll, ↓reduceIte, List.isEmpty_nil, gatherAs_error]
    have hpos := Nested.countAll_pos hempty
    have hsome : segment.items.isEmpty = false := by simpa using hempty
    rw [if_neg (Nat.ne_of_gt hpos), Nested.Segment.tokens, hread _ hnested hempty hcount]
    simp only [hsome, Bool.false_eq_true, ↓reduceIte]
    refine bind_gatherAs fun arg ↦ ?_
    -- a comma follows unless this is the last argument, and that is what the reader compares
    cases rest with
    | nil =>
      have hend : ¬ front.length + Nested.countAll segment.items < inner.length := by
        rw [hinner, Nested.layout, List.length_append, hlength]
        exact Nat.lt_irrefl _
      have hnone : readArguments read inner segment.before
          (front.length + Nested.countAll segment.items) ([].map Nested.Segment.tokens) =
            gatherAs Expr.toNodes Expr.readsAll (.ok []) := rfl
      rw [if_neg hend, Expr.ofSegments, hnone]
      exact note_bind_bind_gatherAs fun args ↦ rfl
    | cons next rest =>
      rw [Nested.layout] at hinner
      have hcomma : inner = (front ++ segment.tokens) ++ next.before ::
          Nested.layout (next :: rest) := by
        rw [hinner, List.append_assoc]
      have hpassed : (front ++ segment.tokens).length =
          front.length + Nested.countAll segment.items := by
        rw [List.length_append, hlength]
      have hmore : front.length + Nested.countAll segment.items < inner.length := by
        have hlengthInner := congrArg List.length hcomma
        rw [List.length_append, hpassed, List.length_cons] at hlengthInner
        omega
      have hitem : itemAt inner (front.length + Nested.countAll segment.items) =
          .ok next.before := by
        rw [← hpassed, hcomma]
        exact itemAt_append _ _ _
      have hbehind : inner = (front ++ segment.tokens ++ [next.before]) ++
          Nested.layout (next :: rest) := by
        rw [hcomma, List.append_cons]
      have hposition : front.length + Nested.countAll segment.items + 1 =
          (front ++ segment.tokens ++ [next.before]).length := by
        rw [List.length_append, hpassed, List.length_singleton]
      rw [if_pos hmore, hitem, lift_ok_bind, hposition,
        ih hbehind (by simp) fun segment hmem ↦ hsegments segment (List.mem_cons_of_mem _ hmem)]
      exact note_bind_bind_gatherAs fun args ↦ rfl

/-- The tokens between the parentheses of a call are read as its arguments. -/
theorem readArguments_tokensAll (hread : ReadsUpTo limit read) {opening : Token}
    {inner : List Nested} (hinner : Nested.WellNestedAll inner)
    (hcount : Nested.countAll inner ≤ limit) :
    readArguments read (Nested.tokensAll inner) opening 0
        ((Nested.segmentsFrom opening [] inner).map Nested.Segment.tokens) =
      gatherAs Expr.toNodes Expr.readsAll
        (Expr.ofSegments (Nested.segmentsFrom opening [] inner)) := by
  have hlayout : Nested.tokensAll inner =
      [] ++ Nested.layout (Nested.segmentsFrom opening [] inner) :=
    (Nested.layout_segmentsFrom opening [] inner).symm
  have hstart : Nested.WellNestedAll [] := trivial
  refine readArguments_segments hread hlayout ?_ ?_
  · obtain ⟨items, rest, hsegments⟩ := Nested.segmentsFrom_eq_cons opening [] inner
    rw [hsegments]
    rintro segment ⟨⟩
    rfl
  · intro segment hmem
    have hlt := Nested.countAll_lt_segmentCount hmem
    rw [Nested.segmentCount_segmentsFrom] at hlt
    refine ⟨Nested.wellNestedAll_of_mem_segmentsFrom hstart hinner hmem, ?_⟩
    simp only [Nested.countAll] at hlt
    omega

/-- The tokens of a word in front of a group are read as a call. -/
theorem readCall_tokensAll (hread : ReadsUpTo limit read) {callee opening closing : Token}
    {inner : List Nested} (hinner : Nested.WellNestedAll inner)
    (hcount : Nested.countAll inner ≤ limit) (span : Span) :
    readCall read (Nested.tokensAll [.single callee, .group opening inner closing]) span =
      gatherAs Expr.toNode Expr.reads (do
        let args ← Expr.ofSegments (Nested.segments opening inner)
        return .call callee.text callee.span args span) := by
  have htokens : Nested.tokensAll [.single callee, .group opening inner closing] =
      [callee, opening] ++ Nested.tokensAll inner ++ [closing] := by
    simp [Nested.tokensAll, Nested.tokens]
  have hpart : partOf ([callee, opening] ++ Nested.tokensAll inner ++ [closing]) 2
      (([callee, opening] ++ Nested.tokensAll inner ++ [closing]).length - 1) =
        .ok (Nested.tokensAll inner) := by
    refine partOf_append rfl rfl ?_
    rw [List.length_append, List.length_append]
    rfl
  have hcallee : itemAt ([callee, opening] ++ Nested.tokensAll inner ++ [closing]) 0 =
      .ok callee := rfl
  have hopening : itemAt ([callee, opening] ++ Nested.tokensAll inner ++ [closing]) 1 =
      .ok opening := rfl
  rw [readCall, htokens, hcallee, lift_ok_bind, hpart, lift_ok_bind, Nested.length_tokensAll]
  by_cases hnone : inner = []
  · subst hnone
    rw [Nested.segments, List.isEmpty_nil, if_pos rfl, Expr.ofSegments]
    rfl
  have hsome : inner.isEmpty = false := by simpa using hnone
  have hpos := Nested.countAll_pos hnone
  rw [if_neg (Nat.ne_of_gt hpos), Nested.segments, hsome, if_neg Bool.false_ne_true,
    cut_tokensAll hinner opening, lift_ok_bind, hopening, lift_ok_bind,
    readArguments_tokensAll hread hinner hcount]
  exact bind_gatherAs fun args ↦ rfl

/-- The tokens of a group alone are read as what it holds. -/
theorem readGroup_group (hread : ReadsUpTo limit read) {opening closing : Token}
    {inner : List Nested} (hnested : (Nested.group opening inner closing).WellNested)
    (hcount : Nested.countAll inner ≤ limit) :
    readGroup read (Nested.tokensAll [.group opening inner closing])
        (Nested.starts 0 [.group opening inner closing])
        (Nested.spanOf [.group opening inner closing]) =
      gatherAs Expr.toNode Expr.reads
        (if inner.isEmpty then .error ⟨opening.span.union closing.span, .empty⟩
        else Expr.ofNested inner) := by
  obtain ⟨hopen, hclose, hinner⟩ := hnested
  have htokens : Nested.tokensAll [.group opening inner closing] =
      [opening] ++ Nested.tokensAll inner ++ [closing] := by
    simp [Nested.tokensAll, Nested.tokens]
  have hlength : ([opening] ++ Nested.tokensAll inner ++ [closing]).length - 1 =
      ([opening] ++ Nested.tokensAll inner).length := by
    rw [List.length_append]
    rfl
  have hfirst : itemAt ([opening] ++ Nested.tokensAll inner ++ [closing]) 0 = .ok opening := rfl
  obtain ⟨second, hsecond⟩ := Nested.exists_itemAt_one opening closing inner []
  rw [htokens] at hsecond
  have hlast : itemAt ([opening] ++ Nested.tokensAll inner ++ [closing])
      ([opening] ++ Nested.tokensAll inner).length = .ok closing :=
    itemAt_append _ _ _
  have hpart : partOf ([opening] ++ Nested.tokensAll inner ++ [closing]) 1
      ([opening] ++ Nested.tokensAll inner).length = .ok (Nested.tokensAll inner) :=
    partOf_append rfl rfl List.length_append
  rw [readGroup, htokens, hlength, hfirst, lift_ok_bind, hsecond, lift_ok_bind, hlast, lift_ok_bind,
    if_pos ⟨hopen, hclose⟩, if_neg (by simp), hpart, lift_ok_bind, Nested.length_tokensAll]
  by_cases hnone : inner = []
  · subst hnone
    rfl
  have hsome : inner.isEmpty = false := by simpa using hnone
  rw [if_neg (Nat.ne_of_gt (Nested.countAll_pos hnone)), hsome, if_neg Bool.false_ne_true]
  exact hread inner hinner hnone hcount

section Shapes

variable {second : Nested} {rest : List Nested}

/-- Whether the items end with a group shows in their last token. -/
theorem last_kind_eq_closeParen_iff {items : List Nested} (hnested : Nested.WellNestedAll items)
    (hne : items ≠ []) :
    (items.getLast hne).last.kind = .closeParen ↔
      items.getLast?.any Nested.isGroup = true := by
  have hlast := Nested.wellNested_of_mem hnested (List.getLast_mem hne)
  rw [Nested.last_kind_iff hlast, List.getLast?_eq_some_getLast hne, Option.any_some]

/-- Items behind a group have no known shape. -/
theorem readGroup_behind_group {opening closing : Token} {inner : List Nested}
    (hnested : Nested.WellNestedAll (.group opening inner closing :: second :: rest)) :
    readGroup read (Nested.tokensAll (.group opening inner closing :: second :: rest))
        (Nested.starts 0 (.group opening inner closing :: second :: rest))
        (Nested.spanOf (.group opening inner closing :: second :: rest)) =
      throw (.fault (Expr.shapeError (.group opening inner closing :: second :: rest))) := by
  have hfirst : (Nested.group opening inner closing).first.kind = .openParen := hnested.1.1
  have hne : Nested.group opening inner closing :: second :: rest ≠ [] := List.cons_ne_nil _ _
  obtain ⟨t, ht⟩ := Nested.exists_itemAt_one opening closing inner (second :: rest)
  have hsplit : Nested.group opening inner closing :: second :: rest =
      [.group opening inner closing] ++ second :: rest := rfl
  rw [readGroup, Nested.itemAt_first, lift_ok_bind, ht, lift_ok_bind, Nested.itemAt_last hne,
    lift_ok_bind]
  simp only [hfirst, true_and, last_kind_eq_closeParen_iff hnested hne, reduceCtorEq, false_and,
    ↓reduceIte, Expr.shapeError]
  split
  · have hposition : itemAt (Nested.starts 0 (.group opening inner closing :: second :: rest)) 1 =
        .ok (Nested.countAll [.group opening inner closing]) :=
      Nested.itemAt_starts hsplit
    rw [if_pos (by simp), hposition, lift_ok_bind, Nested.itemAt_tokensAll hsplit, lift_ok_bind]
  · rfl

/-- Items behind a token other than a call's arguments have no known shape. -/
theorem readGroup_behind_single {t : Token}
    (hnested : Nested.WellNestedAll (.single t :: second :: rest))
    (hcall : ¬ (t.kind = .word ∧ second.isGroup = true ∧ rest = [])) :
    readGroup read (Nested.tokensAll (.single t :: second :: rest))
        (Nested.starts 0 (.single t :: second :: rest))
        (Nested.spanOf (.single t :: second :: rest)) =
      throw (.fault (Expr.shapeError (.single t :: second :: rest))) := by
  have hfirst : (Nested.single t).first.kind ≠ .openParen := hnested.1.1
  have hne : Nested.single t :: second :: rest ≠ [] := List.cons_ne_nil _ _
  have hitem : itemAt (Nested.tokensAll (.single t :: second :: rest)) 1 = .ok second.first :=
    @Nested.itemAt_tokensAll _ [.single t] rest second rfl
  rw [readGroup, Nested.itemAt_first, lift_ok_bind, hitem, lift_ok_bind, Nested.itemAt_last hne,
    lift_ok_bind]
  simp only [hfirst, false_and, ↓reduceIte, Nested.first_kind_iff hnested.2.1,
    last_kind_eq_closeParen_iff hnested hne]
  cases second with
  | single u => simp [Nested.isGroup, Expr.shapeError]
  | group opening inner closing =>
    have hgroup : (Nested.group opening inner closing).isGroup = true := rfl
    have hword : (Nested.single t).first.kind = t.kind := rfl
    simp only [hgroup, true_and, hword] at hcall ⊢
    cases rest with
    | nil =>
      have hnot : t.kind ≠ .word := fun h ↦ hcall ⟨h, rfl⟩
      simp [hnot, Expr.shapeError]
    | cons next more =>
      have hsplit : Nested.single t :: .group opening inner closing :: next :: more =
          [.single t, .group opening inner closing] ++ next :: more := rfl
      simp only [Expr.shapeError]
      split
      · have hposition : itemAt (Nested.starts 0
            (.single t :: .group opening inner closing :: next :: more)) 2 =
              .ok (Nested.countAll [.single t, .group opening inner closing]) :=
          Nested.itemAt_starts hsplit
        rw [if_pos (by simp), hposition, lift_ok_bind, Nested.itemAt_tokensAll hsplit, lift_ok_bind]
      · rfl

end Shapes

/-- A word in front of a group is read as a call. -/
theorem readGroup_call (hread : ReadsUpTo limit read) {callee opening closing : Token}
    {inner : List Nested} (hword : callee.kind = .word)
    (hnested : (Nested.group opening inner closing).WellNested)
    (hcount : Nested.countAll inner ≤ limit) :
    readGroup read (Nested.tokensAll [.single callee, .group opening inner closing])
        (Nested.starts 0 [.single callee, .group opening inner closing])
        (Nested.spanOf [.single callee, .group opening inner closing]) =
      gatherAs Expr.toNode Expr.reads (do
        let args ← Expr.ofSegments (Nested.segments opening inner)
        return .call callee.text callee.span args (callee.span.union closing.span)) := by
  obtain ⟨hopen, hclose, hinner⟩ := hnested
  have hfirst : (Nested.single callee).first.kind = .word := hword
  have hne : [Nested.single callee, .group opening inner closing] ≠ [] := List.cons_ne_nil _ _
  have hsecond : itemAt (Nested.tokensAll [.single callee, .group opening inner closing]) 1 =
      .ok opening := rfl
  have hlast : ([Nested.single callee, .group opening inner closing].getLast hne).last.kind =
      .closeParen := hclose
  rw [readGroup, Nested.itemAt_first, lift_ok_bind, hsecond, lift_ok_bind, Nested.itemAt_last hne,
    lift_ok_bind]
  simp only [hfirst, hopen, hlast, reduceCtorEq, false_and, and_self, ↓reduceIte,
    Nested.length_starts, List.length_cons, List.length_nil, ne_eq, not_true_eq_false]
  exact readCall_tokensAll hread hinner hcount _

/-- Tokens of several items that are not divided are a call, or have no known shape. -/
theorem readGroup_tokensAll (hread : ReadsUpTo limit read) {first second : Nested}
    {rest : List Nested} (hnested : Nested.WellNestedAll (first :: second :: rest))
    (hcount : Nested.countAll (first :: second :: rest) ≤ limit + 1) :
    readGroup read (Nested.tokensAll (first :: second :: rest))
        (Nested.starts 0 (first :: second :: rest)) (Nested.spanOf (first :: second :: rest)) =
      gatherAs Expr.toNode Expr.reads (Expr.ofUndivided first second rest) := by
  match first, second, rest with
  | .group opening inner closing, second, rest => exact readGroup_behind_group hnested
  | .single t, .single u, rest =>
    exact readGroup_behind_single hnested fun h ↦ Bool.false_ne_true h.2.1
  | .single t, .group opening inner closing, next :: more =>
    exact readGroup_behind_single hnested fun h ↦ List.cons_ne_nil _ _ h.2.2
  | .single t, .group opening inner closing, [] =>
    dsimp only [Expr.ofUndivided]
    by_cases hword : t.kind = .word
    · rw [if_pos hword]
      refine readGroup_call hread hword hnested.2.1 ?_
      simp only [Nested.countAll, Nested.count] at hcount
      omega
    · rw [if_neg hword]
      exact readGroup_behind_single hnested fun h ↦ hword h.1

/-! ### Expressions -/

/-- Several tokens of items are read as groups or as the parts of a division. -/
theorem readStep_of_pass {item : Nested} {rest : List Nested}
    (hnested : Nested.WellNestedAll (item :: rest))
    (hcount : 1 < Nested.countAll (item :: rest)) :
    readStep read (Nested.tokensAll (item :: rest)) =
      match Nested.divide? (item :: rest) with
      | none =>
        readGroup read (Nested.tokensAll (item :: rest)) (Nested.starts 0 (item :: rest))
          (Nested.spanOf (item :: rest))
      | some d =>
        readDivided read (Nested.tokensAll (item :: rest)) (Nested.countAll d.before) := by
  obtain ⟨lastAfter, hrun⟩ := Pass.run_tokensAll hnested
  have hlength := Nested.length_tokensAll (item :: rest)
  rw [readStep, if_neg (by omega), Nested.itemAt_first, lift_ok_bind,
    Nested.itemAt_last (List.cons_ne_nil item rest), lift_ok_bind]
  dsimp only
  rw [if_neg (by omega), hrun, lift_ok_bind]
  dsimp only
  rw [if_neg (Nat.lt_irrefl 0)]
  cases Nested.divide? (item :: rest) <;> rfl

/-- The tokens of items are read as the items are, if those of their parts are. -/
theorem readStep_tokensAll (hread : ReadsUpTo limit read) :
    ReadsUpTo (limit + 1) (readStep read) := by
  intro items hnested hne hcount
  match items with
  | [] => exact absurd rfl hne
  | [.single t] =>
    rw [Expr.ofNested]
    exact readLeaf_eq t
  | [.group opening inner closing] =>
    have hlength : Nested.countAll [.group opening inner closing] = Nested.countAll inner + 2 := rfl
    have hdivide : Nested.divide? [.group opening inner closing] = none := rfl
    rw [readStep_of_pass hnested (by omega), hdivide, Expr.ofNested]
    exact readGroup_group hread hnested.1 (by omega)
  | first :: second :: rest =>
    have hlength : 1 < Nested.countAll (first :: second :: rest) := by
      have hfirst := first.count_pos
      have hsecond := second.count_pos
      simp only [Nested.countAll]
      omega
    rw [readStep_of_pass hnested hlength, Expr.ofNested_eq]
    cases hdivide : Nested.divide? (first :: second :: rest) with
    | none => exact readGroup_tokensAll hread hnested hcount
    | some d =>
      have hd := Nested.divide?_eq_some_iff.mp hdivide
      exact readDivided_tokensAll hread hnested hcount hd.divides hd.stands

/-- Several tokens whose parentheses do not match have that fault. -/
theorem readStep_of_mismatch {first second : Token} {rest : List Token}
    {mismatch : Nested.Mismatch}
    (h : Nested.ofTokens (first :: second :: rest) = .error mismatch) :
    readStep read (first :: second :: rest) =
      throw (.fault
        (Expr.mismatchError ((first :: second :: rest).getLast (by simp)).span mismatch)) := by
  have hfirst : itemAt (first :: second :: rest) 0 = .ok first := rfl
  have hlast : itemAt (first :: second :: rest) ((first :: second :: rest).length - 1) =
        .ok ((first :: second :: rest).getLast (by simp)) :=
    itemAt_getLast _
  have hfinds := Pass.finds_run h
  rw [readStep, if_neg (by simp), hfirst, lift_ok_bind, hlast, lift_ok_bind]
  dsimp only
  rw [if_neg (by simp)]
  cases mismatch with
  | redundant t =>
    rw [show Pass.run _ = _ from hfinds]
    rfl
  | missing =>
    obtain ⟨q, hrun, hdepth⟩ := hfinds
    rw [hrun, lift_ok_bind, if_pos hdepth]
    rfl

end Parts

/-- The tokens of items are read as the items are, not deeper than there are tokens. -/
theorem readsUpTo_readExpr (limit : Nat) : ReadsUpTo limit (readExpr limit) := by
  induction limit with
  | zero =>
    intro items hnested hne hcount
    exact absurd (Nested.countAll_pos hne) (by omega)
  | succ limit ih => exact readStep_tokensAll ih

/-- Tokens are read by position as they are read by their items. -/
theorem readExpr_eq {limit : Nat} {tokens : List Token} (hne : tokens ≠ [])
    (hlimit : tokens.length ≤ limit) :
    readExpr limit tokens = gatherAs Expr.toNode Expr.reads (Expr.ofTokens tokens) := by
  obtain ⟨limit, rfl⟩ : ∃ n, limit = n + 1 :=
    Nat.exists_eq_add_one_of_ne_zero (Nat.ne_of_gt
      (Nat.lt_of_lt_of_le (List.length_pos_iff.mpr hne) hlimit))
  match tokens with
  | [] => exact absurd rfl hne
  | [t] => exact readLeaf_eq t
  | first :: second :: rest =>
    rw [Expr.ofTokens]
    split
    · rename_i items hitems
      obtain ⟨htokens, hnested⟩ := Nested.tokensAll_of_ofTokens hitems
      have hlength := congrArg List.length htokens
      rw [Nested.length_tokensAll] at hlength
      rw [← htokens]
      refine readsUpTo_readExpr (limit + 1) items hnested ?_ (by omega)
      rintro rfl
      cases htokens
    · rename_i mismatch hmismatch
      exact readStep_of_mismatch hmismatch

/-- A line that is no assignment is read as an expression. -/
theorem readLine_of_expression {tokens : List Token} (hne : tokens ≠ [])
    (hassigns : readsAssignment tokens = .ok false) :
    readLine tokens = gatherAs Statement.toNode (·.value.reads)
      ((Expr.ofTokens tokens).map .expression) := by
  have hlength := List.length_pos_iff.mpr hne
  rw [readLine, if_neg (by omega), hassigns, lift_ok_bind, if_neg Bool.false_ne_true,
    readExpr_eq hne (Nat.le_refl _)]
  cases Expr.ofTokens tokens <;> rfl

/-- A line is read by position as it is read by its items, and what its value reads is gathered. -/
theorem readLine_eq (tokens : List Token) :
    readLine tokens =
      gatherAs Statement.toNode (·.value.reads) (Statement.ofTokens tokens) := by
  match tokens with
  | [] => rfl
  | [t] => exact readLine_of_expression (List.cons_ne_nil _ _) rfl
  | [t, u] => exact readLine_of_expression (List.cons_ne_nil _ _) rfl
  | target :: equals :: first :: rest =>
    have hassigns : readsAssignment (target :: equals :: first :: rest) =
        .ok (decide (target.kind = .word ∧ equals.kind = .equals)) := rfl
    rw [Statement.ofTokens]
    by_cases hkinds : target.kind = .word ∧ equals.kind = .equals
    · have hpart : partOf (target :: equals :: first :: rest) 2
          (target :: equals :: first :: rest).length = .ok (first :: rest) :=
        @partOf_behind _ _ [target, equals] (first :: rest) rfl
      have htarget : itemAt (target :: equals :: first :: rest) 0 = .ok target := rfl
      rw [if_pos hkinds, readLine, if_neg (by simp), hassigns, lift_ok_bind, decide_eq_true hkinds,
        if_pos rfl, hpart, lift_ok_bind, readExpr_eq (List.cons_ne_nil first rest) (by simp)]
      refine bind_gatherAs fun value ↦ ?_
      rw [htarget, lift_ok_bind, value.spanOf_toNode]
      rfl
    · rw [if_neg hkinds]
      exact readLine_of_expression (List.cons_ne_nil _ _)
        (by rw [hassigns, decide_eq_false hkinds])

/-- A line is read as the tree of its statement, with the names that its value reads. -/
theorem ofTokens_eq (tokens : List Token) :
    ofTokens tokens = Stop.free ((Statement.ofTokens tokens).map fun s ↦
      (s.toNode, sortNames (insertAll [] s.value.reads))) := by
  rw [ofTokens, readLine_eq]
  cases Statement.ofTokens tokens <;> rfl

/-- Every list of tokens has a fault of structure or is read as the tree of a statement, without a
breach. Such a tree has assignments only at its root, to a name, only names are called, and every
operation has both operands; rendering it and executing it, in 64 bits or wide, do in every
environment what they do with the statement, without a breach. -/
theorem ofTokens_sound (tokens : List Token) :
    (∃ e, ofTokens tokens = .error (.fault e) ∧ Statement.ofTokens tokens = .error e) ∨
      ∃ n names s, ofTokens tokens = .ok (n, names) ∧ Statement.ofTokens tokens = .ok s ∧
        n.IsStatement ∧ n.render = .ok s.render ∧
        (∀ env, n.execute env = Stop.free (s.execute env)) ∧
        ∀ lib env bits,
          n.executePrecise lib env bits = Stop.free (s.executePrecise lib env bits) := by
  rw [ofTokens_eq]
  cases Statement.ofTokens tokens with
  | error e => exact Or.inl ⟨e, rfl, rfl⟩
  | ok s =>
    exact Or.inr ⟨s.toNode, _, s, rfl, rfl, s.isStatement_toNode, s.render_toNode,
      fun env ↦ s.execute_toNode env, fun lib env bits ↦ s.executePrecise_toNode lib env bits⟩

end LooseNode

end Reckoner
