import Reckoner.Proofs.Grammar

/-!
# The parser and the grammar

The parser accepts exactly the lines that the grammar derives, and the statement it gives has the
shape that the derivation means.

`Expr.ParsedAs` says once how an expression comes out of items, one case for each way: a token, a
group, a sign, an operation or a call. Soundness is an induction over these cases; a derivation of
the parts is brought to the category that a rule of the grammar needs by what the loosest place
says about the places on both sides (`Derivation.lower`, `Derivation.behindOperator`). Completeness
is an induction over derivations.
-/

set_option autoImplicit false

namespace Reckoner

/-- A result with a further step is that of the step on an earlier result. -/
theorem bind_eq_ok {ε α β : Type} {result : Except ε α} {next : α → Except ε β} {y : β} :
    result >>= next = .ok y ↔ ∃ x, result = .ok x ∧ next x = .ok y := by
  cases result with
  | error e => simp [bind, Except.bind]
  | ok x => simp [bind, Except.bind]

namespace Expr

/-! ### How an expression comes out of items -/

/-- The ways in which items are read as an expression. -/
inductive ParsedAs : List Nested → Expr → Prop where
  | token {t : Token} {e : Expr} (h : ofToken t = .ok e) : ParsedAs [.single t] e
  | group {opening closing : Token} {inner : List Nested} {e : Expr} (hinner : inner ≠ [])
    (h : ofNested inner = .ok e) : ParsedAs [.group opening inner closing] e
  | plus {items behind : List Nested} {t : Token} {e : Expr}
    (hd : Nested.Division.IsLoosest ⟨[], t, .add, behind⟩ items) (h : ofNested behind = .ok e) :
    ParsedAs items e
  | minus {items behind : List Nested} {t : Token} {right : Expr}
    (hd : Nested.Division.IsLoosest ⟨[], t, .sub, behind⟩ items)
    (h : ofNested behind = .ok right) : ParsedAs items (binary .sub (signZero t.span) right)
  | operation {items before behind : List Nested} {t : Token} {op : Operator} {left right : Expr}
    (hd : Nested.Division.IsLoosest ⟨before, t, op, behind⟩ items) (hbefore : before ≠ [])
    (hleft : ofNested before.reverse = .ok left) (hright : ofNested behind = .ok right) :
    ParsedAs items (binary op left right)
  | call {callee opening closing : Token} {inner : List Nested} {args : List Expr}
    (hword : callee.kind = .word)
    (hargs : ofSegments (Nested.segments opening inner) = .ok args) :
    ParsedAs [.single callee, .group opening inner closing]
      (call callee.text callee.span args (callee.span.union closing.span))

/-- Every expression that comes out of items does so in one of these ways. -/
theorem parsedAs_of_ofNested {items : List Nested} {e : Expr} (h : ofNested items = .ok e) :
    ParsedAs items e := by
  unfold ofNested at h
  split at h
  · cases h
  · exact .token h
  · split at h
    · cases h
    · rename_i hinner
      exact .group (by simpa using hinner) h
  · rename_i first second rest
    split at h
    · rename_i d hdivide
      have hloosest := Nested.divide?_eq_some_iff.mp hdivide
      obtain ⟨before, t, op, behind⟩ := d
      dsimp only at h
      split at h
      · cases h
      · split at h
        · rename_i hbefore
          obtain rfl := List.isEmpty_iff.mp hbefore
          cases op with
          | add => exact .plus hloosest h
          | sub =>
            obtain ⟨right, hright, hreturn⟩ := bind_eq_ok.mp h
            obtain rfl := Except.ok.inj hreturn
            exact .minus hloosest hright
          | mul | div | pow => cases h
        · rename_i hbefore
          obtain ⟨left, hleft, hrest⟩ := bind_eq_ok.mp h
          obtain ⟨right, hright, hreturn⟩ := bind_eq_ok.mp hrest
          obtain rfl := Except.ok.inj hreturn
          exact .operation hloosest (by simpa using hbefore) hleft hright
    · split at h
      · split at h
        · rename_i hword
          obtain ⟨args, hargs, hreturn⟩ := bind_eq_ok.mp h
          obtain rfl := Except.ok.inj hreturn
          exact .call hword hargs
        · cases h
      · cases h

end Expr

/-! ### Changing the category of a derivation -/

namespace Derivation

/-- Two derivations have the same items and mean the same expression. -/
def Same {r r' : Rank} (d : Derivation (.expression r)) (d' : Derivation (.expression r')) : Prop :=
  d.items = d'.items ∧ (d.tree : Shape) = d'.tree

/-- A chain that binds more tightly than its layer is an operand of the layer. A sum may start with
a sign, so behind an operator this is said of the other layers only. -/
theorem lower {layer : Layer} (d : Derivation (.expression (.chain layer))) {afterOperator : Bool}
    (hbinds : Nested.BindsFrom (layer.depth + 1) afterOperator d.items)
    (hsigns : layer = .additive → afterOperator = false) :
    ∃ d' : Derivation (.expression layer.operand), d.Same d' := by
  cases d with
  | step front token op stands joins back =>
    have hend := endsWithOperator_items front afterOperator
    rw [items, Nested.bindsFrom_operator stands hend, op.precedence_eq_depth, joins] at hbinds
    omega
  | start first =>
    cases layer with
    | multiplicative => exact ⟨first, rfl, rfl⟩
    | exponential => exact ⟨first, rfl, rfl⟩
    | additive =>
      obtain rfl := hsigns rfl
      cases first with
      | plus token isPlus operand =>
        have hle := hbinds.1 token _ (Nested.operator?_single (stands_plus isPlus)) rfl
        exact absurd hle (by decide)
      | minus token isMinus operand =>
        have hle := hbinds.1 token _ (Nested.operator?_single (stands_minus isMinus)) rfl
        exact absurd hle (by decide)
      | unsigned operand => exact ⟨operand, rfl, rfl⟩

/-- A sum that binds at least as tightly as a layer is a chain of the layer. -/
theorem chainOf (layer : Layer) (d : SumDerivation)
    (hbinds : Nested.BindsFrom layer.depth false d.items) :
    ∃ d' : Derivation (.expression (.chain layer)), d.Same d' := by
  cases layer with
  | additive => exact ⟨d, rfl, rfl⟩
  | multiplicative => exact d.lower hbinds fun _ ↦ rfl
  | exponential =>
    obtain ⟨product, hitems, htree⟩ :
        ∃ product : Derivation (.expression (.chain .multiplicative)), d.Same product :=
      d.lower (hbinds.mono (by decide)) fun _ ↦ rfl
    rw [hitems] at hbinds
    obtain ⟨power, hitems', htree'⟩ := product.lower hbinds fun _ ↦ rfl
    exact ⟨power, hitems.trans hitems', htree.trans htree'⟩

/-- A product that binds more tightly than a layer is an operand of the layer. -/
theorem operandOf (layer : Layer) (d : Derivation (.expression (.chain .multiplicative)))
    (hbinds : Nested.BindsFrom (layer.depth + 1) true d.items) :
    ∃ d' : Derivation (.expression layer.operand), d.Same d' := by
  have hsigns (other : Layer) (hother : other ≠ .additive) :
      other = .additive → true = false := fun h ↦ absurd h hother
  cases layer with
  | additive => exact ⟨d, rfl, rfl⟩
  | multiplicative => exact d.lower hbinds (hsigns _ (by simp))
  | exponential =>
    obtain ⟨power, hitems, htree⟩ :
        ∃ power : Derivation (.expression (.chain .exponential)), d.Same power :=
      d.lower (hbinds.mono (by decide)) (hsigns _ (by simp))
    rw [hitems] at hbinds
    obtain ⟨atom, hitems', htree'⟩ := power.lower hbinds (hsigns _ (by simp))
    exact ⟨atom, hitems.trans hitems', htree.trans htree'⟩

/-- Signs in front of a product that binds more tightly than a layer are signs of an operand of the
layer. -/
theorem signedOf (layer : Layer) : (d : Derivation (.expression (.signed .additive))) →
    Nested.BindsFrom (layer.depth + 1) true d.items →
    ∃ d' : Derivation (.expression (.signed layer)), d.Same d'
  | plus token isPlus operand, hbinds => by
    have hrest := hbinds.2
    rw [Nested.operator?_single (stands_plus isPlus)] at hrest
    obtain ⟨operand', hitems, htree⟩ := signedOf layer operand hrest
    refine ⟨plus token isPlus operand', ?_, htree⟩
    rw [items, items, hitems]
  | minus token isMinus operand, hbinds => by
    have hrest := hbinds.2
    rw [Nested.operator?_single (stands_minus isMinus)] at hrest
    obtain ⟨operand', hitems, htree⟩ := signedOf layer operand hrest
    refine ⟨minus token isMinus operand', ?_, ?_⟩
    · rw [items, items, hitems]
    · rw [tree, tree, htree]
  | unsigned operand, hbinds => by
    obtain ⟨operand', hitems, htree⟩ := operandOf layer operand hbinds
    exact ⟨unsigned operand', hitems, htree⟩

/-- A sum behind an operator of a layer, with only tighter places, is a signed operand of the
layer. -/
theorem behindOperator (layer : Layer) (d : SumDerivation)
    (hbinds : Nested.BindsFrom (layer.depth + 1) true d.items) :
    ∃ d' : Derivation (.expression (.signed layer)), d.Same d' := by
  cases d with
  | start first => exact signedOf layer first hbinds
  | step front token op stands joins back =>
    have hend := endsWithOperator_items front true
    rw [items, Nested.bindsFrom_operator stands hend, op.precedence_eq_depth, joins] at hbinds
    exact absurd hbinds.2.1 (Nat.not_succ_le_zero _)

/-- A chain of any layer is a sum. -/
theorem sumOf : {layer : Layer} → (d : Derivation (.expression (.chain layer))) →
    ∃ d' : SumDerivation, d.Same d'
  | .additive, d => ⟨d, rfl, rfl⟩
  | .multiplicative, d => ⟨start (unsigned d), rfl, rfl⟩
  | .exponential, d => ⟨start (unsigned (start d)), rfl, rfl⟩


end Derivation

namespace Expr

/-! ### What is parsed is derived -/

/-- The grammar derives items with the shape of an expression. -/
def Derived (items : List Nested) (e : Expr) : Prop :=
  ∃ d : SumDerivation, d.items = items ∧ (d.tree : Shape) = e.shape

/-- An atom is derived. -/
theorem derived_of_atom (atom : Derivation (.expression .atom)) {e : Expr}
    (h : (atom.tree : Shape) = e.shape) : Derived atom.items e := by
  exact ⟨.start (.unsigned (.start (.start atom))), rfl, h⟩

/-- A number or a word is derived. -/
theorem derived_of_ofToken {t : Token} {e : Expr} (h : ofToken t = .ok e) :
    Derived [.single t] e := by
  unfold ofToken at h
  split at h
  · rename_i hkind
    split at h
    · rename_i value hread
      obtain rfl := Except.ok.inj h
      exact derived_of_atom (.number t hkind value hread) rfl
    · cases h
  · rename_i hkind
    obtain rfl := Except.ok.inj h
    exact derived_of_atom (.word t hkind) rfl
  · cases h

/-- An operation is derived if its sides are. -/
theorem derived_of_isLoosest {items before behind : List Nested} {t : Token} {op : Operator}
    {left right : Expr} (hd : Nested.Division.IsLoosest ⟨before, t, op, behind⟩ items)
    (hleft : Derived before.reverse left) (hright : Derived behind right) :
    Derived items (binary op left right) := by
  obtain ⟨front, hfront, hfrontTree⟩ := hleft
  obtain ⟨back, hback, hbackTree⟩ := hright
  have hdepth := op.precedence_eq_depth
  have hfrontBinds := hd.front
  have hbackBinds := hd.back
  dsimp only at hfrontBinds hbackBinds
  rw [hdepth, ← hfront] at hfrontBinds
  rw [hdepth, ← hback] at hbackBinds
  obtain ⟨front', hfront', hfrontTree'⟩ := front.chainOf op.layer hfrontBinds
  obtain ⟨back', hback', hbackTree'⟩ := back.behindOperator op.layer hbackBinds
  obtain ⟨d, hitems, htree⟩ := (Derivation.step front' t op hd.stands rfl back').sumOf
  refine ⟨d, ?_, ?_⟩
  · rw [← hitems, Derivation.items, ← hfront', ← hback', hfront, hback]
    exact hd.divides
  · rw [← htree, Derivation.tree, ← hfrontTree', ← hbackTree', hfrontTree, hbackTree]
    rfl

/-- Behind a sign with which items start stands a signed operand of a sum. -/
theorem signed_of_isLoosest {items behind : List Nested} {t : Token} {op : Operator} {e : Expr}
    (hd : Nested.Division.IsLoosest ⟨[], t, op, behind⟩ items) (hlayer : op.layer = .additive)
    (h : Derived behind e) :
    ∃ d : Derivation (.expression (.signed .additive)),
      items = .single t :: d.items ∧ (d.tree : Shape) = e.shape := by
  obtain ⟨back, hback, htree⟩ := h
  have hbinds := hd.back
  dsimp only at hbinds
  rw [op.precedence_eq_depth, hlayer, ← hback] at hbinds
  obtain ⟨d, hitems, htree'⟩ := back.behindOperator .additive hbinds
  refine ⟨d, ?_, htree'.symm.trans htree⟩
  rw [← hitems, hback]
  exact hd.divides.symm

/-- A token is a plus sign if it stands for addition. -/
theorem kind_of_stands_add {t : Token} (h : t.kind.operator? = some .add) : t.kind = .plus := by
  unfold TokenKind.operator? at h
  split at h <;> simp_all

/-- A token is a minus sign if it stands for subtraction. -/
theorem kind_of_stands_sub {t : Token} (h : t.kind.operator? = some .sub) : t.kind = .minus := by
  unfold TokenKind.operator? at h
  split at h <;> simp_all

/-- The first argument has items and is read, and so are the further ones. -/
theorem ofSegments_cons_eq_ok {segment : Nested.Segment} {rest : List Nested.Segment}
    {args : List Expr} :
    ofSegments (segment :: rest) = .ok args ↔
      segment.items ≠ [] ∧ ∃ arg further, ofNested segment.items = .ok arg ∧
        ofSegments rest = .ok further ∧ args = arg :: further := by
  rw [ofSegments]
  by_cases hempty : segment.items = []
  · simp [hempty]
  · have hisEmpty : segment.items.isEmpty = false := by simpa using hempty
    simp only [hisEmpty, Bool.false_eq_true, ↓reduceIte, bind_eq_ok, ne_eq, hempty,
      not_false_eq_true, true_and]
    constructor
    · rintro ⟨arg, harg, further, hfurther, hreturn⟩
      exact ⟨arg, further, harg, hfurther, (Except.ok.inj hreturn).symm⟩
    · rintro ⟨arg, further, harg, hfurther, rfl⟩
      exact ⟨arg, harg, further, hfurther, rfl⟩

/-- Arguments that are read are derived, if this holds of all items with fewer tokens than a
limit. -/
theorem derivation_of_ofSegments {limit : Nat}
    (hderived : ∀ items e, Nested.countAll items < limit → Nested.WellNestedAll items →
      ofNested items = .ok e → Derived items e)
    {before : Token} {current inner : List Nested} {args : List Expr}
    (hlimit : Nested.countAll current + Nested.countAll inner < limit)
    (hcurrent : Nested.WellNestedAll current) (hinner : Nested.WellNestedAll inner)
    (h : ofSegments (Nested.segmentsFrom before current inner) = .ok args) :
    ∃ d : Derivation .arguments,
      d.items = current.reverse ++ inner ∧ (d.tree : List Shape) = shapeAll args := by
  induction inner generalizing before current args with
  | nil =>
    rw [Nested.segmentsFrom, ofSegments_cons_eq_ok] at h
    obtain ⟨-, arg, further, harg, hfurther, rfl⟩ := h
    have hnone : further = [] := by
      rw [ofSegments] at hfurther
      exact (Except.ok.inj hfurther).symm
    subst hnone
    obtain ⟨d, hitems, htree⟩ := hderived _ arg (by simpa [Nested.countAll] using hlimit)
      ((Nested.wellNestedAll_reverse current).mpr hcurrent) harg
    refine ⟨.last d, by simpa [Derivation.items] using hitems, ?_⟩
    rw [Derivation.tree, htree]
    rfl
  | cons item rest ih =>
    have hpass : Nested.segmentsFrom before current (item :: rest) =
        Nested.segmentsFrom before (item :: current) rest →
        ∃ d : Derivation .arguments,
          d.items = current.reverse ++ item :: rest ∧ (d.tree : List Shape) = shapeAll args := by
      intro hsegments
      rw [hsegments] at h
      have hnext : Nested.WellNestedAll (item :: current) := ⟨hinner.1, hcurrent⟩
      obtain ⟨d, hitems, htree⟩ := ih (by simp only [Nested.countAll] at hlimit ⊢; omega)
        hnext hinner.2 h
      exact ⟨d, by simpa using hitems, htree⟩
    cases item with
    | group opening inside closing => exact hpass (by simp [Nested.segmentsFrom])
    | single t =>
      by_cases hcomma : t.kind = .comma
      · rw [Nested.segmentsFrom, if_pos hcomma, ofSegments_cons_eq_ok] at h
        obtain ⟨-, arg, further, harg, hfurther, rfl⟩ := h
        simp only [Nested.countAll, Nested.count] at hlimit
        obtain ⟨d, hitems, htree⟩ :=
          hderived _ arg (by rw [Nested.countAll_reverse]; omega)
            ((Nested.wellNestedAll_reverse current).mpr hcurrent) harg
        have hnone : Nested.WellNestedAll [] := trivial
        obtain ⟨ds, hitems', htree'⟩ :=
          ih (by simp only [Nested.countAll]; omega) hnone hinner.2 hfurther
        refine ⟨.more d t hcomma ds, ?_, ?_⟩
        · rw [Derivation.items, hitems, hitems']
          rfl
        · rw [Derivation.tree, htree, htree']
          rfl
      · exact hpass (by rw [Nested.segmentsFrom, if_neg hcomma])

/-- Both sides of a division of well nested items are well nested. -/
theorem wellNestedAll_of_divides {d : Nested.Division} {items : List Nested}
    (hd : d.Divides items) (h : Nested.WellNestedAll items) :
    Nested.WellNestedAll d.before.reverse ∧ Nested.WellNestedAll d.behind := by
  rw [← hd, Nested.wellNestedAll_append] at h
  exact ⟨h.1, h.2.2⟩

/-- The tokens of items are those on both sides of a division and the operator's token. -/
theorem tokensAll_of_divides {d : Nested.Division} {items : List Nested} (hd : d.Divides items) :
    Nested.tokensAll items =
      Nested.tokensAll d.before.reverse ++ d.token :: Nested.tokensAll d.behind := by
  rw [← hd, Nested.tokensAll_append]
  rfl

/-- Whatever is read from items is derived from them. -/
theorem derived_of_ofNested {items : List Nested} {e : Expr} (hnested : Nested.WellNestedAll items)
    (h : ofNested items = .ok e) : Derived items e := by
  -- on the number of tokens: every part that is read has fewer
  induction hcount : Nested.countAll items using Nat.strongRecOn generalizing items e with
  | ind count ih =>
    subst hcount
    cases parsedAs_of_ofNested h with
    | token htoken => exact derived_of_ofToken htoken
    | @group opening closing inner _ hinner hparsed =>
      obtain ⟨⟨hopen, hclose, hinside⟩, -⟩ := hnested
      have hlt : Nested.countAll inner < Nested.countAll [.group opening inner closing] := by
        simp only [Nested.countAll, Nested.count]
        omega
      obtain ⟨d, hitems, htree⟩ := ih _ hlt hinside hparsed rfl
      rw [← hitems]
      exact derived_of_atom (.group opening hopen d closing hclose) htree
    | plus hd hparsed =>
      have hlt := (Nested.count_of_divides hd.divides).2
      have hbehind := (wellNestedAll_of_divides hd.divides hnested).2
      obtain ⟨d, hitems, htree⟩ := signed_of_isLoosest hd rfl (ih _ hlt hbehind hparsed rfl)
      exact ⟨.start (.plus _ (kind_of_stands_add hd.stands) d), hitems.symm, htree⟩
    | minus hd hparsed =>
      have hlt := (Nested.count_of_divides hd.divides).2
      have hbehind := (wellNestedAll_of_divides hd.divides hnested).2
      obtain ⟨d, hitems, htree⟩ := signed_of_isLoosest hd rfl (ih _ hlt hbehind hparsed rfl)
      refine ⟨.start (.minus _ (kind_of_stands_sub hd.stands) d), hitems.symm, ?_⟩
      change Shape.binary .sub (.literal "0" Binary64.zero) d.tree = _
      rw [htree]
      rfl
    | operation hd hbefore hleft hright =>
      obtain ⟨hfrontLt, hbackLt⟩ := Nested.count_of_divides hd.divides
      obtain ⟨hfront, hback⟩ := wellNestedAll_of_divides hd.divides hnested
      exact derived_of_isLoosest hd (ih _ hfrontLt hfront hleft rfl) (ih _ hbackLt hback hright rfl)
    | @call callee opening closing inner args hword hargs =>
      obtain ⟨-, ⟨hopen, hclose, hinside⟩, -⟩ := hnested
      by_cases hinner : inner = []
      · subst hinner
        have hnone : args = [] := by
          simp only [Nested.segments, List.isEmpty_nil, ↓reduceIte, ofSegments] at hargs
          exact (Except.ok.inj hargs).symm
        subst hnone
        exact derived_of_atom (.callNone callee hword opening hopen closing hclose) rfl
      · have hsome : inner.isEmpty = false := by simpa using hinner
        rw [Nested.segments, hsome] at hargs
        have hnone : Nested.WellNestedAll [] := trivial
        obtain ⟨d, hitems, htree⟩ := derivation_of_ofSegments
          (fun items e hlt hitems hparsed ↦ ih _ hlt hitems hparsed rfl)
          (by simp only [Nested.countAll, Nested.count]; omega) hnone hinside hargs
        have hitem : [Nested.single callee, .group opening inner closing] =
            (Derivation.call callee hword opening hopen d closing hclose).items := by
          rw [Derivation.items, hitems]
          rfl
        rw [hitem]
        refine derived_of_atom _ ?_
        rw [Derivation.tree, htree]
        rfl

/-! ### What is derived is parsed -/

/-- Items that are divided at a place with items behind it are read by their parts. -/
theorem ofNested_of_isLoosest {items : List Nested} {d : Nested.Division} (hd : d.IsLoosest items)
    (hbehind : d.behind ≠ []) :
    ofNested items =
      if d.before.isEmpty then
        match d.op with
        | .add => ofNested d.behind
        | .sub => do
          let right ← ofNested d.behind
          return binary .sub (signZero d.token.span) right
        | _ => .error ⟨d.token.span, .badSign⟩
      else do
        let left ← ofNested d.before.reverse
        let right ← ofNested d.behind
        return binary d.op left right := by
  have hdivide := Nested.divide?_eq_some_iff.mpr hd
  obtain ⟨first, second, rest, rfl⟩ : ∃ first second rest, items = first :: second :: rest := by
    have hlength := congrArg List.length hd.divides
    have hpos := List.length_pos_iff.mpr hbehind
    simp only [List.length_append, List.length_cons] at hlength
    match items with
    | first :: second :: rest => exact ⟨first, second, rest, rfl⟩
    | [_] | [] =>
      simp only [List.length_cons, List.length_nil] at hlength
      omega
  rw [ofNested]
  split
  · rename_i d' hdivide'
    obtain rfl := Option.some.inj (hdivide.symm.trans hdivide')
    exact if_neg (by simpa using hbehind)
  · rename_i hnone
    exact absurd (hdivide.symm.trans hnone) (by simp)

/-- A word in front of a group is read by the arguments between the parentheses. -/
theorem ofNested_call {callee opening closing : Token} (hword : callee.kind = .word)
    (inner : List Nested) :
    ofNested [.single callee, .group opening inner closing] = do
      let args ← ofSegments (Nested.segments opening inner)
      return call callee.text callee.span args (callee.span.union closing.span) := by
  have hnone : Nested.divide? [.single callee, .group opening inner closing] = none := by
    simp [Nested.divide?, Nested.divideFrom, Nested.operator?, hword, TokenKind.operator?]
  rw [ofNested]
  split
  · rename_i d hsome
    exact absurd (hnone.symm.trans hsome) (by simp)
  · simp only [hword, ↓reduceIte]

end Expr

/-- What is read from a category: an expression, or several for arguments. -/
abbrev Category.Reading : Category → Type
  | expression _ => Expr
  | arguments => List Expr

/-- The expression that the tokens at the leaves of a derivation are read as. -/
def Derivation.reading : {c : Category} → Derivation c → c.Reading
  | _, start first => first.reading
  | _, step front _ op _ _ back => Expr.binary op front.reading back.reading
  | _, plus _ _ operand => operand.reading
  | _, minus token _ operand => Expr.binary .sub (Expr.signZero token.span) operand.reading
  | _, unsigned operand => operand.reading
  | _, number token _ value _ => Expr.literal token.text value.toBinary64 token.span
  | _, word token _ => Expr.var token.text token.span
  | _, group _ _ inner _ _ => inner.reading
  | _, callNone callee _ _ _ closing _ =>
    Expr.call callee.text callee.span [] (callee.span.union closing.span)
  | _, call callee _ _ _ args closing _ =>
    Expr.call callee.text callee.span args.reading (callee.span.union closing.span)
  | _, last arg => [(arg.reading : Expr)]
  | _, more arg _ _ rest => (arg.reading : Expr) :: (rest.reading : List Expr)

namespace Expr

/-- The items of a category are read as an expression, or between the parentheses of a call as
several. -/
def Reads : (c : Category) → List Nested → c.Reading → Prop
  | .expression _, items, e => ofNested items = .ok e
  | .arguments, items, args =>
    ∀ opening, ofSegments (Nested.segmentsFrom opening [] items) = .ok args

/-- The shape of what is read from a category. -/
def shapeOf : (c : Category) → c.Reading → c.Tree
  | .expression _, e => shape e
  | .arguments, args => shapeAll args

/-- The items of a derivation are read as its expression. -/
theorem reads_items {c : Category} (d : Derivation c) : Reads c d.items d.reading := by
  induction d with
  | start first ih => exact ih
  | unsigned operand ih => exact ih
  | step front token op stands joins back ihfront ihback =>
    have hleft : ofNested front.items = .ok front.reading := ihfront
    have hright : ofNested back.items = .ok back.reading := ihback
    have hfront := front.items_ne_nil
    rw [Reads, Derivation.items,
      ofNested_of_isLoosest (Derivation.isLoosest_step front stands joins back) back.items_ne_nil]
    simp [hfront, hleft, hright, bind, Except.bind, pure, Except.pure, Derivation.reading]
  | plus token isPlus operand ih =>
    have hd := Derivation.isLoosest_sign (Derivation.stands_plus isPlus) rfl operand
    rw [Reads, Derivation.items, ofNested_of_isLoosest hd operand.items_ne_nil]
    exact ih
  | minus token isMinus operand ih =>
    have hread : ofNested operand.items = .ok operand.reading := ih
    have hd := Derivation.isLoosest_sign (Derivation.stands_minus isMinus) rfl operand
    rw [Reads, Derivation.items, ofNested_of_isLoosest hd operand.items_ne_nil]
    simp [hread, bind, Except.bind, pure, Except.pure, Derivation.reading]
  | number token isNumber value reads =>
    simp [Reads, Derivation.items, Derivation.reading, ofNested, ofToken, isNumber, reads]
  | word token isWord =>
    simp [Reads, Derivation.items, Derivation.reading, ofNested, ofToken, isWord]
  | group opening opens inner closing closes ih =>
    have hread : ofNested inner.items = .ok inner.reading := ih
    have hinner := inner.items_ne_nil
    rw [Reads, Derivation.items, ofNested]
    simpa [hinner, Derivation.reading] using hread
  | callNone callee isWord opening opens closing closes =>
    rw [Reads, Derivation.items, ofNested_call isWord]
    simp [Nested.segments, ofSegments, bind, Except.bind, pure, Except.pure, Derivation.reading]
  | call callee isWord opening opens args closing closes ih =>
    have hread := ih opening
    have hinner := args.items_ne_nil
    rw [Reads, Derivation.items, ofNested_call isWord]
    simp [Nested.segments, hinner, hread, bind, Except.bind, pure, Except.pure, Derivation.reading]
  | last arg ih =>
    intro opening
    rw [Derivation.items, Nested.segmentsFrom_of_commaFree arg.commaFree_items,
      ofSegments_cons_eq_ok]
    exact ⟨arg.items_ne_nil, arg.reading, [], ih, by rw [ofSegments], rfl⟩
  | more arg comma isComma rest iharg ihrest =>
    intro opening
    rw [Derivation.items, Nested.segmentsFrom_comma arg.commaFree_items isComma,
      ofSegments_cons_eq_ok]
    exact ⟨arg.items_ne_nil, arg.reading, rest.reading, iharg, ihrest comma, rfl⟩

/-- The expression of a derivation has the shape that the derivation means. -/
theorem shapeOf_reading {c : Category} (d : Derivation c) : shapeOf c d.reading = d.tree := by
  induction d with
  | start first ih | unsigned operand ih | plus _ _ operand ih => exact ih
  | group opening opens inner closing closes ih => exact ih
  | step front token op stands joins back ihfront ihback =>
    exact congr (congrArg (Shape.binary op) ihfront) ihback
  | minus token isMinus operand ih =>
    exact congrArg (Shape.binary .sub (.literal "0" Binary64.zero)) ih
  | number | word | callNone => rfl
  | call callee isWord opening opens args closing closes ih =>
    exact congrArg (Shape.call callee.text) ih
  | last arg ih => exact congrArg (fun tree : Shape ↦ [tree]) ih
  | more arg comma isComma rest iharg ihrest => exact congr (congrArg List.cons iharg) ihrest

/-! ### Lines of tokens -/

/-- Tokens are read as an expression if and only if their parentheses match and their items are
read as it. -/
theorem ofTokens_eq_ok_iff {tokens : List Token} {e : Expr} :
    ofTokens tokens = .ok e ↔
      ∃ items, Nested.ofTokens tokens = .ok items ∧ ofNested items = .ok e := by
  match tokens with
  | [] => simp [ofTokens, Nested.ofTokens, Nested.nestFrom, ofNested]
  | [t] =>
    by_cases hopen : t.kind = .openParen
    · simp [ofTokens, ofToken, Nested.ofTokens, hopen, Nested.nestFrom]
    by_cases hclose : t.kind = .closeParen
    · simp [ofTokens, ofToken, Nested.ofTokens, hclose, Nested.nestFrom]
    · rw [ofTokens, Nested.ofTokens, Nested.nestFrom_single hopen hclose]
      simp [Nested.nestFrom, ofNested]
  | first :: second :: rest =>
    rw [ofTokens]
    split
    · rename_i items hitems
      simp [hitems]
    · rename_i mismatch hmismatch
      simp [hmismatch]

/-- Whatever is read from tokens is derived from them. -/
theorem derivation_of_ofTokens {tokens : List Token} {e : Expr} (h : ofTokens tokens = .ok e) :
    ∃ d : SumDerivation, d.tokens = tokens ∧ (d.tree : Shape) = e.shape := by
  obtain ⟨items, hitems, hread⟩ := ofTokens_eq_ok_iff.mp h
  obtain ⟨htokens, hnested⟩ := Nested.tokensAll_of_ofTokens hitems
  obtain ⟨d, hd, htree⟩ := derived_of_ofNested hnested hread
  exact ⟨d, by rw [← d.tokensAll_items, hd, htokens], htree⟩

/-- The tokens of a derivation are read as its expression. -/
theorem ofTokens_reading (d : SumDerivation) : ofTokens d.tokens = .ok d.reading := by
  refine ofTokens_eq_ok_iff.mpr ⟨d.items, ?_, reads_items d⟩
  rw [← d.tokensAll_items]
  exact Nested.ofTokens_tokensAll d.wellNestedAll_items

/-- The tokens of a derivation are read as what it means. -/
theorem ofTokens_tokens (d : SumDerivation) :
    ∃ e, ofTokens d.tokens = .ok e ∧ e.shape = d.tree :=
  ⟨d.reading, ofTokens_reading d, shapeOf_reading d⟩

end Expr

namespace Derivation

/-- No equals sign stands in an expression. -/
theorem kind_ne_equals {c : Category} (d : Derivation c) :
    ∀ token ∈ d.tokens, token.kind ≠ .equals := by
  induction d with
  | step front token op stands joins back ihfront ihback =>
    have hsign : token.kind ≠ .equals := fun hkind ↦ by simp [hkind, TokenKind.operator?] at stands
    simp only [tokens, List.mem_append, List.mem_cons]
    rintro other (hmem | rfl | hmem)
    · exact ihfront other hmem
    · exact hsign
    · exact ihback other hmem
  | _ => simp_all [tokens, or_imp]

/-- Every derivation has tokens. -/
theorem tokens_ne_nil {c : Category} (d : Derivation c) : d.tokens ≠ [] := by
  induction d <;> simp_all [tokens]

end Derivation

namespace Statement

/-- Tokens with an equals sign in the second place that begin an assignment are read as one. -/
theorem ofTokens_assignment {target equals : Token} (htarget : target.kind = .word)
    (hequals : equals.kind = .equals) {value : List Token} (hvalue : value ≠ []) :
    ofTokens (target :: equals :: value) =
      (Expr.ofTokens value).map (assignment target.text target.span) := by
  obtain ⟨first, rest, rfl⟩ := List.exists_cons_of_ne_nil hvalue
  simp [ofTokens, htarget, hequals]

/-- Tokens without an equals sign are read as an expression. -/
theorem ofTokens_expression {tokens : List Token}
    (h : ∀ token ∈ tokens, token.kind ≠ .equals) :
    ofTokens tokens = (Expr.ofTokens tokens).map expression := by
  unfold ofTokens
  split
  · rename_i target equals first rest
    have hequals := h equals (by simp)
    rw [if_neg (fun hkinds ↦ hequals hkinds.2)]
  · rfl

/-- A statement is an expression read from all the tokens, or an assignment of what is read from
the tokens behind a word and an equals sign. -/
theorem ofTokens_cases {tokens : List Token} {s : Statement} (h : ofTokens tokens = .ok s) :
    (∃ e, Expr.ofTokens tokens = .ok e ∧ s = expression e) ∨
      ∃ target equals value e, tokens = target :: equals :: value ∧ target.kind = .word ∧
        equals.kind = .equals ∧ Expr.ofTokens value = .ok e ∧
        s = assignment target.text target.span e := by
  have hmap {α : Type} {make : Expr → α} {value : List Token} {result : α}
      (hresult : (Expr.ofTokens value).map make = .ok result) :
      ∃ e, Expr.ofTokens value = .ok e ∧ result = make e := by
    cases hread : Expr.ofTokens value with
    | error fault => simp [hread, Except.map] at hresult
    | ok e =>
      simp only [hread, Except.map, Except.ok.injEq] at hresult
      exact ⟨e, rfl, hresult.symm⟩
  unfold ofTokens at h
  split at h
  · rename_i target equals first rest
    split at h
    · rename_i hkinds
      obtain ⟨e, hread, hs⟩ := hmap h
      exact Or.inr ⟨target, equals, first :: rest, e, rfl, hkinds.1, hkinds.2, hread, hs⟩
    · exact Or.inl (hmap h)
  · exact Or.inl (hmap h)

/-- Whatever is read from the tokens of a line is derived from them. -/
theorem derivation_of_statement {tokens : List Token} {s : Statement}
    (h : ofTokens tokens = .ok s) : ∃ d : LineDerivation, d.tokens = tokens := by
  rcases ofTokens_cases h with
    ⟨e, hread, -⟩ | ⟨target, equals, value, e, rfl, hword, hequals, hread, -⟩
  · obtain ⟨d, htokens, -⟩ := Expr.derivation_of_ofTokens hread
    exact ⟨.expression d, htokens⟩
  · obtain ⟨d, htokens, -⟩ := Expr.derivation_of_ofTokens hread
    exact ⟨.assignment target hword equals hequals d, by rw [LineDerivation.tokens, htokens]⟩

/-- The tokens of a line's derivation are read as what it means. -/
theorem ofTokens_line (d : LineDerivation) :
    ∃ s, ofTokens d.tokens = .ok s ∧ s.shape = d.tree := by
  cases d with
  | expression value =>
    obtain ⟨e, hread, hshape⟩ := Expr.ofTokens_tokens value
    refine ⟨.expression e, ?_, by rw [shape, hshape, LineDerivation.tree]⟩
    rw [LineDerivation.tokens, ofTokens_expression value.kind_ne_equals, hread]
    rfl
  | assignment target isWord equals isEquals value =>
    obtain ⟨e, hread, hshape⟩ := Expr.ofTokens_tokens value
    refine ⟨.assignment target.text target.span e, ?_, by rw [shape, hshape, LineDerivation.tree]⟩
    rw [LineDerivation.tokens, ofTokens_assignment isWord isEquals value.tokens_ne_nil, hread]
    rfl

/-- The tokens of a line tell its derivation. -/
theorem eq_of_line_tokens_eq {d d' : LineDerivation} (h : d.tokens = d'.tokens) : d = d' := by
  cases d with
  | expression value =>
    cases d' with
    | expression value' => rw [Derivation.eq_of_tokens_eq h]
    | assignment target' isWord' equals' isEquals' value' =>
      have hmem : equals' ∈ value.tokens := by
        rw [show value.tokens = _ from h]
        simp [LineDerivation.tokens]
      exact absurd isEquals' (value.kind_ne_equals equals' hmem)
  | assignment target isWord equals isEquals value =>
    cases d' with
    | expression value' =>
      have hmem : equals ∈ value'.tokens := by
        rw [show value'.tokens = _ from h.symm]
        simp [LineDerivation.tokens]
      exact absurd isEquals (value'.kind_ne_equals equals hmem)
    | assignment target' isWord' equals' isEquals' value' =>
      simp only [LineDerivation.tokens, List.cons.injEq] at h
      obtain ⟨rfl, rfl, hvalue⟩ := h
      rw [Derivation.eq_of_tokens_eq hvalue]

/-- The grammar is unambiguous: no line has two derivations. The parser succeeds on exactly the
lines that have one, and its statement has the shape that the derivation means. -/
theorem ofTokens_iff_derivation :
    Function.Injective LineDerivation.tokens ∧
      (∀ tokens, (∃ s, ofTokens tokens = .ok s) ↔ ∃ d : LineDerivation, d.tokens = tokens) ∧
      ∀ d : LineDerivation, ∃ s, ofTokens d.tokens = .ok s ∧ s.shape = d.tree := by
  refine ⟨fun d d' ↦ eq_of_line_tokens_eq, ?_, ofTokens_line⟩
  intro tokens
  constructor
  · rintro ⟨s, hs⟩
    exact derivation_of_statement hs
  · rintro ⟨d, rfl⟩
    obtain ⟨s, hs, -⟩ := ofTokens_line d
    exact ⟨s, hs⟩

end Statement

end Reckoner
