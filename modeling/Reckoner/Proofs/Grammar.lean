import Reckoner.Proofs.Division
import Reckoner.Proofs.Nesting
import Reckoner.Proofs.Segments
import Reckoner.Proofs.Shape

/-!
# The grammar of lines

Lines are described by a layered grammar. With `SP`, `PP` and `AP` for the signed operands of the
three layers of operators, its rules are

* `Line ::= word '=' Sum | Sum`,
* `Sum ::= SP | Sum (+|-) SP` and `SP ::= (+|-) SP | Prod`,
* `Prod ::= Pow | Prod (*|/) PP` and `PP ::= (+|-) PP | Pow`,
* `Pow ::= Atom | Pow ^ AP` and `AP ::= (+|-) AP | Atom`,
* `Atom ::= number | word | '(' Sum ')' | word '(' ')' | word '(' Args ')'`,
* `Args ::= Sum | Sum ',' Args`.

A `Derivation` is a derivation tree of a category other than `Line`, and a `LineDerivation` one of
`Line`. Each has the tokens at its leaves (`tokens`) and the shape that it means (`tree`): a sign
`+` means its operand, a sign `-` the difference of zero and its operand, and parentheses what they
hold. The derivations are compared with the parser through their items (`items`), which are the
tokens with matched parentheses.
-/

set_option autoImplicit false

namespace Reckoner

/-- The layers of binary operators, the loosest first. -/
inductive Layer where
  | additive
  | multiplicative
  | exponential

/-- The layer of an operator. -/
def Operator.layer : Operator → Layer
  | add | sub => .additive
  | mul | div => .multiplicative
  | pow => .exponential

/-- The categories of the grammar that mean one expression. -/
inductive Rank where
  /-- Operands joined by the operators of a layer: `Sum`, `Prod` and `Pow`. -/
  | chain (layer : Layer)
  /-- A further operand of a chain, with any number of signs: `SP`, `PP` and `AP`. -/
  | signed (layer : Layer)
  | atom

/-- The categories of the grammar. -/
inductive Category where
  | expression (rank : Rank)
  /-- `Args`, the arguments between the parentheses of a call. -/
  | arguments

namespace Layer

/-- How tightly the operators of a layer bind. -/
def depth : Layer → Nat
  | additive => 0
  | multiplicative => 1
  | exponential => 2

/-- What a layer's signed operand is without its signs: `Prod`, `Pow` and `Atom`. -/
def operand : Layer → Rank
  | additive => .chain .multiplicative
  | multiplicative => .chain .exponential
  | exponential => .atom

/-- What a layer's chain starts with: `SP`, `Pow` and `Atom`. Only a sum starts with signs. -/
def head : Layer → Rank
  | additive => .signed .additive
  | multiplicative => .chain .exponential
  | exponential => .atom

end Layer

/-- Operators bind as their layers do. -/
theorem Operator.precedence_eq_depth (op : Operator) : op.precedence = op.layer.depth := by
  cases op <;> rfl

/-- What a category means: an expression, or several for arguments. -/
abbrev Category.Tree : Category → Type
  | expression _ => Shape
  | arguments => List Shape

/-- The derivation trees of the grammar. -/
inductive Derivation : Category → Type where
  | start {layer : Layer} (first : Derivation (.expression layer.head)) :
    Derivation (.expression (.chain layer))
  | step {layer : Layer} (front : Derivation (.expression (.chain layer))) (token : Token)
    (op : Operator) (stands : token.kind.operator? = some op) (joins : op.layer = layer)
    (back : Derivation (.expression (.signed layer))) : Derivation (.expression (.chain layer))
  | plus {layer : Layer} (token : Token) (isPlus : token.kind = .plus)
    (operand : Derivation (.expression (.signed layer))) : Derivation (.expression (.signed layer))
  | minus {layer : Layer} (token : Token) (isMinus : token.kind = .minus)
    (operand : Derivation (.expression (.signed layer))) : Derivation (.expression (.signed layer))
  | unsigned {layer : Layer} (operand : Derivation (.expression layer.operand)) :
    Derivation (.expression (.signed layer))
  | number (token : Token) (isNumber : token.kind = .number) (value : Literal)
    (reads : Literal.read? token.text = some value) : Derivation (.expression .atom)
  | word (token : Token) (isWord : token.kind = .word) : Derivation (.expression .atom)
  | group (opening : Token) (opens : opening.kind = .openParen)
    (inner : Derivation (.expression (.chain .additive))) (closing : Token)
    (closes : closing.kind = .closeParen) : Derivation (.expression .atom)
  | callNone (callee : Token) (isWord : callee.kind = .word) (opening : Token)
    (opens : opening.kind = .openParen) (closing : Token) (closes : closing.kind = .closeParen) :
    Derivation (.expression .atom)
  | call (callee : Token) (isWord : callee.kind = .word) (opening : Token)
    (opens : opening.kind = .openParen) (args : Derivation .arguments) (closing : Token)
    (closes : closing.kind = .closeParen) : Derivation (.expression .atom)
  | last (arg : Derivation (.expression (.chain .additive))) : Derivation .arguments
  | more (arg : Derivation (.expression (.chain .additive))) (comma : Token)
    (isComma : comma.kind = .comma) (rest : Derivation .arguments) : Derivation .arguments

/-- The derivation trees of an expression. -/
abbrev SumDerivation : Type :=
  Derivation (.expression (.chain .additive))

/-- The derivation trees of a line. -/
inductive LineDerivation where
  | expression (value : SumDerivation)
  | assignment (target : Token) (isWord : target.kind = .word) (equals : Token)
    (isEquals : equals.kind = .equals) (value : SumDerivation)

namespace Derivation

/-- The tokens at the leaves, from left to right. -/
def tokens : {c : Category} → Derivation c → List Token
  | _, start first => first.tokens
  | _, step front token _ _ _ back => front.tokens ++ token :: back.tokens
  | _, plus token _ operand => token :: operand.tokens
  | _, minus token _ operand => token :: operand.tokens
  | _, unsigned operand => operand.tokens
  | _, number token _ _ _ => [token]
  | _, word token _ => [token]
  | _, group opening _ inner closing _ => opening :: (inner.tokens ++ [closing])
  | _, callNone callee _ opening _ closing _ => [callee, opening, closing]
  | _, call callee _ opening _ args closing _ => callee :: opening :: (args.tokens ++ [closing])
  | _, last arg => arg.tokens
  | _, more arg comma _ rest => arg.tokens ++ comma :: rest.tokens

/-- The shape that a derivation means. -/
def tree : {c : Category} → Derivation c → c.Tree
  | _, start first => first.tree
  | _, step front _ op _ _ back => Shape.binary op front.tree back.tree
  | _, plus _ _ operand => operand.tree
  | _, minus _ _ operand => Shape.binary .sub (.literal "0" Binary64.zero) operand.tree
  | _, unsigned operand => operand.tree
  | _, number token _ value _ => Shape.literal token.text value.toBinary64
  | _, word token _ => Shape.var token.text
  | _, group _ _ inner _ _ => inner.tree
  | _, callNone callee _ _ _ _ _ => Shape.call callee.text []
  | _, call callee _ _ _ args _ _ => Shape.call callee.text args.tree
  | _, last arg => [(arg.tree : Shape)]
  | _, more arg _ _ rest => (arg.tree : Shape) :: (rest.tree : List Shape)

/-- The items of the tokens at the leaves. -/
def items : {c : Category} → Derivation c → List Nested
  | _, start first => first.items
  | _, step front token _ _ _ back => front.items ++ .single token :: back.items
  | _, plus token _ operand => .single token :: operand.items
  | _, minus token _ operand => .single token :: operand.items
  | _, unsigned operand => operand.items
  | _, number token _ _ _ => [.single token]
  | _, word token _ => [.single token]
  | _, group opening _ inner closing _ => [.group opening inner.items closing]
  | _, callNone callee _ opening _ closing _ => [.single callee, .group opening [] closing]
  | _, call callee _ opening _ args closing _ =>
    [.single callee, .group opening args.items closing]
  | _, last arg => arg.items
  | _, more arg comma _ rest => arg.items ++ .single comma :: rest.items

end Derivation

namespace LineDerivation

/-- The tokens at the leaves, from left to right. -/
def tokens : LineDerivation → List Token
  | expression value => value.tokens
  | assignment target _ equals _ value => target :: equals :: value.tokens

/-- The shape that a derivation means. -/
def tree : LineDerivation → LineShape
  | expression value => .expression value.tree
  | assignment target _ _ _ value => .assignment target.text value.tree

end LineDerivation

/-! ### Items of derivations -/

namespace Derivation

/-- The items of a derivation have the tokens at its leaves. -/
theorem tokensAll_items {c : Category} (d : Derivation c) :
    Nested.tokensAll d.items = d.tokens := by
  induction d <;> simp_all [items, tokens, Nested.tokensAll, Nested.tokens]

/-- A token that stands for an operator is no parenthesis. -/
theorem wellNested_operator {token : Token} {op : Operator}
    (h : token.kind.operator? = some op) : (Nested.single token).WellNested := by
  constructor <;> intro hkind <;> simp [hkind, TokenKind.operator?] at h

/-- Parentheses stand only around the groups of a derivation. -/
theorem wellNestedAll_items {c : Category} (d : Derivation c) :
    Nested.WellNestedAll d.items := by
  induction d with
  | step front token op stands joins back ihfront ihback =>
    rw [items, Nested.wellNestedAll_append]
    exact ⟨ihfront, wellNested_operator stands, ihback⟩
  | more arg comma isComma rest iharg ihrest =>
    rw [items, Nested.wellNestedAll_append]
    exact ⟨iharg, by simp [Nested.WellNested, isComma], ihrest⟩
  | _ => simp_all [items, Nested.WellNestedAll, Nested.WellNested]

/-- Every derivation has items. -/
theorem items_ne_nil {c : Category} (d : Derivation c) : d.items ≠ [] := by
  induction d <;> simp_all [items]

/-- No derivation ends with an operator. -/
theorem endsWithOperator_items {c : Category} (d : Derivation c) (afterOperator : Bool) :
    Nested.endsWithOperator afterOperator d.items = false := by
  induction d generalizing afterOperator with
  | step front token op stands joins back ihfront ihback =>
    simp only [items, Nested.endsWithOperator_append, Nested.endsWithOperator, ihback]
  | more arg comma isComma rest iharg ihrest =>
    simp only [items, Nested.endsWithOperator_append, Nested.endsWithOperator, ihrest]
  | start first ih | unsigned operand ih | last arg ih => exact ih afterOperator
  | plus token isSign operand ih | minus token isSign operand ih => exact ih _
  | number token isKind | word token isKind =>
    simp [items, Nested.endsWithOperator, Nested.operator?, isKind, TokenKind.operator?]
  | group | callNone | call => rfl

end Derivation

namespace Category

/-- How tightly the items of a category bind: a chain at its layer, a signed operand more tightly
behind an operator, and an atom has no place to be divided. -/
def Binds : Category → List Nested → Prop
  | expression (.chain layer), items => Nested.BindsFrom layer.depth false items
  | expression (.signed layer), items => Nested.BindsFrom (layer.depth + 1) true items
  | expression .atom, items => ∀ bound, Nested.BindsFrom bound false items
  | arguments, _ => True

end Category

namespace Derivation

/-- What a chain starts with binds more tightly than the chain, behind an operator. -/
theorem bindsFrom_head {layer : Layer} {items : List Nested}
    (h : (Category.expression layer.head).Binds items) :
    Nested.BindsFrom (layer.depth + 1) true items := by
  cases layer with
  | additive => exact h
  | multiplicative => exact h.after
  | exponential => exact (h 3).after

/-- An operand without signs binds more tightly than the layer's operators. -/
theorem bindsFrom_operand {layer : Layer} {items : List Nested}
    (h : (Category.expression layer.operand).Binds items) :
    Nested.BindsFrom (layer.depth + 1) false items := by
  cases layer with
  | additive => exact h
  | multiplicative => exact h
  | exponential => exact h 3

/-- A chain that starts without signs binds at least as tightly as its layer. -/
theorem bindsFrom_start {layer : Layer} {items : List Nested}
    (h : (Category.expression layer.head).Binds items) :
    Nested.BindsFrom layer.depth false items := by
  cases layer with
  | additive => exact Nested.bindsFrom_zero false items
  | multiplicative => exact Nested.BindsFrom.mono h (by decide)
  | exponential => exact h 2

/-- The items of a derivation bind as its category does. -/
theorem binds_items {c : Category} (d : Derivation c) : c.Binds d.items := by
  induction d with
  | start first ih => exact bindsFrom_start ih
  | @step layer front token op stands joins back ihfront ihback =>
    have hdepth : op.precedence = layer.depth := by rw [op.precedence_eq_depth, joins]
    refine (Nested.bindsFrom_operator stands (endsWithOperator_items front false)).mpr ?_
    exact ⟨ihfront, Nat.le_of_eq hdepth.symm, ihback.mono (Nat.le_succ _)⟩
  | plus token isSign operand ih | minus token isSign operand ih =>
    have hsign : (Nested.single token).operator?.isSome = true := by
      simp [Nested.operator?, isSign, TokenKind.operator?]
    refine ⟨fun _ _ _ hfirst ↦ absurd hfirst (by decide), ?_⟩
    rw [hsign]
    exact ih
  | unsigned operand ih => exact (bindsFrom_operand ih).after
  | number token isKind | word token isKind | callNone token isKind | call token isKind =>
    intro bound
    simp [items, Nested.BindsFrom, Nested.operator?, isKind, TokenKind.operator?]
  | group =>
    intro bound
    simp [items, Nested.BindsFrom, Nested.operator?]
  | last => trivial
  | more => trivial

/-- A longer chain can be divided at its last operator, and nowhere more loosely or further to the
right. -/
theorem isLoosest_step {layer : Layer} (front : Derivation (.expression (.chain layer)))
    {token : Token} {op : Operator} (stands : token.kind.operator? = some op)
    (joins : op.layer = layer) (back : Derivation (.expression (.signed layer))) :
    Nested.Division.IsLoosest ⟨front.items.reverse, token, op, back.items⟩
      (front.items ++ .single token :: back.items) := by
  have hdepth : op.precedence = layer.depth := by rw [op.precedence_eq_depth, joins]
  refine ⟨by simp [Nested.Division.Divides], stands, ?_, ?_, ?_⟩
  · simpa using endsWithOperator_items front false
  · have hfront : Nested.BindsFrom layer.depth false front.items := binds_items front
    simpa [hdepth] using hfront
  · rw [hdepth]
    exact binds_items back

/-- A signed operand can be divided at its first sign, and nowhere else as loosely. -/
theorem isLoosest_sign {layer : Layer} {token : Token} {op : Operator}
    (stands : token.kind.operator? = some op) (hop : op.layer = .additive)
    (operand : Derivation (.expression (.signed layer))) :
    Nested.Division.IsLoosest ⟨[], token, op, operand.items⟩ (.single token :: operand.items) := by
  have hdepth : op.precedence = 0 := by
    rw [op.precedence_eq_depth, hop]
    rfl
  refine ⟨rfl, stands, rfl, trivial, ?_⟩
  rw [hdepth]
  exact Nested.BindsFrom.mono (binds_items operand) (by omega)

end Derivation

/-! ### The grammar is unambiguous -/

namespace Derivation

/-- No comma stands among the items of an expression. -/
theorem commaFree_items : {r : Rank} → (d : Derivation (.expression r)) → Nested.CommaFree d.items
  | _, start first => commaFree_items first
  | _, step front token op stands _ back => by
    have hcomma : token.kind ≠ .comma := fun hkind ↦ by simp [hkind, TokenKind.operator?] at stands
    rw [items, Nested.commaFree_append, Nested.commaFree_single]
    exact ⟨commaFree_items front, hcomma, commaFree_items back⟩
  | _, plus token isSign operand | _, minus token isSign operand => by
    rw [items, Nested.commaFree_single, isSign]
    exact ⟨by decide, commaFree_items operand⟩
  | _, unsigned operand => commaFree_items operand
  | _, number token isKind _ _ | _, word token isKind | _, callNone token isKind _ _ _ _
  | _, call token isKind _ _ _ _ _ => by
    simp [items, isKind]
  | _, group _ _ _ _ _ => by
    simp [items]

/-- A plus sign stands for addition. -/
theorem stands_plus {token : Token} (h : token.kind = .plus) :
    token.kind.operator? = some .add := by
  rw [h]
  rfl

/-- A minus sign stands for subtraction. -/
theorem stands_minus {token : Token} (h : token.kind = .minus) :
    token.kind.operator? = some .sub := by
  rw [h]
  rfl

/-- What a chain starts with is no longer chain of the same layer. -/
theorem items_start_ne_step {layer : Layer} (first : Derivation (.expression layer.head))
    (front : Derivation (.expression (.chain layer))) {token : Token} {op : Operator}
    (stands : token.kind.operator? = some op) (joins : op.layer = layer) (back : List Nested) :
    first.items ≠ front.items ++ .single token :: back := by
  intro heq
  have hbinds := bindsFrom_head (binds_items first)
  rw [heq, Nested.bindsFrom_operator stands (endsWithOperator_items front true),
    op.precedence_eq_depth, joins] at hbinds
  omega

/-- An operand without signs does not start with a sign. -/
theorem items_operand_ne_sign {layer : Layer} (operand : Derivation (.expression layer.operand))
    {token : Token} {op : Operator} (stands : token.kind.operator? = some op)
    (hop : op.layer = .additive) (rest : List Nested) :
    operand.items ≠ .single token :: rest := by
  intro heq
  have hbinds := bindsFrom_operand (binds_items operand)
  rw [heq] at hbinds
  have hle := hbinds.1 token op (Nested.operator?_single stands) rfl
  rw [op.precedence_eq_depth, hop, Layer.depth] at hle
  omega

/-- The items of a longer chain tell what its last operator joins. -/
theorem items_step_inj {layer : Layer} {front front' : Derivation (.expression (.chain layer))}
    {token token' : Token} {op op' : Operator} (stands : token.kind.operator? = some op)
    (joins : op.layer = layer) (stands' : token'.kind.operator? = some op')
    (joins' : op'.layer = layer) {back back' : Derivation (.expression (.signed layer))}
    (h : front.items ++ .single token :: back.items =
      front'.items ++ .single token' :: back'.items) :
    front.items = front'.items ∧ token = token' ∧ op = op' ∧ back.items = back'.items := by
  have hloosest := isLoosest_step front stands joins back
  have hloosest' := isLoosest_step front' stands' joins' back'
  rw [← h] at hloosest'
  have hsame := hloosest.unique hloosest'
  simpa only [Nested.Division.mk.injEq, List.reverse_inj] using hsame

/-- An argument is not several arguments. -/
theorem items_ne_comma {r : Rank} (arg : Derivation (.expression r)) {comma : Token}
    (isComma : comma.kind = .comma) (front rest : List Nested) :
    arg.items ≠ front ++ .single comma :: rest := by
  intro heq
  have hfree := commaFree_items arg
  rw [heq, Nested.commaFree_append, Nested.commaFree_single] at hfree
  exact hfree.2.1 isComma

/-- The items of several arguments tell the first of them. -/
theorem items_more_inj {r : Rank} {arg arg' : Derivation (.expression r)} {comma comma' : Token}
    (isComma : comma.kind = .comma) (isComma' : comma'.kind = .comma) {rest rest' : List Nested}
    (h : arg.items ++ .single comma :: rest = arg'.items ++ .single comma' :: rest') :
    arg.items = arg'.items ∧ comma = comma' ∧ rest = rest' := by
  -- both sides are cut at their first comma
  have hcut := congrArg (Nested.segmentsFrom comma []) h
  rw [Nested.segmentsFrom_comma (commaFree_items arg) isComma,
    Nested.segmentsFrom_comma (commaFree_items arg') isComma'] at hcut
  obtain ⟨hsegment, -⟩ := List.cons.inj hcut
  have harg : arg.items = arg'.items := congrArg Nested.Segment.items hsegment
  rw [harg] at h
  obtain ⟨hcomma, hrest⟩ := List.cons.inj (List.append_cancel_left h)
  exact ⟨harg, Nested.single.inj hcomma, hrest⟩

/-- Of two derivations of one category, the items tell whether they are equal. -/
theorem eq_of_items_eq {c : Category} (d d' : Derivation c) (h : d.items = d'.items) : d = d' := by
  induction d with
  | @start layer first ih =>
    cases d' with
    | start first' => rw [ih first' h]
    | step front' token' op' stands' joins' back' =>
      exact absurd h (items_start_ne_step first front' stands' joins' back'.items)
  | step front token op stands joins back ihfront ihback =>
    cases d' with
    | start first' =>
      exact absurd h.symm (items_start_ne_step first' front stands joins back.items)
    | step front' token' op' stands' joins' back' =>
      obtain ⟨hfront, rfl, rfl, hback⟩ := items_step_inj stands joins stands' joins' h
      rw [ihfront front' hfront, ihback back' hback]
  | plus token isPlus operand ih =>
    cases d' with
    | plus token' isPlus' operand' =>
      obtain ⟨htoken, hoperand⟩ := List.cons.inj h
      obtain rfl := Nested.single.inj htoken
      rw [ih operand' hoperand]
    | minus token' isMinus' operand' =>
      obtain ⟨htoken, -⟩ := List.cons.inj h
      obtain rfl := Nested.single.inj htoken
      simp [isPlus] at isMinus'
    | unsigned operand' =>
      exact absurd h.symm (items_operand_ne_sign operand' (stands_plus isPlus) rfl operand.items)
  | minus token isMinus operand ih =>
    cases d' with
    | plus token' isPlus' operand' =>
      obtain ⟨htoken, -⟩ := List.cons.inj h
      obtain rfl := Nested.single.inj htoken
      simp [isMinus] at isPlus'
    | minus token' isMinus' operand' =>
      obtain ⟨htoken, hoperand⟩ := List.cons.inj h
      obtain rfl := Nested.single.inj htoken
      rw [ih operand' hoperand]
    | unsigned operand' =>
      exact absurd h.symm (items_operand_ne_sign operand' (stands_minus isMinus) rfl operand.items)
  | unsigned operand ih =>
    cases d' with
    | plus token' isPlus' operand' =>
      exact absurd h (items_operand_ne_sign operand (stands_plus isPlus') rfl operand'.items)
    | minus token' isMinus' operand' =>
      exact absurd h (items_operand_ne_sign operand (stands_minus isMinus') rfl operand'.items)
    | unsigned operand' => rw [ih operand' h]
  | number token isNumber value reads =>
    cases d' with
    | number token' isNumber' value' reads' =>
      simp only [items, List.cons.injEq, Nested.single.injEq, and_true] at h
      subst h
      obtain rfl := Option.some.inj (reads.symm.trans reads')
      rfl
    | word token' isWord' =>
      simp only [items, List.cons.injEq, Nested.single.injEq, and_true] at h
      simp [h, isWord'] at isNumber
    | _ => simp [items] at h
  | word token isWord =>
    cases d' with
    | number token' isNumber' value' reads' =>
      simp only [items, List.cons.injEq, Nested.single.injEq, and_true] at h
      simp [h, isNumber'] at isWord
    | word token' isWord' =>
      simp only [items, List.cons.injEq, Nested.single.injEq, and_true] at h
      subst h
      rfl
    | _ => simp [items] at h
  | group opening opens inner closing closes ih =>
    cases d' with
    | group opening' opens' inner' closing' closes' =>
      simp only [items, List.cons.injEq, Nested.group.injEq, and_true] at h
      obtain ⟨rfl, hinner, rfl⟩ := h
      rw [ih inner' hinner]
    | _ => simp [items] at h
  | callNone callee isWord opening opens closing closes =>
    cases d' with
    | callNone callee' isWord' opening' opens' closing' closes' =>
      simp only [items, List.cons.injEq, Nested.single.injEq, Nested.group.injEq, true_and,
        and_true] at h
      obtain ⟨rfl, rfl, rfl⟩ := h
      rfl
    | call callee' isWord' opening' opens' args' closing' closes' =>
      have hargs := items_ne_nil args'
      simp [items, hargs.symm] at h
    | _ => simp [items] at h
  | call callee isWord opening opens args closing closes ih =>
    cases d' with
    | callNone callee' isWord' opening' opens' closing' closes' =>
      have hargs := items_ne_nil args
      simp [items, hargs] at h
    | call callee' isWord' opening' opens' args' closing' closes' =>
      simp only [items, List.cons.injEq, Nested.single.injEq, Nested.group.injEq, and_true] at h
      obtain ⟨rfl, rfl, hargs, rfl⟩ := h
      rw [ih args' hargs]
    | _ => simp [items] at h
  | last arg ih =>
    cases d' with
    | last arg' => rw [ih arg' h]
    | more arg' comma' isComma' rest' =>
      exact absurd h (items_ne_comma arg isComma' arg'.items rest'.items)
  | more arg comma isComma rest iharg ihrest =>
    cases d' with
    | last arg' => exact absurd h.symm (items_ne_comma arg' isComma arg.items rest.items)
    | more arg' comma' isComma' rest' =>
      obtain ⟨harg, rfl, hrest⟩ := items_more_inj isComma isComma' h
      rw [iharg arg' harg, ihrest rest' hrest]

/-- Of two derivations of one category, the tokens tell whether they are equal. -/
theorem eq_of_tokens_eq {c : Category} {d d' : Derivation c} (h : d.tokens = d'.tokens) :
    d = d' := by
  apply eq_of_items_eq
  have hitems := Nested.ofTokens_tokensAll (wellNestedAll_items d)
  rw [tokensAll_items, h, ← tokensAll_items d',
    Nested.ofTokens_tokensAll (wellNestedAll_items d')] at hitems
  exact (Except.ok.inj hitems).symm

end Derivation

end Reckoner
