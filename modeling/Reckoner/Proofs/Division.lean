import Reckoner.Expr.Parser

/-!
# Where items are divided

An operator among items is a place to divide them if it does not directly follow another operator.
`Nested.BindsFrom` says that all these places bind at least as tightly as a bound, and
`Nested.Division.IsLoosest` that a place is the loosest one, and the rightmost of those: the places
in front of it bind at least as tightly, and the places behind it more tightly.

Main statement: `Nested.divide?` finds exactly this place (`Nested.divide?_eq_some_iff`).
-/

set_option autoImplicit false

namespace Reckoner

namespace Nested

/-- Whether items end with an operator, given whether an operator stands in front of them. -/
def endsWithOperator (afterOperator : Bool) : List Nested → Bool
  | [] => afterOperator
  | item :: rest => endsWithOperator item.operator?.isSome rest

/-- The operators among items that do not directly follow another operator bind at least as tightly
as `bound`. -/
def BindsFrom (bound : Nat) (afterOperator : Bool) : List Nested → Prop
  | [] => True
  | item :: rest =>
    (∀ token op, item.operator? = some (token, op) → afterOperator = false →
      bound ≤ op.precedence) ∧ BindsFrom bound item.operator?.isSome rest

/-- The end of two sequences is that of the second, behind the first. -/
@[simp] theorem endsWithOperator_append (afterOperator : Bool) (front back : List Nested) :
    endsWithOperator afterOperator (front ++ back) =
      endsWithOperator (endsWithOperator afterOperator front) back := by
  induction front generalizing afterOperator with
  | nil => rfl
  | cons item rest ih => exact ih item.operator?.isSome

/-- The places to divide two sequences are those of the first, and of the second behind the
first. -/
@[simp] theorem bindsFrom_append (bound : Nat) (afterOperator : Bool) (front back : List Nested) :
    BindsFrom bound afterOperator (front ++ back) ↔
      BindsFrom bound afterOperator front ∧
        BindsFrom bound (endsWithOperator afterOperator front) back := by
  induction front generalizing afterOperator with
  | nil => simp [BindsFrom, endsWithOperator]
  | cons item rest ih =>
    simp only [List.cons_append, BindsFrom, endsWithOperator, ih, and_assoc]

/-- A lower bound holds where a higher one does. -/
theorem BindsFrom.mono {low high : Nat} {afterOperator : Bool} {items : List Nested}
    (h : BindsFrom high afterOperator items) (hle : low ≤ high) :
    BindsFrom low afterOperator items := by
  induction items generalizing afterOperator with
  | nil => trivial
  | cons item rest ih =>
    refine ⟨?_, ih h.2⟩
    intro token op hop hfirst
    exact Nat.le_trans hle (h.1 token op hop hfirst)

/-- Behind an operator there are no more places than elsewhere. -/
theorem BindsFrom.after {bound : Nat} {items : List Nested} (h : BindsFrom bound false items) :
    BindsFrom bound true items := by
  cases items with
  | nil => trivial
  | cons item rest => exact ⟨fun _ _ _ hfirst ↦ absurd hfirst (by decide), h.2⟩

/-- Every operator binds at least as tightly as the loosest ones. -/
theorem bindsFrom_zero (afterOperator : Bool) (items : List Nested) :
    BindsFrom 0 afterOperator items := by
  induction items generalizing afterOperator with
  | nil => trivial
  | cons item rest ih => exact ⟨fun _ _ _ _ ↦ Nat.zero_le _, ih _⟩

/-- The item of an operator's token stands for the operator. -/
theorem operator?_single {token : Token} {op : Operator} (h : token.kind.operator? = some op) :
    (single token).operator? = some (token, op) := by
  simp [operator?, h]

/-- The token of an item that stands for an operator is of the operator's kind. -/
theorem kind_operator?_of_operator? {item : Nested} {token : Token} {op : Operator}
    (h : item.operator? = some (token, op)) : token.kind.operator? = some op := by
  rw [eq_single_of_operator?_eq_some h] at h
  simpa [operator?] using h

/-- The places in front of, at and behind an operator that follows an operand. -/
theorem bindsFrom_operator {bound : Nat} {afterOperator : Bool} {front back : List Nested}
    {token : Token} {op : Operator} (hop : token.kind.operator? = some op)
    (hend : endsWithOperator afterOperator front = false) :
    BindsFrom bound afterOperator (front ++ single token :: back) ↔
      BindsFrom bound afterOperator front ∧ bound ≤ op.precedence ∧ BindsFrom bound true back := by
  rw [bindsFrom_append, hend, BindsFrom, operator?_single hop]
  constructor
  · rintro ⟨hfront, hhere, hback⟩
    exact ⟨hfront, hhere token op rfl rfl, hback⟩
  · rintro ⟨hfront, hhere, hback⟩
    refine ⟨hfront, ?_, hback⟩
    intro token' op' heq _
    obtain ⟨rfl, rfl⟩ := Prod.mk.inj (Option.some.inj heq)
    exact hhere

/-! ### The loosest place -/

/-- A place to divide items such that the places in front of it bind at least as tightly, and the
places behind it more tightly. -/
structure Division.IsLoosest (d : Division) (items : List Nested) : Prop where
  divides : d.Divides items
  stands : d.token.kind.operator? = some d.op
  operand : endsWithOperator false d.before.reverse = false
  /-- The places in front bind at least as tightly. -/
  front : BindsFrom d.op.precedence false d.before.reverse
  /-- The places behind bind more tightly. -/
  back : BindsFrom (d.op.precedence + 1) true d.behind

namespace Division.IsLoosest

variable {d : Division} {items : List Nested}

/-- No place binds more loosely than the loosest. -/
theorem bindsFrom (h : d.IsLoosest items) : BindsFrom d.op.precedence false items := by
  rw [← h.divides, bindsFrom_operator h.stands h.operand]
  exact ⟨h.front, Nat.le_refl _, h.back.mono (Nat.le_succ _)⟩

/-- Items end as the part behind the operator does. -/
theorem endsWithOperator_behind (h : d.IsLoosest items) :
    endsWithOperator true d.behind = endsWithOperator false items := by
  rw [← h.divides, endsWithOperator_append, h.operand, endsWithOperator, operator?_single h.stands]
  rfl

/-- The loosest place stays so if the items go on with places that bind more tightly. -/
theorem append (h : d.IsLoosest items) {further : List Nested}
    (hfurther : BindsFrom (d.op.precedence + 1) (endsWithOperator false items) further) :
    Division.IsLoosest { d with behind := d.behind ++ further } (items ++ further) where
  divides := by
    rw [← h.divides]
    simp [Division.Divides]
  stands := h.stands
  operand := h.operand
  front := h.front
  back := by
    rw [bindsFrom_append, h.endsWithOperator_behind]
    exact ⟨h.back, hfurther⟩

/-- The loosest place is not further to the left than another one that claims to be it. -/
theorem not_left {d' : Division} (h : d.IsLoosest items) (h' : d'.IsLoosest items)
    {between : List Nested}
    (hfront : d'.before.reverse = d.before.reverse ++ single d.token :: between)
    (hback : d.behind = between ++ single d'.token :: d'.behind) : False := by
  have hleft : d'.op.precedence ≤ d.op.precedence := by
    have hbinds := h'.front
    rw [hfront, bindsFrom_operator h.stands h.operand] at hbinds
    exact hbinds.2.1
  have hend : endsWithOperator true between = false := by
    have hoperand := h'.operand
    rw [hfront, endsWithOperator_append, h.operand, endsWithOperator,
      operator?_single h.stands] at hoperand
    exact hoperand
  have hright : d.op.precedence + 1 ≤ d'.op.precedence := by
    have hbinds := h.back
    rw [hback, bindsFrom_operator h'.stands hend] at hbinds
    exact hbinds.2.1
  omega

/-- There is only one loosest place. -/
theorem unique {d' : Division} (h : d.IsLoosest items) (h' : d'.IsLoosest items) : d = d' := by
  have hsame : d.before.reverse ++ single d.token :: d.behind =
      d'.before.reverse ++ single d'.token :: d'.behind := h.divides.trans h'.divides.symm
  have hequal (hfront : d.before.reverse = d'.before.reverse)
      (hrest : single d.token :: d.behind = single d'.token :: d'.behind) : d = d' := by
    obtain ⟨before, token, op, behind⟩ := d
    obtain ⟨before', token', op', behind'⟩ := d'
    obtain rfl := List.reverse_inj.mp hfront
    simp only [List.cons.injEq, single.injEq] at hrest
    obtain ⟨rfl, rfl⟩ := hrest
    obtain rfl := Option.some.inj (h.stands.symm.trans h'.stands)
    rfl
  rcases List.append_eq_append_iff.mp hsame with ⟨between, hfront, hrest⟩ | ⟨between, hfront, hrest⟩
  · cases between with
    | nil => exact hequal (by simpa using hfront.symm) hrest
    | cons item between =>
      obtain ⟨rfl, hbehind⟩ := List.cons.inj hrest
      exact (h.not_left h' hfront hbehind).elim
  · cases between with
    | nil => exact hequal (by simpa using hfront) hrest.symm
    | cons item between =>
      obtain ⟨rfl, hbehind⟩ := List.cons.inj hrest
      exact (h'.not_left h hfront hbehind).elim

end Division.IsLoosest

/-! ### The place found -/

/-- The best place among the passed items: there is none to divide them, or it is the loosest one as
far as they go. -/
def BestPassed (passed rest : List Nested) : Option Division → Prop
  | none => ∀ bound, BindsFrom bound false passed.reverse
  | some b => ∃ between, b.behind = between ++ rest ∧
    Division.IsLoosest { b with behind := between } passed.reverse

/-- Passing an item that is no place to divide keeps the best place. -/
theorem BestPassed.pass {passed rest : List Nested} {item : Nested} {best : Option Division}
    (h : BestPassed passed (item :: rest) best)
    (hitem : ∀ bound, BindsFrom bound (endsWithOperator false passed.reverse) [item]) :
    BestPassed (item :: passed) rest best := by
  cases best with
  | none =>
    intro bound
    rw [List.reverse_cons, bindsFrom_append]
    exact ⟨h bound, hitem bound⟩
  | some b =>
    obtain ⟨between, hbehind, hloosest⟩ := h
    refine ⟨between ++ [item], by simp [hbehind], ?_⟩
    rw [List.reverse_cons]
    exact hloosest.append (hitem _)

/-- Passing a place to divide makes it the best one, unless it binds more tightly. -/
theorem BestPassed.choose {passed rest : List Nested} {token : Token} {op : Operator}
    {best : Option Division} (h : BestPassed passed (single token :: rest) best)
    (hop : token.kind.operator? = some op)
    (hoperand : endsWithOperator false passed.reverse = false) :
    BestPassed (single token :: passed) rest
      (some (Division.choose best ⟨passed, token, op, rest⟩)) := by
  have hhere (hfront : BindsFrom op.precedence false passed.reverse) :
      BestPassed (single token :: passed) rest (some ⟨passed, token, op, rest⟩) := by
    refine ⟨[], rfl, ?_⟩
    rw [List.reverse_cons]
    exact ⟨rfl, hop, hoperand, hfront, trivial⟩
  cases best with
  | none => exact hhere (h op.precedence)
  | some b =>
    obtain ⟨between, hbehind, hloosest⟩ := h
    simp only [Division.choose]
    split
    · rename_i hle
      exact hhere (hloosest.bindsFrom.mono hle)
    · rename_i hlt
      refine ⟨between ++ [single token], by simp [hbehind], ?_⟩
      rw [List.reverse_cons]
      refine hloosest.append ⟨?_, trivial⟩
      intro token' op' heq _
      rw [operator?_single hop] at heq
      obtain ⟨rfl, rfl⟩ := Prod.mk.inj (Option.some.inj heq)
      exact Nat.lt_of_not_le hlt

/-- Passing all the items leaves the best place among them. -/
theorem bestPassed_divideFrom {afterOperator : Bool} {passed rest : List Nested}
    {best : Option Division} (hafter : endsWithOperator false passed.reverse = afterOperator)
    (h : BestPassed passed rest best) :
    BestPassed (rest.reverse ++ passed) [] (divideFrom afterOperator passed best rest) := by
  induction rest generalizing afterOperator passed best with
  | nil => exact h
  | cons item rest ih =>
    have hnext : endsWithOperator false (item :: passed).reverse = item.operator?.isSome := by
      rw [List.reverse_cons, endsWithOperator_append]
      rfl
    rw [List.reverse_cons, List.append_assoc, List.singleton_append, divideFrom]
    split
    · rename_i hop
      refine ih (by rw [hnext, hop]; rfl) (h.pass ?_)
      intro bound
      exact ⟨fun _ _ heq ↦ absurd (hop.symm.trans heq) (by simp), trivial⟩
    · rename_i token op hop
      split
      · rename_i hoperator
        refine ih (by rw [hnext, hop]; rfl) (h.pass ?_)
        intro bound
        exact ⟨fun _ _ _ hfirst ↦ absurd (hfirst.symm.trans (hafter.trans hoperator)) (by simp),
          trivial⟩
      · rename_i hoperand
        obtain rfl := eq_single_of_operator?_eq_some hop
        refine ih (by rw [hnext, hop]; rfl) ?_
        refine h.choose (kind_operator?_of_operator? hop) ?_
        rw [hafter]
        exact Bool.eq_false_iff.mpr hoperand

/-- The place where items are divided is the best one among all of them. -/
theorem bestPassed_divide? (items : List Nested) :
    BestPassed items.reverse [] (divide? items) := by
  have hnone : BestPassed [] items none := fun _ ↦ trivial
  have hpassed := bestPassed_divideFrom rfl hnone
  rwa [List.append_nil] at hpassed

/-- Items are divided at a place if and only if it is the loosest one. -/
theorem divide?_eq_some_iff {items : List Nested} {d : Division} :
    divide? items = some d ↔ d.IsLoosest items := by
  have hbest := bestPassed_divide? items
  have hfound (d' : Division) (h : divide? items = some d') : d'.IsLoosest items := by
    rw [h] at hbest
    obtain ⟨between, hbehind, hloosest⟩ := hbest
    rw [List.append_nil] at hbehind
    rw [← hbehind, List.reverse_reverse] at hloosest
    exact hloosest
  constructor
  · exact hfound d
  · intro hloosest
    cases hdivide : divide? items with
    | none =>
      rw [hdivide] at hbest
      have hbinds := hbest (d.op.precedence + 1)
      rw [List.reverse_reverse, ← hloosest.divides,
        bindsFrom_operator hloosest.stands hloosest.operand] at hbinds
      omega
    | some d' => rw [(hfound d' hdivide).unique hloosest]

end Nested

end Reckoner
