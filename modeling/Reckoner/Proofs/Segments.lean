import Reckoner.Expr.Parser

/-!
# The arguments between the parentheses of a call

Arguments are cut at the commas that stand among the items of a call, not inside their groups.

Main statements: items without such a comma are one argument (`Nested.segmentsFrom_of_commaFree`),
and the first comma ends the first argument (`Nested.segmentsFrom_comma`).
-/

set_option autoImplicit false

namespace Reckoner

namespace Nested

/-- No comma stands among the items; there may be some inside their groups. -/
def CommaFree (items : List Nested) : Prop :=
  ∀ token, single token ∈ items → token.kind ≠ .comma

/-- Two sequences are free of commas if both are. -/
@[simp] theorem commaFree_append (front back : List Nested) :
    CommaFree (front ++ back) ↔ CommaFree front ∧ CommaFree back := by
  constructor
  · intro h
    exact ⟨fun token hmem ↦ h token (List.mem_append_left back hmem),
      fun token hmem ↦ h token (List.mem_append_right front hmem)⟩
  · rintro ⟨hfront, hback⟩ token hmem
    rcases List.mem_append.mp hmem with hmem | hmem
    · exact hfront token hmem
    · exact hback token hmem

/-- A group is no comma, whatever it holds. -/
@[simp] theorem commaFree_group (opening : Token) (inner : List Nested) (closing : Token)
    (rest : List Nested) : CommaFree (group opening inner closing :: rest) ↔ CommaFree rest := by
  simp [CommaFree]

/-- A token in front of items is a comma, or it adds none. -/
@[simp] theorem commaFree_single (token : Token) (rest : List Nested) :
    CommaFree (single token :: rest) ↔ token.kind ≠ .comma ∧ CommaFree rest := by
  simp [CommaFree, or_imp, forall_and]

/-- There is no comma among no items. -/
@[simp] theorem commaFree_nil : CommaFree [] := by
  simp [CommaFree]

/-- Items without a comma belong to the current argument. -/
theorem segmentsFrom_append {front : List Nested} (h : CommaFree front) (before : Token)
    (current rest : List Nested) :
    segmentsFrom before current (front ++ rest) =
      segmentsFrom before (front.reverse ++ current) rest := by
  induction front generalizing current with
  | nil => rfl
  | cons item front ih =>
    cases item with
    | single token =>
      obtain ⟨hcomma, hfront⟩ := (commaFree_single token front).mp h
      rw [List.cons_append, segmentsFrom, if_neg hcomma, ih hfront]
      simp
    | group opening inner closing =>
      have hfront := (commaFree_group opening inner closing front).mp h
      simp only [List.cons_append, segmentsFrom, ih hfront, List.reverse_cons, List.append_assoc,
        List.nil_append]

/-- Items without a comma are one argument. -/
theorem segmentsFrom_of_commaFree {items : List Nested} (h : CommaFree items) (before : Token) :
    segmentsFrom before [] items = [⟨before, items⟩] := by
  have hone := segmentsFrom_append h before [] []
  rw [List.append_nil, List.append_nil] at hone
  rw [hone, segmentsFrom, List.reverse_reverse]

/-- The first comma ends the first argument. -/
theorem segmentsFrom_comma {front : List Nested} (h : CommaFree front) {comma : Token}
    (hcomma : comma.kind = .comma) (before : Token) (rest : List Nested) :
    segmentsFrom before [] (front ++ single comma :: rest) =
      ⟨before, front⟩ :: segmentsFrom comma [] rest := by
  rw [segmentsFrom_append h, segmentsFrom, if_pos hcomma, List.append_nil, List.reverse_reverse]

end Nested

end Reckoner
