import Reckoner.Token.Nesting

/-!
# Items and the tokens they stand for

Matching the parentheses of tokens and writing the tokens of items undo each other. Items that come
from tokens have parentheses only around their groups (`Nested.WellNestedAll`), and for such items
the tokens determine the items.

Main statements: the items of tokens are well nested and have these tokens
(`Nested.tokensAll_of_ofTokens`), and well nested items are the items of their tokens
(`Nested.ofTokens_tokensAll`).
-/

set_option autoImplicit false

namespace Reckoner

namespace Nested

mutual

/-- Parentheses stand only around the groups of an item. -/
def WellNested : Nested → Prop
  | single t => t.kind ≠ .openParen ∧ t.kind ≠ .closeParen
  | group opening inner closing =>
    opening.kind = .openParen ∧ closing.kind = .closeParen ∧ WellNestedAll inner

/-- Parentheses stand only around the groups of a sequence. -/
def WellNestedAll : List Nested → Prop
  | [] => True
  | item :: rest => item.WellNested ∧ WellNestedAll rest

end

/-- A sequence is well nested if each of its parts is. -/
@[simp] theorem wellNestedAll_append (front back : List Nested) :
    WellNestedAll (front ++ back) ↔ WellNestedAll front ∧ WellNestedAll back := by
  induction front with
  | nil => simp [WellNestedAll]
  | cons item rest ih => simp only [List.cons_append, WellNestedAll, ih, and_assoc]

/-- A sequence is well nested in either direction. -/
@[simp] theorem wellNestedAll_reverse (items : List Nested) :
    WellNestedAll items.reverse ↔ WellNestedAll items := by
  induction items with
  | nil => rfl
  | cons item rest ih =>
    simp only [List.reverse_cons, wellNestedAll_append, WellNestedAll, ih, and_true]
    exact and_comm

/-- The tokens of a sequence are those of its parts. -/
@[simp] theorem tokensAll_append (front back : List Nested) :
    tokensAll (front ++ back) = tokensAll front ++ tokensAll back := by
  induction front with
  | nil => rfl
  | cons item rest ih => simp only [List.cons_append, tokensAll, ih, List.append_assoc]

/-! ### One token -/

/-- An opening parenthesis leaves a group open. -/
theorem nestFrom_open {t : Token} (h : t.kind = .openParen) (outer : List (Token × List Nested))
    (items : List Nested) (rest : List Token) :
    nestFrom outer items (t :: rest) = nestFrom ((t, items) :: outer) [] rest := by
  simp [nestFrom, h]

/-- A closing parenthesis makes the current items the innermost open group. -/
theorem nestFrom_close {t : Token} (h : t.kind = .closeParen) (opening : Token)
    (before : List Nested) (outer : List (Token × List Nested)) (items : List Nested)
    (rest : List Token) :
    nestFrom ((opening, before) :: outer) items (t :: rest) =
      nestFrom outer (group opening items.reverse t :: before) rest := by
  simp [nestFrom, h]

/-- A closing parenthesis without an open group is redundant. -/
theorem nestFrom_redundant {t : Token} (h : t.kind = .closeParen) (items : List Nested)
    (rest : List Token) : nestFrom [] items (t :: rest) = .error (.redundant t) := by
  simp [nestFrom, h]

/-- Every other token is an item. -/
theorem nestFrom_single {t : Token} (hopen : t.kind ≠ .openParen) (hclose : t.kind ≠ .closeParen)
    (outer : List (Token × List Nested)) (items : List Nested) (rest : List Token) :
    nestFrom outer items (t :: rest) = nestFrom outer (single t :: items) rest := by
  conv =>
    lhs
    unfold nestFrom
  split
  · contradiction
  · contradiction
  · rfl

/-! ### From tokens to items -/

/-- The tokens that were passed when groups were left open, the innermost group first. -/
def openTokens : List (Token × List Nested) → List Token
  | [] => []
  | (opening, before) :: outer => openTokens outer ++ tokensAll before.reverse ++ [opening]

/-- What was passed when groups were left open is well nested. -/
def OpenWellNested : List (Token × List Nested) → Prop
  | [] => True
  | (opening, before) :: outer =>
    opening.kind = .openParen ∧ WellNestedAll before ∧ OpenWellNested outer

/-- The items found hold the tokens that were passed and the remaining ones, well nested. -/
theorem tokensAll_of_nestFrom {outer : List (Token × List Nested)} {items result : List Nested}
    {rest : List Token} (houter : OpenWellNested outer) (hitems : WellNestedAll items)
    (h : nestFrom outer items rest = .ok result) :
    tokensAll result = openTokens outer ++ tokensAll items.reverse ++ rest ∧
      WellNestedAll result := by
  induction rest generalizing outer items with
  | nil =>
    cases outer with
    | nil =>
      simp only [nestFrom, List.isEmpty_nil, ↓reduceIte, Except.ok.injEq] at h
      subst h
      simp only [openTokens, List.nil_append, List.append_nil, true_and]
      exact (wellNestedAll_reverse items).mpr hitems
    | cons level outer => simp [nestFrom] at h
  | cons t rest ih =>
    by_cases hopen : t.kind = .openParen
    · rw [nestFrom_open hopen] at h
      have hlevel : OpenWellNested ((t, items) :: outer) := ⟨hopen, hitems, houter⟩
      have hnone : WellNestedAll [] := trivial
      obtain ⟨htokens, hnested⟩ := ih hlevel hnone h
      refine ⟨?_, hnested⟩
      rw [htokens]
      simp [openTokens, tokensAll]
    by_cases hclose : t.kind = .closeParen
    · cases outer with
      | nil => simp [nestFrom_redundant hclose] at h
      | cons level outer =>
        obtain ⟨opening, before⟩ := level
        obtain ⟨hopening, hbefore, houter⟩ := houter
        rw [nestFrom_close hclose] at h
        have hgroup : WellNestedAll (group opening items.reverse t :: before) :=
          ⟨⟨hopening, hclose, (wellNestedAll_reverse items).mpr hitems⟩, hbefore⟩
        obtain ⟨htokens, hnested⟩ := ih houter hgroup h
        refine ⟨?_, hnested⟩
        rw [htokens]
        simp [openTokens, tokensAll, tokens]
    · rw [nestFrom_single hopen hclose] at h
      have hsingle : WellNestedAll (single t :: items) := ⟨⟨hopen, hclose⟩, hitems⟩
      obtain ⟨htokens, hnested⟩ := ih houter hsingle h
      refine ⟨?_, hnested⟩
      rw [htokens]
      simp [tokensAll, tokens]

/-- The items of tokens have these tokens and are well nested. -/
theorem tokensAll_of_ofTokens {tokens : List Token} {items : List Nested}
    (h : ofTokens tokens = .ok items) : tokensAll items = tokens ∧ WellNestedAll items := by
  have houter : OpenWellNested [] := trivial
  have hitems : WellNestedAll [] := trivial
  obtain ⟨htokens, hnested⟩ := tokensAll_of_nestFrom houter hitems h
  exact ⟨by simpa [openTokens, tokensAll] using htokens, hnested⟩

/-! ### From items to tokens -/

mutual

/-- Passing the tokens of a well nested item adds the item to the current ones. -/
theorem nestFrom_tokens (item : Nested) (outer : List (Token × List Nested))
    (items : List Nested) (rest : List Token) (h : item.WellNested) :
    nestFrom outer items (item.tokens ++ rest) = nestFrom outer (item :: items) rest := by
  cases item with
  | single t =>
    obtain ⟨hopen, hclose⟩ := h
    exact nestFrom_single hopen hclose outer items rest
  | group opening inner closing =>
    obtain ⟨hopen, hclose, hinner⟩ := h
    have hpass := nestFrom_tokensAll inner ((opening, items) :: outer) [] (closing :: rest) hinner
    simp only [tokens, List.cons_append, List.append_assoc, List.nil_append]
    rw [nestFrom_open hopen, hpass, List.append_nil, nestFrom_close hclose, List.reverse_reverse]

/-- Passing the tokens of well nested items adds the items to the current ones. -/
theorem nestFrom_tokensAll (new : List Nested) (outer : List (Token × List Nested))
    (items : List Nested) (rest : List Token) (h : WellNestedAll new) :
    nestFrom outer items (tokensAll new ++ rest) = nestFrom outer (new.reverse ++ items) rest := by
  cases new with
  | nil => rfl
  | cons item further =>
    obtain ⟨hitem, hfurther⟩ := h
    simp only [tokensAll, List.append_assoc, List.reverse_cons, List.singleton_append]
    rw [nestFrom_tokens item outer items _ hitem,
      nestFrom_tokensAll further outer (item :: items) rest hfurther]

end

/-- Well nested items are the items of their tokens. -/
theorem ofTokens_tokensAll {items : List Nested} (h : WellNestedAll items) :
    ofTokens (tokensAll items) = .ok items := by
  have hpass := nestFrom_tokensAll items [] [] [] h
  simp only [List.append_nil] at hpass
  unfold ofTokens
  rw [hpass]
  simp [nestFrom]

end Nested

end Reckoner
