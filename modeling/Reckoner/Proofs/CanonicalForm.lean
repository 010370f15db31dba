import Reckoner.Proofs.NumberText
import Reckoner.Proofs.Placement
import Reckoner.Proofs.Shape

/-!
# The canonical form tells a statement

The canonical form is a list of words with spaces between them. An operand begins with a word of its
own kind: an opening parenthesis, a variable behind its mark, or the text of a number. The operands
of an operation or a call end where a word comes that begins none, the sign of the operator or the
mark in front of the function's name. So the words tell where each operand ends, and the whole tree
can be read back from them (`Shape.eq_of_words`), up to spans and the texts of literals: these are
written by their values, and different numbers have different texts.

Names in lines are made of letters, so no word has a space in it and the text tells the words
(`eq_of_spaced`).

Main statement: `Statement.eq_of_render_eq`.
-/

set_option autoImplicit false

namespace Reckoner

/-! ### Words and texts -/

/-- Words, each with a space behind it. -/
def spaced (words : List String) : List Char :=
  words.flatMap fun word ↦ word.toList ++ [' ']

/-- Whether no word has a space in it. -/
def SpaceFree (words : List String) : Prop :=
  ∀ word ∈ words, ' ' ∉ word.toList

/-- No words make no text. -/
@[simp] theorem spaced_nil : spaced [] = [] :=
  rfl

/-- Words behind others. -/
@[simp] theorem spaced_append (front back : List String) :
    spaced (front ++ back) = spaced front ++ spaced back :=
  List.flatMap_append

/-- A word in front of others. -/
@[simp] theorem spaced_cons (word : String) (rest : List String) :
    spaced (word :: rest) = word.toList ++ ' ' :: spaced rest := by
  simp [spaced]

/-- What stands in front of the first occurrence of a mark, and what stands behind it, are told by
the whole. -/
theorem append_mark_inj {α : Type} {mark : α} {front front' back back' : List α}
    (h : mark ∉ front) (h' : mark ∉ front')
    (heq : front ++ mark :: back = front' ++ mark :: back') :
    front = front' ∧ back = back' := by
  rcases List.append_eq_append_iff.mp heq with ⟨more, hfront, hback⟩ | ⟨more, hfront, hback⟩
  · cases more with
    | nil => exact ⟨by rw [hfront, List.append_nil], (List.cons.inj hback).2⟩
    | cons x more =>
      obtain ⟨rfl, -⟩ := List.cons.inj hback
      exact absurd (by simp [hfront]) h'
  · cases more with
    | nil => exact ⟨by rw [hfront, List.append_nil], (List.cons.inj hback).2.symm⟩
    | cons x more =>
      obtain ⟨rfl, -⟩ := List.cons.inj hback
      exact absurd (by simp [hfront]) h

/-- Words without spaces can be told from the text they make. -/
theorem eq_of_spaced {words words' : List String} (h : SpaceFree words) (h' : SpaceFree words')
    (heq : spaced words = spaced words') : words = words' := by
  induction words generalizing words' with
  | nil =>
    cases words' with
    | nil => rfl
    | cons word' rest' => simp at heq
  | cons word rest ih =>
    cases words' with
    | nil => simp at heq
    | cons word' rest' =>
      obtain ⟨hfront, hbehind⟩ := List.forall_mem_cons.mp h
      obtain ⟨hfront', hbehind'⟩ := List.forall_mem_cons.mp h'
      rw [spaced_cons, spaced_cons] at heq
      -- the first space on either side is the one behind the first word
      obtain ⟨hword, hrest⟩ := append_mark_inj hfront hfront' heq
      rw [String.toList_inj.mp hword, ih hbehind hbehind' hrest]

/-- A text that cannot be read as a literal is no text of a number. -/
theorem Binary64.text_ne_of_read? {word : String} (h : Literal.read? word = none)
    (value : Binary64) : value.text ≠ word := by
  intro heq
  obtain ⟨literal, hread, -⟩ := value.read?_text
  rw [heq, h] at hread
  cases hread

/-- Different operators have different signs. -/
theorem Operator.symbol_injective {op op' : Operator} (h : op.symbol = op'.symbol) : op = op' := by
  cases op <;> cases op' <;> first | rfl | exact absurd h (by decide)

/-- The mark in front of a function's name is the sign of no operator. -/
theorem Operator.symbol_ne_mark (op : Operator) : op.symbol ≠ ">|" := by
  cases op <;> decide

/-! ### The words of a shape -/

namespace Shape

mutual

/-- The words of the canonical form of a shape. -/
def words : Shape → List String
  | literal _ value => [value.text]
  | var name => ["v:" ++ name]
  | call callee args => "(" :: (wordsAll args ++ [">|", callee, ")"])
  | binary op left right => "(" :: (left.words ++ right.words ++ [op.symbol, ")"])

/-- The words of the canonical forms of arguments. -/
def wordsAll : List Shape → List String
  | [] => []
  | arg :: rest => arg.words ++ wordsAll rest

end

mutual

/-- A shape without the texts that its literals were read from. -/
def withoutTexts : Shape → Shape
  | literal _ value => literal "" value
  | var name => var name
  | call callee args => call callee (withoutTextsAll args)
  | binary op left right => binary op left.withoutTexts right.withoutTexts

/-- Arguments without the texts that their literals were read from. -/
def withoutTextsAll : List Shape → List Shape
  | [] => []
  | arg :: rest => arg.withoutTexts :: withoutTextsAll rest

end

/-- Whether a word begins an operand. -/
def BeginsOperand (word : String) : Prop :=
  word = "(" ∨ (∃ name, word = "v:" ++ name) ∨ ∃ value : Binary64, word = value.text

/-- Whether a word ends operands: the sign of an operator or the mark in front of a function's
name. -/
def EndsOperands (word : String) : Prop :=
  word = ">|" ∨ ∃ op : Operator, word = op.symbol

/-- A name behind the mark of variables starts with the mark. -/
theorem var_ne {word : String} (h : word.toList.head? ≠ some 'v') (name : String) :
    "v:" ++ name ≠ word := by
  rintro rfl
  exact h (by simp)

/-- Different names are different behind the mark of variables. -/
theorem var_injective {name name' : String} (h : "v:" ++ name = "v:" ++ name') : name = name' := by
  have hchars := congrArg String.toList h
  simpa [String.toList_inj] using hchars

/-- A name behind the mark of variables is no text of a number. -/
theorem text_ne_var (value : Binary64) (name : String) : value.text ≠ "v:" ++ name := by
  intro heq
  have hmem : 'v' ∈ value.text.toList := by simp [heq]
  rcases Binary64.isDecimalChar_of_mem_text hmem with h | h | h <;> exact absurd h (by decide)

/-- A word begins no operand if it is not a parenthesis, does not start as a variable and cannot be
read as a literal. -/
theorem not_beginsOperand {word : String}
    (h : word ≠ "(" ∧ word.toList.head? ≠ some 'v' ∧ Literal.read? word = none) :
    ¬ BeginsOperand word := by
  obtain ⟨hparen, hvar, hread⟩ := h
  rintro (heq | ⟨name, heq⟩ | ⟨value, heq⟩)
  · exact hparen heq
  · exact var_ne hvar name heq.symm
  · exact Binary64.text_ne_of_read? hread value heq.symm

/-- No word both begins an operand and ends operands. -/
theorem EndsOperands.not_beginsOperand {word : String} (h : EndsOperands word) :
    ¬ BeginsOperand word := by
  refine Shape.not_beginsOperand ?_
  rcases h with rfl | ⟨op, rfl⟩
  · decide
  · cases op <;> decide

/-- The words of a shape start with one that begins an operand. -/
theorem exists_words_eq (s : Shape) : ∃ word rest, s.words = word :: rest ∧ BeginsOperand word := by
  cases s with
  | literal text value => exact ⟨_, [], rfl, Or.inr (Or.inr ⟨value, rfl⟩)⟩
  | var name => exact ⟨_, [], rfl, Or.inr (Or.inl ⟨name, rfl⟩)⟩
  | call callee args => exact ⟨_, _, rfl, Or.inl rfl⟩
  | binary op left right => exact ⟨_, _, rfl, Or.inl rfl⟩

/-- Every shape has words. -/
theorem length_words_pos (s : Shape) : 0 < s.words.length := by
  obtain ⟨word, rest, hwords, -⟩ := s.exists_words_eq
  simp [hwords]

/-- The words of a call are those of its arguments between a parenthesis and the mark. -/
theorem words_call_append (callee : String) (args : List Shape) (rest : List String) :
    (call callee args).words ++ rest =
      "(" :: (wordsAll args ++ ">|" :: callee :: ")" :: rest) := by
  simp [words]

/-- The words of an operation are those of its operands between a parenthesis and its sign. -/
theorem words_binary_append (op : Operator) (left right : Shape) (rest : List String) :
    (binary op left right).words ++ rest =
      "(" :: (wordsAll [left, right] ++ op.symbol :: ")" :: rest) := by
  simp [words, wordsAll]

mutual

/-- The words of a shape, whatever stands behind them, tell the shape up to the texts of its
literals, and with it where they end. -/
theorem eq_of_words (s s' : Shape) {rest rest' : List String}
    (h : s.words ++ rest = s'.words ++ rest') :
    s.withoutTexts = s'.withoutTexts ∧ rest = rest' := by
  have hparen : "(".toList.head? ≠ some 'v' ∧ Literal.read? "(" = none := by decide
  cases s with
  | literal text value =>
    cases s' with
    | literal text' value' =>
      obtain ⟨htext, hrest⟩ := List.cons.inj h
      rw [withoutTexts, withoutTexts, Binary64.text_injective htext]
      exact ⟨rfl, hrest⟩
    | var name' => exact absurd (List.cons.inj h).1 (text_ne_var value name')
    | call | binary => exact absurd (List.cons.inj h).1 (Binary64.text_ne_of_read? hparen.2 value)
  | var name =>
    cases s' with
    | literal text' value' => exact absurd (List.cons.inj h).1.symm (text_ne_var value' name)
    | var name' =>
      obtain ⟨hname, hrest⟩ := List.cons.inj h
      rw [var_injective hname]
      exact ⟨rfl, hrest⟩
    | call | binary => exact absurd (List.cons.inj h).1 (var_ne hparen.1 name)
  | call callee args =>
    cases s' with
    | literal text' value' =>
      exact absurd (List.cons.inj h).1.symm (Binary64.text_ne_of_read? hparen.2 value')
    | var name' => exact absurd (List.cons.inj h).1.symm (var_ne hparen.1 name')
    | call callee' args' =>
      rw [words_call_append, words_call_append] at h
      obtain ⟨hargs, -, hrest⟩ :=
        eq_of_wordsAll args args' (Or.inl rfl) (Or.inl rfl) (List.cons.inj h).2
      simp only [List.cons.injEq, true_and] at hrest
      rw [withoutTexts, withoutTexts, hargs, hrest.1]
      exact ⟨rfl, hrest.2⟩
    | binary op' left' right' =>
      rw [words_call_append, words_binary_append] at h
      obtain ⟨-, hmark, -⟩ :=
        eq_of_wordsAll args [left', right'] (Or.inl rfl) (Or.inr ⟨op', rfl⟩) (List.cons.inj h).2
      exact absurd hmark.symm op'.symbol_ne_mark
  | binary op left right =>
    cases s' with
    | literal text' value' =>
      exact absurd (List.cons.inj h).1.symm (Binary64.text_ne_of_read? hparen.2 value')
    | var name' => exact absurd (List.cons.inj h).1.symm (var_ne hparen.1 name')
    | call callee' args' =>
      rw [words_binary_append, words_call_append] at h
      obtain ⟨-, hmark, -⟩ :=
        eq_of_wordsAll [left, right] args' (Or.inr ⟨op, rfl⟩) (Or.inl rfl) (List.cons.inj h).2
      exact absurd hmark op.symbol_ne_mark
    | binary op' left' right' =>
      rw [words_binary_append, words_binary_append] at h
      obtain ⟨hargs, hsign, hrest⟩ := eq_of_wordsAll [left, right] [left', right']
        (Or.inr ⟨op, rfl⟩) (Or.inr ⟨op', rfl⟩) (List.cons.inj h).2
      simp only [withoutTextsAll, List.cons.injEq, and_true] at hargs
      rw [withoutTexts, withoutTexts, hargs.1, hargs.2, Operator.symbol_injective hsign]
      exact ⟨rfl, (List.cons.inj hrest).2⟩
-- two operands in a list are no smaller than their operation, but they have fewer words
termination_by (s.words.length, 0)
decreasing_by
  all_goals
    subst_vars
    refine Prod.Lex.left _ _ ?_
    simp only [words, wordsAll, List.length_cons, List.length_append, List.length_nil]
    omega

/-- The words up to the first that ends operands tell the operands. -/
theorem eq_of_wordsAll (args args' : List Shape) {word word' : String} {rest rest' : List String}
    (hword : EndsOperands word) (hword' : EndsOperands word')
    (h : wordsAll args ++ word :: rest = wordsAll args' ++ word' :: rest') :
    withoutTextsAll args = withoutTextsAll args' ∧ word = word' ∧ rest = rest' := by
  cases args with
  | nil =>
    cases args' with
    | nil =>
      obtain ⟨rfl, rfl⟩ := List.cons.inj h
      exact ⟨rfl, rfl, rfl⟩
    | cons arg' more' =>
      obtain ⟨first, behind, hfirst, hbegins⟩ := arg'.exists_words_eq
      rw [wordsAll, wordsAll, hfirst] at h
      exact absurd ((List.cons.inj h).1 ▸ hbegins) hword.not_beginsOperand
  | cons arg more =>
    cases args' with
    | nil =>
      obtain ⟨first, behind, hfirst, hbegins⟩ := arg.exists_words_eq
      rw [wordsAll, wordsAll, hfirst] at h
      exact absurd ((List.cons.inj h).1 ▸ hbegins) hword'.not_beginsOperand
    | cons arg' more' =>
      rw [wordsAll, wordsAll, List.append_assoc, List.append_assoc] at h
      obtain ⟨harg, hmore⟩ := eq_of_words arg arg' h
      obtain ⟨hargs, hends⟩ := eq_of_wordsAll more more' hword hword' hmore
      rw [withoutTextsAll, withoutTextsAll, harg, hargs]
      exact ⟨rfl, hends⟩
termination_by ((wordsAll args).length, 1)
decreasing_by
  · subst_vars
    rw [Prod.lex_def]
    simp only [wordsAll, List.length_append]
    omega
  · subst_vars
    refine Prod.Lex.left _ _ ?_
    rw [wordsAll, List.length_append]
    have hpos := arg.length_words_pos
    omega

end

/-- The words of what a category means. -/
def wordsOf : (c : Category) → c.Tree → List String
  | .expression _, tree => words tree
  | .arguments, trees => wordsAll trees

end Shape

namespace LineShape

/-- The words of the canonical form of a line. -/
def words : LineShape → List String
  | expression value => value.words
  | assignment target value => "SET" :: target :: "=" :: value.words

/-- The shape of a line without the texts that its literals were read from. -/
def withoutTexts : LineShape → LineShape
  | expression value => expression value.withoutTexts
  | assignment target value => assignment target value.withoutTexts

/-- The word that begins an assignment begins no expression. -/
theorem words_ne_set (value : Shape) (rest : List String) : value.words ≠ "SET" :: rest := by
  intro h
  obtain ⟨word, behind, hwords, hbegins⟩ := value.exists_words_eq
  rw [hwords] at h
  exact Shape.not_beginsOperand (by decide) ((List.cons.inj h).1 ▸ hbegins)

/-- The words tell the shape of a line, up to the texts of its literals. -/
theorem eq_of_words {s s' : LineShape} (h : s.words = s'.words) :
    s.withoutTexts = s'.withoutTexts := by
  cases s with
  | expression value =>
    cases s' with
    | expression value' =>
      rw [withoutTexts, withoutTexts, (Shape.eq_of_words value value' (congrArg (· ++ []) h)).1]
    | assignment target' value' => exact absurd h (words_ne_set value _)
  | assignment target value =>
    cases s' with
    | expression value' => exact absurd h.symm (words_ne_set value' _)
    | assignment target' value' =>
      simp only [words, List.cons.injEq, true_and] at h
      rw [withoutTexts, withoutTexts, h.1,
        (Shape.eq_of_words value value' (congrArg (· ++ []) h.2)).1]

end LineShape

/-! ### The canonical form and its words -/

namespace Expr

mutual

/-- The canonical form of an expression has the words of its shape. -/
theorem toList_render (e : Expr) : (e.render).toList ++ [' '] = spaced e.shape.words := by
  cases e with
  | literal text value span => simp [render, shape, Shape.words]
  | var name span => simp [render, shape, Shape.words]
  | call callee calleeSpan args span =>
    simp [render, shape, Shape.words, toList_renderAll args]
  | binary op left right =>
    simp [render, shape, Shape.words, ← toList_render left, ← toList_render right]

/-- The canonical forms of arguments have the words of their shapes. -/
theorem toList_renderAll (args : List Expr) :
    (renderAll args).toList = spaced (Shape.wordsAll (shapeAll args)) := by
  cases args with
  | nil => rfl
  | cons arg rest =>
    rw [renderAll, shapeAll, Shape.wordsAll, spaced_append, ← toList_render arg,
      ← toList_renderAll rest]
    simp

end

end Expr

/-- The canonical form of a statement has the words of its shape. -/
theorem Statement.toList_render (s : Statement) :
    (s.render).toList ++ [' '] = spaced s.shape.words := by
  cases s with
  | expression value => exact value.toList_render
  | assignment target targetSpan value =>
    rw [shape, LineShape.words, spaced_cons, spaced_cons, spaced_cons, ← value.toList_render]
    simp [render]

/-! ### No word has a space -/

/-- A list of words in front of others has no spaces if neither has. -/
@[simp] theorem spaceFree_append {front back : List String} :
    SpaceFree (front ++ back) ↔ SpaceFree front ∧ SpaceFree back :=
  List.forall_mem_append

/-- A word in front of others without spaces. -/
@[simp] theorem spaceFree_cons {word : String} {rest : List String} :
    SpaceFree (word :: rest) ↔ ' ' ∉ word.toList ∧ SpaceFree rest :=
  List.forall_mem_cons

/-- No words have no spaces. -/
@[simp] theorem spaceFree_nil : SpaceFree [] :=
  List.forall_mem_nil _

/-- The characters of a word are letters, so none is a space. -/
theorem Token.IsLexeme.not_mem_space {text : String} (h : Token.IsLexeme .word text) :
    ' ' ∉ text.toList := by
  obtain ⟨c, tail, rest, rfl, hlexeme⟩ := h
  have hletters : ∀ letter ∈ c :: tail, Token.isLetter letter = true := by
    unfold Token.lexeme? at hlexeme
    split at hlexeme
    · rename_i hletter
      obtain ⟨-, rfl⟩ := Prod.mk.inj (Option.some.inj hlexeme)
      exact List.forall_mem_cons.mpr ⟨hletter, List.all_eq_true.mp List.all_takeWhile⟩
    · split at hlexeme
      · cases hlexeme
      · obtain ⟨kind, hsymbol, hpair⟩ := Option.map_eq_some_iff.mp hlexeme
        obtain ⟨rfl, -⟩ := Prod.mk.inj hpair
        unfold Token.symbol? at hsymbol
        split at hsymbol <;> cases hsymbol
  rw [String.toList_ofList]
  intro hmem
  exact absurd (hletters ' ' hmem) (by decide)

/-- No text of a number has a space. -/
theorem Binary64.not_mem_space_text (x : Binary64) : ' ' ∉ x.text.toList := by
  intro hmem
  rcases isDecimalChar_of_mem_text hmem with h | h | h <;> exact absurd h (by decide)

/-- The sign of an operator is no space. -/
theorem Operator.not_mem_space_symbol (op : Operator) : ' ' ∉ op.symbol.toList := by
  cases op <;> decide

namespace Derivation

/-- If the words among its tokens have no spaces, the words of a derivation's shape have none. -/
theorem spaceFree_words {c : Category} (d : Derivation c)
    (h : ∀ t ∈ d.tokens, t.kind = .word → ' ' ∉ t.text.toList) :
    SpaceFree (Shape.wordsOf c d.tree) := by
  induction d with
  | start first ih | unsigned operand ih => exact ih h
  | plus token isPlus operand ih => exact ih fun t ht ↦ h t (List.mem_cons_of_mem _ ht)
  | step front token op stands joins back ihfront ihback =>
    simp only [tokens, List.forall_mem_append, List.forall_mem_cons] at h
    have hfront := ihfront h.1
    have hback := ihback h.2.2
    simp only [Shape.wordsOf] at hfront hback
    simp [Shape.wordsOf, tree, Shape.words, hfront, hback, op.not_mem_space_symbol]
  | minus token isMinus operand ih =>
    have hoperand := ih fun t ht ↦ h t (List.mem_cons_of_mem _ ht)
    simp only [Shape.wordsOf] at hoperand
    simp [Shape.wordsOf, tree, Shape.words, hoperand, Binary64.not_mem_space_text,
      Operator.not_mem_space_symbol]
  | number token isNumber value reads =>
    simp [Shape.wordsOf, tree, Shape.words, Binary64.not_mem_space_text]
  | word token isWord =>
    simp [Shape.wordsOf, tree, Shape.words, h token (List.mem_singleton_self token) isWord]
  | group opening opens inner closing closes ih =>
    simp only [tokens, List.forall_mem_append, List.forall_mem_cons] at h
    exact ih h.2.1
  | callNone callee isWord opening opens closing closes =>
    simp [Shape.wordsOf, tree, Shape.words, Shape.wordsAll, h callee List.mem_cons_self isWord]
  | call callee isWord opening opens args closing closes ih =>
    have hcallee := h callee List.mem_cons_self isWord
    simp only [tokens, List.forall_mem_append, List.forall_mem_cons] at h
    have hargs := ih h.2.2.1
    simp only [Shape.wordsOf] at hargs
    simp [Shape.wordsOf, tree, Shape.words, hargs, hcallee]
  | last arg ih =>
    have harg := ih h
    simp only [Shape.wordsOf] at harg
    simp [Shape.wordsOf, tree, Shape.wordsAll, harg]
  | more arg comma isComma rest iharg ihrest =>
    simp only [tokens, List.forall_mem_append, List.forall_mem_cons] at h
    have harg := iharg h.1
    have hrest := ihrest h.2.2
    simp only [Shape.wordsOf] at harg hrest
    simp [Shape.wordsOf, tree, Shape.wordsAll, harg, hrest]

end Derivation

/-- The words of an expression read from tokens of a line have no spaces. -/
theorem Expr.spaceFree_words {line : List Char} {tokens : List Token} {e : Expr}
    (h : ofTokens tokens = .ok e) (hplaced : Token.PlacedIn line tokens) :
    SpaceFree e.shape.words := by
  obtain ⟨d, rfl, htree⟩ := derivation_of_ofTokens h
  rw [← htree]
  refine d.spaceFree_words ?_
  intro t ht hword
  exact (hword ▸ (hplaced.stands t ht).lexeme).not_mem_space

/-- The words of the statement of a line have no spaces. -/
theorem Statement.spaceFree_words {line : List Char} {s : Statement} (h : ofLine line = .ok s) :
    SpaceFree s.shape.words := by
  obtain ⟨tokens, hscan, hread⟩ := ofLine_eq_ok_iff.mp h
  have hplaced := Token.placedIn_of_scan hscan
  rcases ofTokens_cases hread with
    ⟨e, hvalue, rfl⟩ | ⟨target, equals, value, e, rfl, hword, -, hvalue, rfl⟩
  · exact Expr.spaceFree_words hvalue hplaced
  · have htarget : ' ' ∉ target.text.toList :=
      (hword ▸ (hplaced.stands target List.mem_cons_self).lexeme).not_mem_space
    have hvalueWords := Expr.spaceFree_words hvalue (hplaced.sublist
      ((List.sublist_cons_self equals value).trans (List.sublist_cons_self target _)))
    simp [shape, LineShape.words, htarget, hvalueWords]

/-! ### What the texts of literals do not change -/

namespace Shape

mutual

/-- The names of the variables a shape reads, from left to right. -/
def reads : Shape → List String
  | literal _ _ => []
  | var name => [name]
  | call _ args => readsAll args
  | binary _ left right => left.reads ++ right.reads

/-- The names that arguments read. -/
def readsAll : List Shape → List String
  | [] => []
  | arg :: rest => arg.reads ++ readsAll rest

end

mutual

/-- The texts of literals do not change what a shape reads. -/
theorem reads_withoutTexts (s : Shape) : s.withoutTexts.reads = s.reads := by
  cases s with
  | literal text value => rfl
  | var name => rfl
  | call callee args => rw [withoutTexts, reads, reads, readsAll_withoutTexts args]
  | binary op left right =>
    rw [withoutTexts, reads, reads, reads_withoutTexts left, reads_withoutTexts right]

/-- The texts of literals do not change what arguments read. -/
theorem readsAll_withoutTexts (args : List Shape) :
    readsAll (withoutTextsAll args) = readsAll args := by
  cases args with
  | nil => rfl
  | cons arg rest =>
    rw [withoutTextsAll, readsAll, readsAll, reads_withoutTexts arg, readsAll_withoutTexts rest]

end

/-- The texts of literals do not change the number of arguments. -/
@[simp] theorem length_withoutTextsAll (args : List Shape) :
    (withoutTextsAll args).length = args.length := by
  induction args with
  | nil => rfl
  | cons arg rest ih => simp [withoutTextsAll, ih]

mutual

/-- The texts of literals do not change what a shape evaluates to. -/
theorem eval_withoutTexts (env : Environment) (s : Shape) :
    s.withoutTexts.eval env = s.eval env := by
  cases s with
  | literal text value => rfl
  | var name => rfl
  | call callee args =>
    rw [withoutTexts, eval, eval, length_withoutTextsAll, evalAll_withoutTexts env args]
  | binary op left right =>
    rw [withoutTexts, eval, eval, eval_withoutTexts env left, eval_withoutTexts env right]

/-- The texts of literals do not change what arguments evaluate to. -/
theorem evalAll_withoutTexts (env : Environment) (args : List Shape) :
    evalAll env (withoutTextsAll args) = evalAll env args := by
  cases args with
  | nil => rfl
  | cons arg rest =>
    rw [withoutTextsAll, evalAll, evalAll, eval_withoutTexts env arg, evalAll_withoutTexts env rest]

end

end Shape

namespace Expr

mutual

/-- An expression reads what its shape reads. -/
theorem reads_shape (e : Expr) : e.shape.reads = e.reads := by
  cases e with
  | literal text value span => rfl
  | var name span => rfl
  | call callee calleeSpan args span => rw [shape, Shape.reads, reads, readsAll_shapeAll args]
  | binary op left right =>
    rw [shape, Shape.reads, reads, reads_shape left, reads_shape right]

/-- Arguments read what their shapes read. -/
theorem readsAll_shapeAll (args : List Expr) : Shape.readsAll (shapeAll args) = readsAll args := by
  cases args with
  | nil => rfl
  | cons arg rest =>
    rw [shapeAll, Shape.readsAll, readsAll, reads_shape arg, readsAll_shapeAll rest]

end

/-- Expressions that differ in spans and texts of literals only read the same variables. -/
theorem reads_eq_of_withoutTexts {e e' : Expr}
    (h : e.shape.withoutTexts = e'.shape.withoutTexts) : e.reads = e'.reads := by
  rw [← reads_shape, ← reads_shape, ← Shape.reads_withoutTexts, h, Shape.reads_withoutTexts]

/-- Expressions that differ in spans and texts of literals only evaluate alike. -/
theorem eval_eq_of_withoutTexts {e e' : Expr} (h : e.shape.withoutTexts = e'.shape.withoutTexts)
    (env : Environment) : unplaced (e.eval env) = unplaced (e'.eval env) := by
  rw [eval_shape, eval_shape, ← Shape.eval_withoutTexts, h, Shape.eval_withoutTexts]

end Expr

namespace Statement

/-- The target of a statement, what its expression reads and what it does are told by its shape
without the texts of literals. -/
theorem alike_of_withoutTexts {s s' : Statement}
    (h : s.shape.withoutTexts = s'.shape.withoutTexts) :
    s.target? = s'.target? ∧ s.names = s'.names ∧
      ∀ env, unplaced (s.execute env) = unplaced (s'.execute env) := by
  cases s with
  | expression value =>
    cases s' with
    | expression value' =>
      simp only [shape, LineShape.withoutTexts, LineShape.expression.injEq] at h
      refine ⟨rfl, congrArg sortNames (Expr.reads_eq_of_withoutTexts h), ?_⟩
      intro env
      simp only [execute, unplaced_bind, Expr.eval_eq_of_withoutTexts h env]
    | assignment target' targetSpan' value' => cases h
  | assignment target targetSpan value =>
    cases s' with
    | expression value' => cases h
    | assignment target' targetSpan' value' =>
      simp only [shape, LineShape.withoutTexts, LineShape.assignment.injEq] at h
      obtain ⟨rfl, hvalue⟩ := h
      refine ⟨rfl, congrArg sortNames (Expr.reads_eq_of_withoutTexts hvalue), ?_⟩
      intro env
      simp only [execute, unplaced_bind, Expr.eval_eq_of_withoutTexts hvalue env]

/-- Assumes: two lines whose statements have the same canonical form. The statements are equal up to
spans and the texts of literals. So they store to the same variable or both to none, and read the
same variables; in every environment they have the same value, store the same value, or fail with
the same fault and so with the same message, at whatever places. -/
theorem eq_of_render_eq {line line' : List Char} {s s' : Statement} (h : ofLine line = .ok s)
    (h' : ofLine line' = .ok s') (hrender : s.render = s'.render) :
    s.shape.withoutTexts = s'.shape.withoutTexts ∧ s.target? = s'.target? ∧ s.names = s'.names ∧
      ∀ env, unplaced (s.execute env) = unplaced (s'.execute env) := by
  have hspaced : spaced s.shape.words = spaced s'.shape.words := by
    rw [← s.toList_render, ← s'.toList_render, hrender]
  have hwords := eq_of_spaced (spaceFree_words h) (spaceFree_words h') hspaced
  have hshape := LineShape.eq_of_words hwords
  exact ⟨hshape, alike_of_withoutTexts hshape⟩

/-- The derivation of `f(y)+1` behind `x=`. -/
def shortSum : SumDerivation :=
  .step
    (.start (.unsigned (.start (.start (.call (.ofChars .word 2 ['f']) rfl
      (.ofChars .openParen 3 ['(']) rfl
      (.last (.start (.unsigned (.start (.start (.word (.ofChars .word 4 ['y']) rfl))))))
      (.ofChars .closeParen 5 [')']) rfl)))))
    (.ofChars .plus 6 ['+']) .add rfl rfl
    (.unsigned (.start (.start (.number (.ofChars .number 7 ['1']) rfl
      (.decimal false ⟨1, 0⟩) rfl))))

/-- The derivation of `(f(y)) + 1.0` behind `x = `. -/
def longSum : SumDerivation :=
  .step
    (.start (.unsigned (.start (.start (.group (.ofChars .openParen 4 ['(']) rfl
      (.start (.unsigned (.start (.start (.call (.ofChars .word 5 ['f']) rfl
        (.ofChars .openParen 6 ['(']) rfl
        (.last (.start (.unsigned (.start (.start (.word (.ofChars .word 7 ['y']) rfl))))))
        (.ofChars .closeParen 8 [')']) rfl)))))
      (.ofChars .closeParen 9 [')']) rfl)))))
    (.ofChars .plus 11 ['+']) .add rfl rfl
    (.unsigned (.start (.start (.number (.ofChars .number 13 ['1', '.', '0']) rfl
      (.decimal false ⟨10, -1⟩) rfl))))

/-- A line of an assignment whose value is derived from the tokens behind the equals sign. -/
theorem ofLine_assignment {line : List Char} {target equals : Token} (d : SumDerivation)
    (hscan : Token.scan line = .ok (target :: equals :: d.tokens)) (htarget : target.kind = .word)
    (hequals : equals.kind = .equals) :
    ofLine line = .ok (.assignment target.text target.span d.reading) := by
  refine ofLine_eq_ok_iff.mpr ⟨_, hscan, ?_⟩
  rw [ofTokens_assignment htarget hequals d.tokens_ne_nil, Expr.ofTokens_reading d]
  rfl

/-- The lines `x=f(y)+1` and `x = (f(y)) + 1.0` have the same canonical form, so they are equal up
to spans and the texts of literals, and do the same. -/
theorem eq_of_render_eq_spelledOut :
    ∃ s s', ofLine "x=f(y)+1".toList = .ok s ∧ ofLine "x = (f(y)) + 1.0".toList = .ok s' ∧
      s.render = s'.render ∧ s.shape.withoutTexts = s'.shape.withoutTexts ∧
      s.target? = s'.target? ∧ s.names = s'.names ∧
      ∀ env, unplaced (s.execute env) = unplaced (s'.execute env) := by
  have hscan : Token.scan "x=f(y)+1".toList =
      .ok (.ofChars .word 0 ['x'] :: .ofChars .equals 1 ['='] :: shortSum.tokens) := by
    cbv
  have hscan' : Token.scan "x = (f(y)) + 1.0".toList =
      .ok (.ofChars .word 0 ['x'] :: .ofChars .equals 2 ['='] :: longSum.tokens) := by
    cbv
  have hshort : ofLine "x=f(y)+1".toList = .ok (.assignment "x" ⟨0, 1⟩ shortSum.reading) :=
    ofLine_assignment shortSum hscan rfl rfl
  have hlong : ofLine "x = (f(y)) + 1.0".toList = .ok (.assignment "x" ⟨0, 1⟩ longSum.reading) :=
    ofLine_assignment longSum hscan' rfl rfl
  have hvalue : (Literal.decimal false ⟨1, 0⟩).toBinary64 =
      (Literal.decimal false ⟨10, -1⟩).toBinary64 := by
    decide
  have hrender : (Statement.assignment "x" ⟨0, 1⟩ shortSum.reading).render =
      (Statement.assignment "x" ⟨0, 1⟩ longSum.reading).render := by
    simp only [render, shortSum, longSum, Derivation.reading, Expr.render, Expr.renderAll,
      Token.ofChars, hvalue]
  exact ⟨_, _, hshort, hlong, hrender, eq_of_render_eq hshort hlong hrender⟩

end Statement

end Reckoner
