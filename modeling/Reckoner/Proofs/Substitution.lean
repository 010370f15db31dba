import Reckoner.Proofs.Parsing

/-!
# Substituting an expression for a variable

Storing the value of an expression in a variable and then evaluating a line gives what the line
gives with the expression, in parentheses, in the places of the variable. In a list of tokens the
places of a variable are the words of that name that no opening parenthesis follows
(`Token.substitute`).

The same substitution is made in derivations and in shapes. A derivation with a group in the place
of a word is a derivation of the same category, so no other token changes its part in the line.

Main statement: `Statement.execute_substitute`.
-/

set_option autoImplicit false

namespace Reckoner

/-! ### Three substitutions -/

/-- Whether tokens start with an opening parenthesis. -/
def Token.startsGroup : List Token → Bool
  | [] => false
  | t :: _ => decide (t.kind = .openParen)

/-- Puts tokens in the place of every word of a name that no opening parenthesis follows. -/
def Token.substitute (name : String) (new : List Token) : List Token → List Token
  | [] => []
  | t :: rest =>
    if t.kind = .word ∧ t.text = name ∧ Token.startsGroup rest = false then
      new ++ Token.substitute name new rest
    else t :: Token.substitute name new rest

namespace Shape

mutual

/-- Puts a shape in the place of a variable. -/
def substitute (name : String) (new : Shape) : Shape → Shape
  | literal text value => literal text value
  | var other => if other = name then new else var other
  | call callee args => call callee (substituteAll name new args)
  | binary op left right => binary op (substitute name new left) (substitute name new right)

/-- Puts a shape in the place of a variable in arguments. -/
def substituteAll (name : String) (new : Shape) : List Shape → List Shape
  | [] => []
  | arg :: rest => substitute name new arg :: substituteAll name new rest

end

/-- A substitution leaves the number of arguments. -/
@[simp] theorem length_substituteAll (name : String) (new : Shape) (args : List Shape) :
    (substituteAll name new args).length = args.length := by
  induction args with
  | nil => rfl
  | cons arg rest ih => simp [substituteAll, ih]

/-- Puts a shape in the place of a variable in what a category means. -/
def substituteTree (name : String) (new : Shape) : (c : Category) → c.Tree → c.Tree
  | .expression _, tree => Shape.substitute name new tree
  | .arguments, trees => Shape.substituteAll name new trees

end Shape

namespace Derivation

/-- Puts an atom in the place of every word of a name that is a variable. -/
def substitute (name : String) (new : Derivation (.expression .atom)) :
    {c : Category} → Derivation c → Derivation c
  | _, start first => start (substitute name new first)
  | _, step front token op stands joins back =>
    step (substitute name new front) token op stands joins (substitute name new back)
  | _, plus token isPlus operand => plus token isPlus (substitute name new operand)
  | _, minus token isMinus operand => minus token isMinus (substitute name new operand)
  | _, unsigned operand => unsigned (substitute name new operand)
  | _, number token isNumber value reads => number token isNumber value reads
  | _, word token isWord => if token.text = name then new else word token isWord
  | _, group opening opens inner closing closes =>
    group opening opens (substitute name new inner) closing closes
  | _, callNone callee isWord opening opens closing closes =>
    callNone callee isWord opening opens closing closes
  | _, call callee isWord opening opens args closing closes =>
    call callee isWord opening opens (substitute name new args) closing closes
  | _, last arg => last (substitute name new arg)
  | _, more arg comma isComma rest =>
    more (substitute name new arg) comma isComma (substitute name new rest)

/-- The shape of a derivation after a substitution. -/
theorem tree_substitute (name : String) (new : Derivation (.expression .atom)) {c : Category}
    (d : Derivation c) :
    (substitute name new d).tree = Shape.substituteTree name new.tree c d.tree := by
  induction d with
  | start first ih | unsigned operand ih | plus _ _ operand ih => exact ih
  | group opening opens inner closing closes ih => exact ih
  | step front token op stands joins back ihfront ihback =>
    exact congr (congrArg (Shape.binary op) ihfront) ihback
  | minus token isMinus operand ih =>
    exact congrArg (Shape.binary .sub (.literal "0" Binary64.zero)) ih
  | word token isWord =>
    change (if token.text = name then new else word token isWord).tree =
      (if token.text = name then new.tree else Shape.var token.text)
    by_cases hname : token.text = name
    · rw [if_pos hname, if_pos hname]
    · rw [if_neg hname, if_neg hname]
      rfl
  | number => rfl
  | callNone => rfl
  | call callee isWord opening opens args closing closes ih =>
    exact congrArg (Shape.call callee.text) ih
  | last arg ih => exact congrArg (fun tree : Shape ↦ [tree]) ih
  | more arg comma isComma rest iharg ihrest => exact congr (congrArg List.cons iharg) ihrest

end Derivation

/-! ### Tokens after a substitution -/

namespace Token

variable {name : String} {new : List Token}

/-- A token that is no word stays. -/
theorem substitute_cons_of_ne {t : Token} (h : t.kind ≠ .word) (rest : List Token) :
    substitute name new (t :: rest) = t :: substitute name new rest := by
  simp [substitute, h]

/-- A word in front of an opening parenthesis stays. -/
theorem substitute_callee {opening : Token} (h : opening.kind = .openParen) (t : Token)
    (rest : List Token) :
    substitute name new (t :: opening :: rest) =
      t :: opening :: substitute name new rest := by
  simp [substitute, startsGroup, h]

/-- In front of anything but an opening parenthesis, tokens are substituted on their own. -/
theorem substitute_append (front : List Token) {back : List Token}
    (h : startsGroup back = false) :
    substitute name new (front ++ back) =
      substitute name new front ++ substitute name new back := by
  induction front with
  | nil => rfl
  | cons t front ih =>
    have hnext : startsGroup (front ++ back) = startsGroup front := by
      cases front with
      | nil => exact h
      | cons next further => rfl
    rw [List.cons_append, substitute, substitute, hnext, ih]
    split <;> simp

/-- Behind tokens stands a token that is neither a word nor an opening parenthesis. -/
theorem substitute_append_cons (front : List Token) {t : Token} (hword : t.kind ≠ .word)
    (hopen : t.kind ≠ .openParen) (back : List Token) :
    substitute name new (front ++ t :: back) =
      substitute name new front ++ t :: substitute name new back := by
  rw [substitute_append front (by simpa [startsGroup] using hopen), substitute_cons_of_ne hword]

end Token

namespace Derivation

/-- The tokens of a derivation after a substitution. -/
theorem tokens_substitute (name : String) (new : Derivation (.expression .atom)) {c : Category}
    (d : Derivation c) :
    (substitute name new d).tokens = Token.substitute name new.tokens d.tokens := by
  induction d with
  | start first ih | unsigned operand ih | last arg ih => exact ih
  | step front token op stands joins back ihfront ihback =>
    have hword : token.kind ≠ .word := fun h ↦ by simp [h, TokenKind.operator?] at stands
    have hopen : token.kind ≠ .openParen := fun h ↦ by simp [h, TokenKind.operator?] at stands
    rw [substitute, tokens, tokens, Token.substitute_append_cons front.tokens hword hopen, ihfront,
      ihback]
  | plus token isSign operand ih | minus token isSign operand ih =>
    rw [substitute, tokens, tokens, Token.substitute_cons_of_ne (by simp [isSign]), ih]
  | number token isNumber value reads =>
    rw [substitute, tokens, Token.substitute_cons_of_ne (by simp [isNumber])]
    rfl
  | word token isWord =>
    rw [substitute, tokens, Token.substitute]
    by_cases hname : token.text = name
    · simp [isWord, hname, Token.startsGroup, Token.substitute]
    · simp [hname, tokens, Token.substitute]
  | group opening opens inner closing closes ih =>
    rw [substitute, tokens, tokens, Token.substitute_cons_of_ne (by simp [opens]),
      Token.substitute_append_cons inner.tokens (by simp [closes]) (by simp [closes]), ih]
    rfl
  | callNone callee isWord opening opens closing closes =>
    rw [substitute, tokens, Token.substitute_callee opens,
      Token.substitute_cons_of_ne (by simp [closes])]
    rfl
  | call callee isWord opening opens args closing closes ih =>
    rw [substitute, tokens, tokens, Token.substitute_callee opens,
      Token.substitute_append_cons args.tokens (by simp [closes]) (by simp [closes]), ih]
    rfl
  | more arg comma isComma rest iharg ihrest =>
    rw [substitute, tokens, tokens,
      Token.substitute_append_cons arg.tokens (by simp [isComma]) (by simp [isComma]), iharg,
      ihrest]

end Derivation

/-! ### Values after a substitution -/

namespace Shape

variable {env : Environment} {name : String} {new : Shape} {v : Binary64}

mutual

/-- Substituting a shape is evaluating with its value stored. -/
theorem eval_substitute (h : new.eval env = .ok v) (s : Shape) :
    (substitute name new s).eval env = s.eval (env.set name v) := by
  cases s with
  | literal text value => rfl
  | var other =>
    by_cases hname : other = name
    · simp [substitute, eval, hname, h]
    · simp [substitute, eval, hname, Environment.lookup?_set_of_ne env hname]
  | call callee args =>
    simp only [substitute, eval, length_substituteAll, evalAll_substituteAll h args]
  | binary op left right =>
    simp only [substitute, eval, eval_substitute h left, eval_substitute h right]

/-- Substituting a shape in arguments is evaluating them with its value stored. -/
theorem evalAll_substituteAll (h : new.eval env = .ok v) (args : List Shape) :
    evalAll env (substituteAll name new args) = evalAll (env.set name v) args := by
  cases args with
  | nil => rfl
  | cons arg rest =>
    simp only [substituteAll, evalAll, eval_substitute h arg, evalAll_substituteAll h rest]

end

end Shape

namespace Statement

/-- What is seen of a run: the value of an expression, or the description of a failure. -/
def outcome : Except EvalError (Environment × Option Binary64) → Except String (Option Binary64)
  | .ok (_, value) => .ok value
  | .error e => .error e.fault.message

/-- What is seen of an expression depends on its shape only. -/
theorem outcome_expression (env : Environment) (e : Expr) :
    outcome ((expression e).execute env) =
      ((e.shape.eval env).mapError EvalFault.message).map some := by
  rw [← e.eval_shape env, execute]
  cases e.eval env <;> rfl

/-- An expression that is read from a line is read from all of its tokens. -/
theorem ofTokens_of_expression {tokens : List Token} {e : Expr}
    (h : ofTokens tokens = .ok (expression e)) : Expr.ofTokens tokens = .ok e := by
  rcases ofTokens_cases h with ⟨e', hread, hsame⟩ | ⟨_, _, _, _, _, _, _, _, hassignment⟩
  · rw [hread, Statement.expression.inj hsame]
  · cases hassignment

/-- Assumes: the tokens of two expressions, the first of which has a value in an environment.
Storing this value in a variable and then evaluating the second expression shows the same as
evaluating the second expression with the tokens of the first, in parentheses, in the places of the
variable. -/
theorem execute_substitute {first second : List Token} {e₁ e₂ : Expr}
    (hfirst : ofTokens first = .ok (expression e₁))
    (hsecond : ofTokens second = .ok (expression e₂))
    {target equals opening closing : Token} (htarget : target.kind = .word)
    (hequals : equals.kind = .equals) (hopening : opening.kind = .openParen)
    (hclosing : closing.kind = .closeParen) {env : Environment} {v : Binary64}
    (hvalue : (expression e₁).execute env = .ok (env, some v)) :
    ∃ e, ofTokens (Token.substitute target.text (opening :: (first ++ [closing])) second) =
        .ok (expression e) ∧
      ∃ assigning env', ofTokens (target :: equals :: first) = .ok assigning ∧
        assigning.execute env = .ok (env', none) ∧
        outcome ((expression e₂).execute env') = outcome ((expression e).execute env) := by
  have hread₁ := ofTokens_of_expression hfirst
  have hread₂ := ofTokens_of_expression hsecond
  obtain ⟨d₁, rfl, htree₁⟩ := Expr.derivation_of_ofTokens hread₁
  obtain ⟨d₂, rfl, htree₂⟩ := Expr.derivation_of_ofTokens hread₂
  have heval : e₁.eval env = .ok v := by
    rw [execute] at hvalue
    obtain ⟨x, hx, hreturn⟩ := bind_eq_ok.mp hvalue
    have hpair := Except.ok.inj hreturn
    simp only [Prod.mk.injEq, Option.some.injEq, true_and] at hpair
    rw [hx, hpair]
  have hshape : e₁.shape.eval env = .ok v := by
    rw [← e₁.eval_shape env, heval]
    rfl
  -- the group that takes the place of the variable
  let new : Derivation (.expression .atom) := .group opening hopening d₁ closing hclosing
  let d := Derivation.substitute target.text new d₂
  have hdtokens : d.tokens =
      Token.substitute target.text (opening :: (d₁.tokens ++ [closing])) d₂.tokens :=
    Derivation.tokens_substitute target.text new d₂
  have hdtree : (d.tree : Shape) = Shape.substitute target.text e₁.shape e₂.shape := by
    rw [← htree₁, ← htree₂]
    exact Derivation.tree_substitute target.text new d₂
  obtain ⟨e, hread, heshape⟩ := Expr.ofTokens_tokens d
  refine ⟨e, ?_, .assignment target.text target.span e₁, env.set target.text v, ?_, ?_, ?_⟩
  · rw [← hdtokens, ofTokens_expression d.kind_ne_equals, hread]
    rfl
  · rw [ofTokens_assignment htarget hequals d₁.tokens_ne_nil, hread₁]
    rfl
  · rw [execute, heval]
    rfl
  · rw [outcome_expression, outcome_expression, heshape, hdtree, Shape.eval_substitute hshape]

/-- The tokens of `y + y`. -/
def twiceTokens : List Token :=
  [.ofChars .word 0 ['y'], .ofChars .plus 1 ['+'], .ofChars .word 2 ['y']]

/-- The tokens of `x * -x`. -/
def squareTokens : List Token :=
  [.ofChars .word 0 ['x'], .ofChars .star 1 ['*'], .ofChars .minus 2 ['-'], .ofChars .word 3 ['x']]

/-- With one stored in `y`, storing `y + y` in `x` and evaluating `x * -x` shows the same as
evaluating `(y + y) * -(y + y)`. -/
theorem execute_substitute_square :
    ∃ e₂ e, ofTokens squareTokens = .ok (expression e₂) ∧
      ofTokens [.ofChars .openParen 0 ['('], .ofChars .word 0 ['y'], .ofChars .plus 1 ['+'],
        .ofChars .word 2 ['y'], .ofChars .closeParen 4 [')'], .ofChars .star 1 ['*'],
        .ofChars .minus 2 ['-'], .ofChars .openParen 0 ['('], .ofChars .word 0 ['y'],
        .ofChars .plus 1 ['+'], .ofChars .word 2 ['y'], .ofChars .closeParen 4 [')']] =
          .ok (expression e) ∧
      ∃ assigning env', ofTokens (.ofChars .word 0 ['x'] :: .ofChars .equals 1 ['='] ::
          twiceTokens) = .ok assigning ∧
        assigning.execute (Environment.empty.set "y" Binary64.one) = .ok (env', none) ∧
        outcome ((expression e₂).execute env') =
          outcome ((expression e).execute (Environment.empty.set "y" Binary64.one)) := by
  have hfirst : ofTokens twiceTokens =
      .ok (expression (.binary .add (.var "y" ⟨0, 1⟩) (.var "y" ⟨2, 3⟩))) := by
    cbv
  have hsecond : ofTokens squareTokens = .ok (expression (.binary .mul (.var "x" ⟨0, 1⟩)
      (.binary .sub (Expr.signZero ⟨2, 3⟩) (.var "x" ⟨3, 4⟩)))) := by
    cbv
  have htarget : (Token.ofChars .word 0 ['x']).kind = .word := rfl
  have hequals : (Token.ofChars .equals 1 ['=']).kind = .equals := rfl
  have hopening : (Token.ofChars .openParen 0 ['(']).kind = .openParen := rfl
  have hclosing : (Token.ofChars .closeParen 4 [')']).kind = .closeParen := rfl
  have hvalue : (expression (.binary .add (.var "y" ⟨0, 1⟩) (.var "y" ⟨2, 3⟩))).execute
      (Environment.empty.set "y" Binary64.one) =
        .ok (Environment.empty.set "y" Binary64.one, some (Binary64.ofInt 2)) := rfl
  obtain ⟨e, hread, hsame⟩ :=
    execute_substitute hfirst hsecond htarget hequals hopening hclosing hvalue
  exact ⟨_, e, hsecond, hread, hsame⟩

end Statement

end Reckoner
