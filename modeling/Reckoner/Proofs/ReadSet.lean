import Reckoner.Proofs.Agreement
import Reckoner.Proofs.ByteOrder
import Reckoner.Proofs.PositionalReading
import Reckoner.Proofs.Substitution

/-!
# The names a statement reads

While a line is read, the name of every token that is read as a variable is gathered. These are the
names of the variables that stand in its value, without the functions it calls and without the
variable it stores to (`Expr.HasVariable`). Among the tokens of the line they are the words that
neither an opening parenthesis nor an equals sign follows (`Token.variableNames`).

Evaluation depends on an environment through these names only. Where two environments agree on
them, both evaluators give the same result, and an assignment makes the same change to either
environment (`Statement.Change`). And each of the names is needed: what has a value has a value for
each of them.

Main statement: `Statement.names_readSet`.
-/

set_option autoImplicit false

namespace Reckoner

/-! ### Names in order -/

/-- A name is inserted beside those that are there. -/
theorem mem_insertName {name other : String} {names : List String} :
    other ∈ insertName name names ↔ other = name ∨ other ∈ names := by
  induction names with
  | nil => simp [insertName]
  | cons first rest ih =>
    simp only [insertName]
    split
    · simp
    · split
      · rename_i heq
        simp [heq]
      · simp only [List.mem_cons, ih]
        exact or_left_comm

/-- Sorting keeps the names. -/
theorem mem_sortNames {name : String} {names : List String} :
    name ∈ sortNames names ↔ name ∈ names := by
  induction names with
  | nil => rfl
  | cons first rest ih => simp [sortNames, mem_insertName, ← ih]

/-- An insertion keeps names strictly increasing. -/
theorem pairwise_insertName {names : List String} (h : names.Pairwise (· < ·)) (name : String) :
    (insertName name names).Pairwise (· < ·) := by
  induction names with
  | nil => simp [insertName]
  | cons first rest ih =>
    obtain ⟨hfirst, hrest⟩ := List.pairwise_cons.mp h
    simp only [insertName]
    split
    · rename_i hlt
      refine List.pairwise_cons.mpr ⟨?_, h⟩
      intro other hother
      rcases List.mem_cons.mp hother with rfl | hother
      · exact hlt
      · exact String.lt_trans hlt (hfirst other hother)
    · rename_i hlt
      split
      · exact h
      · rename_i hne
        refine List.pairwise_cons.mpr ⟨?_, ih hrest⟩
        intro other hother
        rcases mem_insertName.mp hother with rfl | hother
        · exact lt_of_not_lt_of_ne hlt hne
        · exact hfirst other hother

/-- Sorted names strictly increase. -/
theorem pairwise_sortNames (names : List String) : (sortNames names).Pairwise (· < ·) := by
  induction names with
  | nil => exact List.Pairwise.nil
  | cons first rest ih => exact pairwise_insertName ih first

/-- Names that strictly increase are determined by which they are. -/
theorem eq_of_pairwise_lt {names names' : List String} (h : names.Pairwise (· < ·))
    (h' : names'.Pairwise (· < ·)) (hmem : ∀ name, name ∈ names ↔ name ∈ names') :
    names = names' := by
  have hne {a b : String} (hlt : a < b) : a ≠ b := by
    rintro rfl
    exact String.lt_irrefl a hlt
  have hperm : names.Perm names' :=
    (List.perm_ext_iff_of_nodup (h.imp hne) (h'.imp hne)).mpr hmem
  refine hperm.eq_of_pairwise ?_ h h'
  intro a b _ _ hab hba
  exact absurd (String.lt_trans hab hba) (String.lt_irrefl a)

/-- Names are gathered beside those that were. -/
theorem LooseNode.mem_insertAll {name : String} {gathered names : List String} :
    name ∈ insertAll gathered names ↔ name ∈ gathered ∨ name ∈ names := by
  induction names generalizing gathered with
  | nil => simp [insertAll]
  | cons first rest ih =>
    rw [insertAll, List.foldl_cons]
    refine ih.trans ?_
    rw [List.mem_insert_iff, List.mem_cons, or_right_comm, or_comm]

/-- Gathering names one after the other and then sorting them sorts the names. -/
theorem sortNames_insertAll (names : List String) :
    sortNames (LooseNode.insertAll [] names) = sortNames names := by
  refine eq_of_pairwise_lt (pairwise_sortNames _) (pairwise_sortNames _) ?_
  intro name
  simp [mem_sortNames, LooseNode.mem_insertAll]

/-! ### Variables of an expression -/

/-- Whether a variable of a name stands somewhere in an expression. The name of a called function is
not a variable. -/
inductive Expr.HasVariable (name : String) : Expr → Prop where
  | var (span : Span) : HasVariable name (.var name span)
  | argument {callee : String} {calleeSpan span : Span} {args : List Expr} {arg : Expr}
    (mem : arg ∈ args) (inside : HasVariable name arg) :
    HasVariable name (.call callee calleeSpan args span)
  | left {op : Operator} {left right : Expr} (inside : HasVariable name left) :
    HasVariable name (.binary op left right)
  | right {op : Operator} {left right : Expr} (inside : HasVariable name right) :
    HasVariable name (.binary op left right)

namespace Expr

/-- Arguments read what one of them reads. -/
theorem mem_readsAll {name : String} {args : List Expr} :
    name ∈ readsAll args ↔ ∃ arg ∈ args, name ∈ arg.reads := by
  induction args with
  | nil => simp [readsAll]
  | cons arg rest ih => simp [readsAll, ih]

/-- A variable in an expression is read. -/
theorem HasVariable.mem_reads {name : String} {e : Expr} (h : e.HasVariable name) :
    name ∈ e.reads := by
  induction h with
  | var span => simp [reads]
  | argument mem inside ih =>
    rw [reads]
    exact mem_readsAll.mpr ⟨_, mem, ih⟩
  | left inside ih => simp [reads, ih]
  | right inside ih => simp [reads, ih]

mutual

/-- What an expression reads is a variable in it. -/
theorem hasVariable_of_mem_reads {name : String} (e : Expr) (h : name ∈ e.reads) :
    e.HasVariable name := by
  cases e with
  | literal text value span => simp [reads] at h
  | var other span =>
    obtain rfl : name = other := by simpa [reads] using h
    exact .var span
  | call callee calleeSpan args span =>
    obtain ⟨arg, hmem, harg⟩ := hasVariable_of_mem_readsAll args h
    exact .argument hmem harg
  | binary op left right =>
    rw [reads, List.mem_append] at h
    rcases h with h | h
    · exact .left (hasVariable_of_mem_reads left h)
    · exact .right (hasVariable_of_mem_reads right h)

/-- What arguments read is a variable in one of them. -/
theorem hasVariable_of_mem_readsAll {name : String} (args : List Expr)
    (h : name ∈ readsAll args) : ∃ arg ∈ args, arg.HasVariable name := by
  cases args with
  | nil => simp [readsAll] at h
  | cons arg rest =>
    rw [readsAll, List.mem_append] at h
    rcases h with h | h
    · exact ⟨arg, List.mem_cons_self, hasVariable_of_mem_reads arg h⟩
    · obtain ⟨other, hmem, hother⟩ := hasVariable_of_mem_readsAll rest h
      exact ⟨other, List.mem_cons_of_mem _ hmem, hother⟩

end

/-- An expression reads the variables in it. -/
theorem mem_reads_iff {name : String} {e : Expr} : name ∈ e.reads ↔ e.HasVariable name :=
  ⟨hasVariable_of_mem_reads e, HasVariable.mem_reads⟩

end Expr

/-! ### Variables of tokens -/

namespace Token

/-- Whether tokens take a word in front of them as something else than a variable: they start with
an opening parenthesis, which makes it a call, or with an equals sign, which stores to it. -/
def takesWord : List Token → Bool
  | [] => false
  | t :: _ => decide (t.kind = .openParen ∨ t.kind = .equals)

/-- The texts of the words that are variables, from left to right. -/
def variableNames : List Token → List String
  | [] => []
  | t :: rest =>
    if t.kind = .word ∧ takesWord rest = false then t.text :: variableNames rest
    else variableNames rest

/-- A token that is no word is no variable. -/
theorem variableNames_cons_of_ne {t : Token} (h : t.kind ≠ .word) (rest : List Token) :
    variableNames (t :: rest) = variableNames rest := by
  simp [variableNames, h]

/-- A word that is called or stored to is no variable, nor is the token behind it. -/
theorem variableNames_taken {next : Token} (h : next.kind = .openParen ∨ next.kind = .equals)
    (t : Token) (rest : List Token) : variableNames (t :: next :: rest) = variableNames rest := by
  have hword : next.kind ≠ .word := by
    rcases h with h | h <;> simp [h]
  simp [variableNames, takesWord, h, hword]

/-- Tokens that take no word have variables of their own. -/
theorem variableNames_append (front : List Token) {back : List Token} (h : takesWord back = false) :
    variableNames (front ++ back) = variableNames front ++ variableNames back := by
  induction front with
  | nil => rfl
  | cons t front ih =>
    have hnext : takesWord (front ++ back) = takesWord front := by
      cases front with
      | nil => exact h
      | cons next further => rfl
    rw [List.cons_append, variableNames, variableNames, hnext, ih]
    split <;> simp

/-- Behind tokens stands a token that is no variable and takes no word. -/
theorem variableNames_append_cons (front : List Token) {t : Token} (hword : t.kind ≠ .word)
    (htakes : takesWord [t] = false) (back : List Token) :
    variableNames (front ++ t :: back) = variableNames front ++ variableNames back := by
  have hback : takesWord (t :: back) = false := htakes
  rw [variableNames_append front hback, variableNames_cons_of_ne hword]

end Token

namespace Expr

/-- The names that are read by what is read from a category. -/
def readsOf : (c : Category) → c.Reading → List String
  | .expression _, e => reads e
  | .arguments, args => readsAll args

/-- An expression reads the variables among its tokens. -/
theorem readsOf_reading {c : Category} (d : Derivation c) :
    readsOf c d.reading = Token.variableNames d.tokens := by
  induction d with
  | start first ih | unsigned operand ih => exact ih
  | step front token op stands joins back ihfront ihback =>
    have hword : token.kind ≠ .word := fun h ↦ by simp [h, TokenKind.operator?] at stands
    have htakes : Token.takesWord [token] = false := by
      cases hkind : token.kind <;> simp_all [TokenKind.operator?, Token.takesWord]
    rw [Derivation.tokens, Token.variableNames_append_cons front.tokens hword htakes, ← ihfront,
      ← ihback]
    rfl
  | plus token isSign operand ih =>
    rw [Derivation.tokens, Token.variableNames_cons_of_ne (by simp [isSign]), ← ih]
    rfl
  | minus token isSign operand ih =>
    rw [Derivation.tokens, Token.variableNames_cons_of_ne (by simp [isSign]), ← ih]
    rfl
  | number token isNumber value reads =>
    rw [Derivation.tokens, Token.variableNames_cons_of_ne (by simp [isNumber])]
    rfl
  | word token isWord =>
    rw [Derivation.tokens, Token.variableNames, if_pos ⟨isWord, rfl⟩]
    rfl
  | group opening opens inner closing closes ih =>
    rw [Derivation.tokens, Token.variableNames_cons_of_ne (by simp [opens]),
      Token.variableNames_append_cons inner.tokens (by simp [closes])
        (by simp [Token.takesWord, closes]), ← ih]
    exact (List.append_nil _).symm
  | callNone callee isWord opening opens closing closes =>
    rw [Derivation.tokens, Token.variableNames_taken (Or.inl opens),
      Token.variableNames_cons_of_ne (by simp [closes])]
    rfl
  | call callee isWord opening opens args closing closes ih =>
    rw [Derivation.tokens, Token.variableNames_taken (Or.inl opens),
      Token.variableNames_append_cons args.tokens (by simp [closes])
        (by simp [Token.takesWord, closes]), ← ih]
    exact (List.append_nil _).symm
  | last arg ih =>
    rw [Derivation.tokens, ← ih]
    exact List.append_nil _
  | more arg comma isComma rest iharg ihrest =>
    rw [Derivation.tokens, Token.variableNames_append_cons arg.tokens (by simp [isComma])
      (by simp [Token.takesWord, isComma]), ← iharg, ← ihrest]
    rfl

/-- Tokens are read as an expression that reads the variables among them. -/
theorem reads_of_ofTokens {tokens : List Token} {e : Expr} (h : ofTokens tokens = .ok e) :
    e.reads = Token.variableNames tokens := by
  obtain ⟨d, rfl, -⟩ := derivation_of_ofTokens h
  rw [ofTokens_reading] at h
  rw [← Except.ok.inj h]
  exact readsOf_reading d

end Expr

/-! ### Evaluation in environments that agree -/

namespace Environment

/-- Whether two environments give the same to each of some names: the same value, or none. -/
def AgreeOn (names : List String) (env env' : Environment) : Prop :=
  ∀ name ∈ names, env.lookup? name = env'.lookup? name

variable {names names' : List String} {env env' : Environment}

/-- Agreement on names is agreement on each part of them. -/
theorem agreeOn_append :
    AgreeOn (names ++ names') env env' ↔ AgreeOn names env env' ∧ AgreeOn names' env env' := by
  simp only [AgreeOn, List.mem_append, or_imp, forall_and]

end Environment

namespace Expr

open Environment (AgreeOn agreeOn_append)

variable {lib : Library} {env env' : Environment} {f : Format}

mutual

/-- An expression has the same value, or the same failure, wherever its names have the same
values. -/
theorem eval_congr (e : Expr) (h : AgreeOn e.reads env env') : e.eval env = e.eval env' := by
  cases e with
  | literal text value span => rfl
  | var name span =>
    have hname := h name (by simp [reads])
    rw [eval, eval, hname]
  | call callee calleeSpan args span =>
    rw [eval, eval, evalAll_congr args h]
  | binary op left right =>
    obtain ⟨hleft, hright⟩ := agreeOn_append.mp h
    rw [eval, eval, eval_congr left hleft, eval_congr right hright]

/-- Arguments have the same values wherever their names have. -/
theorem evalAll_congr (args : List Expr) (h : AgreeOn (readsAll args) env env') :
    evalAll env args = evalAll env' args := by
  cases args with
  | nil => rfl
  | cons arg rest =>
    obtain ⟨harg, hrest⟩ := agreeOn_append.mp h
    rw [evalAll, evalAll, eval_congr arg harg, evalAll_congr rest hrest]

end

mutual

/-- Wide evaluation changes whatever slots it starts from in the same way wherever the names of the
expression have the same values. -/
theorem evalPrecise_congr (e : Expr) (h : AgreeOn e.reads env env') :
    e.evalPrecise lib f env = e.evalPrecise lib f env' := by
  funext slots
  cases e with
  | literal text value span => rfl
  | var name span =>
    have hname := h name (by simp [reads])
    rw [evalPrecise, evalPrecise, Wide.variableValue, Wide.variableValue, hname]
  | call callee calleeSpan args span =>
    rw [evalPrecise, evalPrecise, evalPreciseAll_congr args h]
  | binary op left right =>
    obtain ⟨hleft, hright⟩ := agreeOn_append.mp h
    rw [evalPrecise, evalPrecise, evalPrecise_congr left hleft, evalPrecise_congr right hright]

/-- Wide evaluation of arguments changes the slots in the same way. -/
theorem evalPreciseAll_congr (args : List Expr) (h : AgreeOn (readsAll args) env env') :
    evalPreciseAll lib f env args = evalPreciseAll lib f env' args := by
  funext slots
  cases args with
  | nil => rfl
  | cons arg rest =>
    obtain ⟨harg, hrest⟩ := agreeOn_append.mp h
    rw [evalPreciseAll, evalPreciseAll, evalPrecise_congr arg harg, evalPreciseAll_congr rest hrest]

end

/-- The wide value is the same wherever the names of the expression have the same values. -/
theorem preciseValue_congr {e : Expr} (h : AgreeOn e.reads env env') :
    e.preciseValue lib f env = e.preciseValue lib f env' := by
  rw [preciseValue, preciseValue, evalPrecise_congr e h]

mutual

/-- What has a value reads names that have values. -/
theorem isSome_of_eval (e : Expr) {x : Binary64} (h : e.eval env = .ok x) :
    ∀ name ∈ e.reads, (env.lookup? name).isSome := by
  cases e with
  | literal text value span => simp [reads]
  | var other span =>
    intro name hname
    obtain rfl : name = other := by simpa [reads] using hname
    rw [eval] at h
    cases hlookup : env.lookup? name with
    | none => simp [hlookup] at h
    | some value => rfl
  | call callee calleeSpan args span =>
    obtain ⟨function, -, h⟩ := bind_eq_ok.mp h
    obtain ⟨values, hvalues, -⟩ := bind_eq_ok.mp h
    exact isSome_of_evalAll args hvalues
  | binary op left right =>
    obtain ⟨x, hleft, h⟩ := bind_eq_ok.mp h
    obtain ⟨y, hright, -⟩ := bind_eq_ok.mp h
    intro name hname
    rw [reads, List.mem_append] at hname
    rcases hname with hname | hname
    · exact isSome_of_eval left hleft name hname
    · exact isSome_of_eval right hright name hname

/-- Arguments that have values read names that have values. -/
theorem isSome_of_evalAll (args : List Expr) {xs : List Binary64}
    (h : evalAll env args = .ok xs) : ∀ name ∈ readsAll args, (env.lookup? name).isSome := by
  cases args with
  | nil => simp [readsAll]
  | cons arg rest =>
    obtain ⟨x, harg, h⟩ := bind_eq_ok.mp h
    obtain ⟨xs, hrest, -⟩ := bind_eq_ok.mp h
    intro name hname
    rw [readsAll, List.mem_append] at hname
    rcases hname with hname | hname
    · exact isSome_of_eval arg harg name hname
    · exact isSome_of_evalAll rest hrest name hname

end

end Expr

/-! ### Statements -/

namespace Statement

open Environment (AgreeOn)

/-- What a statement does when it succeeds, whatever the environment: it shows a value and stores
nothing, or it stores a value and shows nothing. -/
inductive Change (α : Type) where
  | shows (value : α)
  | stores (target : String) (value : Binary64)

/-- The environment after a change, and the value it shows. -/
def Change.on {α : Type} (env : Environment) : Change α → Environment × Option α
  | shows value => (env, some value)
  | stores target value => (env.set target value, none)

/-- The change that a statement makes with the value of its expression, of which an assignment
stores what `kept` gives. -/
def change {α : Type} (s : Statement) (kept : α → Binary64) (x : α) : Change α :=
  match s.target? with
  | none => .shows x
  | some target => .stores target (kept x)

/-- Executing a statement makes its change with its value in 64 bits. -/
theorem execute_eq_change (env : Environment) (s : Statement) :
    s.execute env = (s.value.eval env).map fun x ↦ (s.change id x).on env := by
  cases s with
  | expression value =>
    rw [execute, Statement.value]
    cases value.eval env <;> rfl
  | assignment target _ value =>
    rw [execute, Statement.value]
    cases value.eval env <;> rfl

/-- Executing a statement wide makes its change with its wide value. -/
theorem executePrecise_eq_change (lib : Library) (env : Environment) (bits : Nat)
    (s : Statement) :
    s.executePrecise lib env bits = (s.value.preciseValue lib (Format.wide bits) env).map fun x ↦
      (s.change Binary64.ofNumber x).on env := by
  cases s with
  | expression value =>
    rw [executePrecise, Statement.value]
    cases value.preciseValue lib (Format.wide bits) env <;> rfl
  | assignment target _ value =>
    rw [executePrecise, Statement.value]
    cases value.preciseValue lib (Format.wide bits) env <;> rfl

/-- Whether executing a statement in two environments makes one change to both of them, or fails in
both in one way. -/
def SameEffect {α : Type} (run : Environment → Except EvalError (Environment × Option α))
    (env env' : Environment) : Prop :=
  ∃ result : Except EvalError (Change α),
    run env = result.map (·.on env) ∧ run env' = result.map (·.on env')

/-- The names of a statement are read by its value. -/
theorem mem_names {s : Statement} {name : String} : name ∈ s.names ↔ name ∈ s.value.reads :=
  mem_sortNames

/-- The names of a statement strictly increase in the order of their bytes. -/
theorem pairwise_encode_names (s : Statement) :
    (s.names.map Text.encode).Pairwise (· < ·) :=
  (pairwise_sortNames s.value.reads).map Text.encode fun _ _ ↦ Text.encode_lt_encode

/-- A line is read as a statement that reads the variables among its tokens. -/
theorem reads_of_ofTokens {tokens : List Token} {s : Statement} (h : ofTokens tokens = .ok s) :
    s.value.reads = Token.variableNames tokens := by
  rcases ofTokens_cases h with
    ⟨e, hread, rfl⟩ | ⟨target, equals, value, e, rfl, -, hequals, hread, rfl⟩
  · exact Expr.reads_of_ofTokens hread
  · rw [Token.variableNames_taken (Or.inr hequals)]
    exact Expr.reads_of_ofTokens hread

/-- Runs that make one change with one value have the same effect. -/
theorem sameEffect_of_change {α : Type}
    {run : Environment → Except EvalError (Environment × Option α)} {make : α → Change α}
    {value : Except EvalError α} {env env' : Environment}
    (h : run env = value.map fun x ↦ (make x).on env)
    (h' : run env' = value.map fun x ↦ (make x).on env') : SameEffect run env env' := by
  refine ⟨value.map make, ?_, ?_⟩
  · rw [h]
    cases value <;> rfl
  · rw [h']
    cases value <;> rfl

/-- Executing a statement has the same effect in environments that agree on its names. -/
theorem sameEffect_execute {s : Statement} {env env' : Environment}
    (h : AgreeOn s.value.reads env env') : SameEffect s.execute env env' := by
  refine sameEffect_of_change (s.execute_eq_change env) ?_
  rw [s.value.eval_congr h]
  exact s.execute_eq_change env'

/-- Executing a statement wide has the same effect in environments that agree on its names. -/
theorem sameEffect_executePrecise {s : Statement} {env env' : Environment} (lib : Library)
    (bits : Nat) (h : AgreeOn s.value.reads env env') :
    SameEffect (s.executePrecise lib · bits) env env' := by
  refine sameEffect_of_change (s.executePrecise_eq_change lib env bits) ?_
  rw [Expr.preciseValue_congr h]
  exact s.executePrecise_eq_change lib env' bits

/-- A statement that succeeds reads names that have values. -/
theorem isSome_of_execute {s : Statement} {env : Environment}
    {done : Environment × Option Binary64} (h : s.execute env = .ok done) :
    ∀ name ∈ s.value.reads, (env.lookup? name).isSome := by
  rw [execute_eq_change] at h
  cases heval : s.value.eval env with
  | error e => simp [heval, Except.map] at h
  | ok x => exact s.value.isSome_of_eval heval

/-- What is gathered while a line is read are the names of its statement. -/
theorem eq_of_ofTokens {tokens : List Token} {n : LooseNode} {names : List String}
    (h : LooseNode.ofTokens tokens = .ok (n, names)) :
    ∃ s, ofTokens tokens = .ok s ∧ n = s.toNode ∧ names = s.names := by
  rw [LooseNode.ofTokens_eq] at h
  cases hread : ofTokens tokens with
  | error e =>
    rw [hread] at h
    cases h
  | ok s =>
    rw [hread] at h
    cases h
    exact ⟨s, rfl, rfl, sortNames_insertAll _⟩

/-- Assumes: tokens that are read as a tree, with names gathered on the way. It is the tree of a
statement, whose names these are. They strictly increase in the order of their bytes; they are the
names of the variables in its value, and the texts of the words among the tokens that are neither
called nor stored to. In any two environments that agree on them, executing the statement has the
same effect, in 64 bits and wide with every library and at every precision. And where either
execution succeeds, every one of the names has a value. -/
theorem names_readSet {tokens : List Token} {n : LooseNode} {names : List String}
    (h : LooseNode.ofTokens tokens = .ok (n, names)) :
    ∃ s, ofTokens tokens = .ok s ∧ n = s.toNode ∧ names = s.names ∧
      (names.map Text.encode).Pairwise (· < ·) ∧
      (∀ name, name ∈ names ↔ s.value.HasVariable name) ∧
      (∀ name, name ∈ names ↔ name ∈ Token.variableNames tokens) ∧
      (∀ env env', AgreeOn names env env' →
        SameEffect s.execute env env' ∧
          ∀ lib bits, SameEffect (s.executePrecise lib · bits) env env') ∧
      (∀ env done, s.execute env = .ok done → ∀ name ∈ names, (env.lookup? name).isSome) ∧
      ∀ lib env bits done, s.executePrecise lib env bits = .ok done →
        ∀ name ∈ names, (env.lookup? name).isSome := by
  obtain ⟨s, hread, hnode, rfl⟩ := eq_of_ofTokens h
  refine ⟨s, hread, hnode, rfl, s.pairwise_encode_names,
    fun name ↦ mem_names.trans Expr.mem_reads_iff, ?_, ?_, ?_, ?_⟩
  · intro name
    rw [mem_names, reads_of_ofTokens hread]
  · intro env env' hagree
    have hreads : AgreeOn s.value.reads env env' := fun name hname ↦
      hagree name (mem_names.mpr hname)
    exact ⟨sameEffect_execute hreads, fun lib bits ↦ sameEffect_executePrecise lib bits hreads⟩
  · intro env done hdone name hname
    exact isSome_of_execute hdone name (mem_names.mp hname)
  · intro lib env bits done hdone name hname
    -- what succeeds wide succeeds in 64 bits
    obtain ⟨plain, hplain⟩ := (executePrecise_follows lib env bits s).exists_ok hdone
    exact isSome_of_execute hplain name (mem_names.mp hname)

/-- The tokens of `x = x + abs(b) * a`. -/
def accumulateTokens : List Token :=
  [.ofChars .word 0 ['x'], .ofChars .equals 2 ['='], .ofChars .word 4 ['x'],
    .ofChars .plus 6 ['+'], .ofChars .word 8 ['a', 'b', 's'], .ofChars .openParen 11 ['('],
    .ofChars .word 12 ['b'], .ofChars .closeParen 13 [')'], .ofChars .star 15 ['*'],
    .ofChars .word 17 ['a']]

/-- The assignment `x = x + abs(b) * a`. -/
def accumulate : Statement :=
  .assignment "x" ⟨0, 1⟩ (.binary .add (.var "x" ⟨4, 5⟩)
    (.binary .mul (.call "abs" ⟨8, 11⟩ [.var "b" ⟨12, 13⟩] ⟨8, 14⟩) (.var "a" ⟨17, 18⟩)))

/-- An environment with values for `a`, `b` and `x`. -/
def threeOnes : Environment :=
  ((Environment.empty.set "a" Binary64.one).set "b" Binary64.one).set "x" Binary64.one

/-- Reading the assignment `x = x + abs(b) * a` gathers `a`, `b` and `x`, and it has the same effect
whether or not there is a variable `abs`. -/
theorem names_readSet_accumulate :
    LooseNode.ofTokens accumulateTokens = .ok (accumulate.toNode, ["a", "b", "x"]) ∧
      ¬ accumulate.value.HasVariable "abs" ∧
      "abs" ∉ Token.variableNames accumulateTokens ∧
      SameEffect accumulate.execute threeOnes (threeOnes.set "abs" .nan) ∧
      SameEffect (accumulate.executePrecise Library.standard · 80) threeOnes
        (threeOnes.set "abs" .nan) := by
  have hread : ofTokens accumulateTokens = .ok accumulate := by cbv
  have hgathered : LooseNode.ofTokens accumulateTokens =
      .ok (accumulate.toNode, ["a", "b", "x"]) := by
    rw [LooseNode.ofTokens_eq, hread]
    rfl
  obtain ⟨s, hs, -, -, -, hvariables, hwords, hsame, -, -⟩ := names_readSet hgathered
  obtain rfl := Except.ok.inj (hread.symm.trans hs)
  have habs : "abs" ∉ ["a", "b", "x"] := by decide
  have hagree : AgreeOn ["a", "b", "x"] threeOnes (threeOnes.set "abs" .nan) := by
    intro name hname
    have hne : name ≠ "abs" := fun h ↦ habs (h ▸ hname)
    exact (Environment.lookup?_set_of_ne threeOnes hne .nan).symm
  obtain ⟨hplain, hwide⟩ := hsame _ _ hagree
  exact ⟨hgathered, fun h ↦ habs ((hvariables _).mpr h), fun h ↦ habs ((hwords _).mpr h), hplain,
    hwide Library.standard 80⟩

end Statement

end Reckoner
