import Reckoner.Proofs.FreshEvaluation

/-!
# Trees of loose nodes

A loose node has a kind and a place for everything that a node of any kind may need: a number, a
text, two operands and arguments. Nothing in its type says which of them belong to its kind, or that
an operand is there. So what is done with loose nodes may come to a breach, a point without a way to
go on: an operand that is missing, an assignment below the root, a kind without a sign.

`LooseNode.IsStatement` says which trees are those of statements. Every statement has a tree of
loose nodes, which is such a tree (`Statement.isStatement_toNode`), and on it rendering and both
ways of evaluation do what they do on the statement itself, without a breach
(`Statement.render_toNode`, `Statement.execute_toNode`, `Statement.executePrecise_toNode`).
-/

set_option autoImplicit false

namespace Reckoner

/-- What a loose node is. -/
inductive NodeKind where
  | none
  | number
  | name
  | call
  | add
  | sub
  | mul
  | div
  | pow
  | assign
  deriving DecidableEq, Repr

/-- A node whose parts are not tied to its kind. -/
inductive LooseNode where
  | missing
  /-- A node with its span, the number and the text of a leaf, its operands and its arguments. -/
  | node (kind : NodeKind) (span : Span) (number : Binary64) (text : String)
    (left right : LooseNode) (args : List LooseNode)

/-- A point at which there is no way to go on. -/
inductive Breach where
  | noTokens
  | noPosition (position : Nat)
  | noPart (start stop : Nat)
  | tooDeep
  | noPrecedence (kind : NodeKind)
  | missingNode
  | invalidNode (kind : NodeKind)
  | nestedAssignment
  | noSymbol (kind : NodeKind)
  | noArithmetic (kind : NodeKind)
  /-- The slots in use are not those that were to be filled. -/
  | looseSlots
  deriving DecidableEq, Repr

/-- Why a computation has no result: a breach, or a fault that it finds in its input. -/
inductive Stop (ε : Type) where
  | breach (b : Breach)
  | fault (e : ε)

/-- What follows a value goes on from it. -/
@[simp] theorem ok_bind {ε α β : Type} (x : α) (next : α → Except ε β) :
    ((.ok x : Except ε α) >>= next) = next x :=
  rfl

/-- Nothing follows a failure. -/
@[simp] theorem error_bind {ε α β : Type} (e : ε) (next : α → Except ε β) :
    ((.error e : Except ε α) >>= next) = .error e :=
  rfl

namespace Stop

variable {ε α β : Type}

/-- A result without a breach. -/
def free (result : Except ε α) : Except (Stop ε) α :=
  result.mapError fault

/-- A step that leads to no breach after a value goes on free of breaches. -/
theorem bind_free {result : Except ε α} {next : α → Except ε β} {next' : α → Except (Stop ε) β}
    (h : ∀ x, result = .ok x → next' x = free (next x)) :
    (free result >>= next') = free (result >>= next) := by
  cases result with
  | ok x => exact h x rfl
  | error e => rfl

end Stop

/-! ### Kinds -/

/-- The kind of an operation's node. -/
def Operator.kind : Operator → NodeKind
  | add => .add
  | sub => .sub
  | mul => .mul
  | div => .div
  | pow => .pow

namespace NodeKind

/-- How tightly a kind of node binds its operands. -/
def precedence : NodeKind → Except (Stop ParseError) Nat
  | add | sub => .ok 0
  | mul | div => .ok 1
  | pow => .ok 2
  | kind => .error (.breach (.noPrecedence kind))

/-- The sign of a kind of node. -/
def symbol : NodeKind → Except Breach String
  | add => .ok "+"
  | sub => .ok "-"
  | mul => .ok "*"
  | div => .ok "/"
  | pow => .ok "^"
  | kind => .error (.noSymbol kind)

/-- What a kind of node computes. -/
def arithmetic : NodeKind → Except (Stop EvalError) Operator
  | add => .ok .add
  | sub => .ok .sub
  | mul => .ok .mul
  | div => .ok .div
  | pow => .ok .pow
  | kind => .error (.breach (.noArithmetic kind))

end NodeKind

namespace Operator

/-- An operator's kind binds as the operator does. -/
@[simp] theorem precedence_kind (op : Operator) : op.kind.precedence = .ok op.precedence := by
  cases op <;> rfl

end Operator

namespace LooseNode

/-! ### Trees of statements -/

/-- A node without operands and arguments. -/
def leaf (kind : NodeKind) (span : Span) (number : Binary64) (text : String) : LooseNode :=
  node kind span number text missing missing []

/-- A node with two operands. -/
def pair (kind : NodeKind) (span : Span) (left right : LooseNode) : LooseNode :=
  node kind span Binary64.zero "" left right []

/-- The node of a call. -/
def application (span : Span) (callee : LooseNode) (args : List LooseNode) : LooseNode :=
  node .call span Binary64.zero "" callee missing args

/-- Whether a node is a name, with nothing below it. -/
def isName : LooseNode → Bool
  | node .name _ _ _ missing missing [] => true
  | _ => false

mutual

/-- The tree of an expression: numbers and names have nothing below them, every operation has both
operands, what is called is a name, and there is no assignment. -/
def IsExpression : LooseNode → Prop
  | missing => False
  | node kind _ _ _ left right args =>
    match kind with
    | .number | .name => left = missing ∧ right = missing ∧ args = []
    | .call => left.isName ∧ right = missing ∧ AreExpressions args
    | .add | .sub | .mul | .div | .pow => left.IsExpression ∧ right.IsExpression ∧ args = []
    | .assign | .none => False

/-- The trees of arguments. -/
def AreExpressions : List LooseNode → Prop
  | [] => True
  | arg :: rest => arg.IsExpression ∧ AreExpressions rest

end

/-- The tree of a statement: an expression's, or an assignment of an expression to a name. -/
def IsStatement : LooseNode → Prop
  | node .assign _ _ _ left right args => left.isName ∧ right.IsExpression ∧ args = []
  | n => n.IsExpression

/-! ### Rendering -/

/-- The text of a node that has to be there. -/
def textOf : LooseNode → Except Breach String
  | missing => .error .missingNode
  | node _ _ _ text _ _ _ => .ok text

mutual

/-- The canonical form of a tree. -/
def render : LooseNode → Except Breach String
  | missing => .error .missingNode
  | node kind _ number text left right args =>
    match kind with
    | .number => .ok number.text
    | .name => .ok ("v:" ++ text)
    | .call => do
      let shown ← renderAll args
      let callee ← left.textOf
      return "( " ++ shown ++ ">| " ++ callee ++ " )"
    | .add | .sub | .mul | .div | .pow => do
      let first ← left.render
      let second ← right.render
      let sign ← kind.symbol
      return "( " ++ first ++ " " ++ second ++ " " ++ sign ++ " )"
    | .assign => do
      let target ← left.textOf
      let value ← right.render
      return "SET " ++ target ++ " = " ++ value
    | .none => .error (.invalidNode kind)

/-- The canonical forms of arguments, each followed by a space. -/
def renderAll : List LooseNode → Except Breach String
  | [] => .ok ""
  | arg :: rest => do
    let shown ← arg.render
    let further ← renderAll rest
    return shown ++ " " ++ further

end

/-! ### Evaluation -/

/-- The function that a call's left node names. -/
def callee (count : Nat) (span : Span) : LooseNode → Except (Stop EvalError) Function
  | missing => .error (.breach .missingNode)
  | node _ calleeSpan _ name _ _ _ => Stop.free (Function.resolve name calleeSpan count span)

mutual

/-- The value of a tree. -/
def eval (env : Environment) : LooseNode → Except (Stop EvalError) Binary64
  | missing => .error (.breach .missingNode)
  | node kind span number text left right args =>
    match kind with
    | .number => .ok number
    | .name =>
      match env.lookup? text with
      | some value => .ok value
      | none => .error (.fault ⟨span, .undefinedVariable text⟩)
    | .call => do
      let function ← left.callee args.length span
      let values ← evalAll env args
      return function.apply values
    | .add | .sub | .mul | .div | .pow => do
      let x ← left.eval env
      let y ← right.eval env
      let op ← kind.arithmetic
      return op.apply x y
    | .assign => .error (.breach .nestedAssignment)
    | .none => .error (.breach (.invalidNode kind))

/-- The values of arguments. -/
def evalAll (env : Environment) : List LooseNode → Except (Stop EvalError) (List Binary64)
  | [] => .ok []
  | arg :: rest => do
    let value ← arg.eval env
    let values ← evalAll env rest
    return value :: values

end

mutual

/-- The slots after a tree has been evaluated into one more slot. The arguments of a call are in the
slots above the one that was taken for its result. -/
def evalPrecise (lib : Library) (f : Format) (env : Environment) :
    LooseNode → Slots Number → Except (Stop EvalError) (Slots Number)
  | missing, _ => .error (.breach .missingNode)
  | node kind span number text left right args, slots =>
    match kind with
    | .number => do
      let x ← Stop.free (Wide.literal f text number span)
      return slots.put x
    | .name => do
      let x ← Stop.free (Wide.variableValue f env text span)
      return slots.put x
    | .call => do
      let function ← left.callee args.length span
      let slots := slots.take Number.zero
      let filled ← evalPreciseAll lib f env args slots
      if filled.live.length < slots.live.length then .error (.breach .looseSlots)
      else do
        let count := filled.live.length - slots.live.length
        let effect ← Stop.free (Wide.callEffect lib f span function (filled.lastTaken count))
        return (filled.releaseMany count).modifyTop effect.apply
    | .add | .sub | .mul | .div | .pow => do
      let slots ← left.evalPrecise lib f env slots
      let slots ← right.evalPrecise lib f env slots
      match slots.live with
      | y :: x :: _ => do
        let op ← kind.arithmetic
        let result ← Stop.free (Wide.arithmetic lib f span op x y)
        return slots.release.setTop result
      | _ => .error (.breach .looseSlots)
    | .assign => .error (.breach .nestedAssignment)
    | .none => .error (.breach (.invalidNode kind))

/-- The slots after arguments have been evaluated. -/
def evalPreciseAll (lib : Library) (f : Format) (env : Environment) :
    List LooseNode → Slots Number → Except (Stop EvalError) (Slots Number)
  | [], slots => .ok slots
  | arg :: rest, slots => do
    let slots ← arg.evalPrecise lib f env slots
    evalPreciseAll lib f env rest slots

end

/-- The wide value of a tree: the number in the only slot in use. -/
def preciseValue (lib : Library) (f : Format) (env : Environment) (n : LooseNode) :
    Except (Stop EvalError) Number := do
  let slots ← n.evalPrecise lib f env Slots.empty
  match slots.live with
  | [x] => return x
  | _ => .error (.breach .looseSlots)

/-- The environment after a tree is executed, and the value it shows, by a way to compute values and
a way to store them. -/
def executeWith {α : Type} (valueOf : LooseNode → Except (Stop EvalError) α) (stored : α → Binary64)
    (env : Environment) : LooseNode → Except (Stop EvalError) (Environment × Option α)
  | node .assign _ _ _ left right _ => do
    let value ← valueOf right
    match left with
    | missing => .error (.breach .missingNode)
    | node _ _ _ target _ _ _ => return (env.set target (stored value), none)
  | n => do
    let value ← valueOf n
    return (env, some value)

/-- The environment after a tree is executed in 64 bits, and the value it shows. -/
def execute (env : Environment) :
    LooseNode → Except (Stop EvalError) (Environment × Option Binary64) :=
  executeWith (eval env) id env

/-- The environment after a tree is executed at a number of bits, and the wide value it shows. -/
def executePrecise (lib : Library) (env : Environment) (bits : Nat) :
    LooseNode → Except (Stop EvalError) (Environment × Option Number) :=
  executeWith (preciseValue lib (Format.wide bits) env) Binary64.ofNumber env

/-! ### Operations -/

/-- An operation renders its operands and its sign. -/
theorem render_pair (op : Operator) (span : Span) (left right : LooseNode) :
    (pair op.kind span left right).render = do
      let first ← left.render
      let second ← right.render
      return "( " ++ first ++ " " ++ second ++ " " ++ op.symbol ++ " )" := by
  cases op <;> rfl

/-- An operation is applied to the values of its operands. -/
theorem eval_pair (env : Environment) (op : Operator) (span : Span) (left right : LooseNode) :
    (pair op.kind span left right).eval env = do
      let x ← left.eval env
      let y ← right.eval env
      return op.apply x y := by
  cases op <;> rfl

/-- A wide operation is applied to the numbers in the two last slots. -/
theorem evalPrecise_pair (lib : Library) (f : Format) (env : Environment) (op : Operator)
    (span : Span) (left right : LooseNode) (slots : Slots Number) :
    (pair op.kind span left right).evalPrecise lib f env slots = (do
      let slots ← left.evalPrecise lib f env slots
      let slots ← right.evalPrecise lib f env slots
      match slots.live with
      | y :: x :: _ => do
        let result ← Stop.free (Wide.arithmetic lib f span op x y)
        return slots.release.setTop result
      | _ => .error (.breach .looseSlots)) := by
  cases op <;> rfl

end LooseNode

/-! ### The tree of a statement -/

namespace Expr

mutual

/-- The tree of an expression. -/
def toNode : Expr → LooseNode
  | literal text value span => .leaf .number span value text
  | var name span => .leaf .name span Binary64.zero name
  | call callee calleeSpan args span =>
    .application span (.leaf .name calleeSpan Binary64.zero callee) (toNodes args)
  | binary op left right => .pair op.kind (left.span.union right.span) left.toNode right.toNode

/-- The trees of arguments. -/
def toNodes : List Expr → List LooseNode
  | [] => []
  | arg :: rest => arg.toNode :: toNodes rest

end

/-- There is a tree for each argument. -/
@[simp] theorem length_toNodes (args : List Expr) : (toNodes args).length = args.length := by
  induction args with
  | nil => rfl
  | cons arg rest ih => simp [toNodes, ih]

mutual

/-- The tree of an expression is one. -/
theorem isExpression_toNode (e : Expr) : e.toNode.IsExpression := by
  cases e with
  | literal text value span => exact ⟨rfl, rfl, rfl⟩
  | var name span => exact ⟨rfl, rfl, rfl⟩
  | call callee calleeSpan args span => exact ⟨rfl, rfl, areExpressions_toNodes args⟩
  | binary op left right =>
    have hleft := left.isExpression_toNode
    have hright := right.isExpression_toNode
    cases op <;> exact ⟨hleft, hright, rfl⟩

/-- The trees of arguments are those of expressions. -/
theorem areExpressions_toNodes (args : List Expr) : LooseNode.AreExpressions (toNodes args) := by
  cases args with
  | nil => trivial
  | cons arg rest => exact ⟨arg.isExpression_toNode, areExpressions_toNodes rest⟩

end

mutual

/-- The tree of an expression renders as the expression. -/
theorem render_toNode (e : Expr) : e.toNode.render = .ok e.render := by
  cases e with
  | literal text value span => rfl
  | var name span => rfl
  | call callee calleeSpan args span =>
    rw [toNode, LooseNode.application, LooseNode.render, renderAll_toNodes args]
    rfl
  | binary op left right =>
    rw [toNode, LooseNode.render_pair, left.render_toNode, right.render_toNode]
    rfl

/-- The trees of arguments render as the arguments. -/
theorem renderAll_toNodes (args : List Expr) :
    LooseNode.renderAll (toNodes args) = .ok (renderAll args) := by
  cases args with
  | nil => rfl
  | cons arg rest =>
    rw [toNodes, LooseNode.renderAll, arg.render_toNode, renderAll_toNodes rest]
    rfl

end

mutual

/-- The tree of an expression has the value of the expression. -/
theorem eval_toNode (env : Environment) (e : Expr) :
    e.toNode.eval env = Stop.free (e.eval env) := by
  cases e with
  | literal text value span => rfl
  | var name span =>
    simp only [toNode, LooseNode.leaf, LooseNode.eval, eval]
    cases env.lookup? name <;> rfl
  | call callee calleeSpan args span =>
    rw [toNode, LooseNode.application, LooseNode.leaf, LooseNode.eval, LooseNode.callee,
      length_toNodes, evalAll_toNodes env args, eval]
    exact Stop.bind_free fun function _ ↦ Stop.bind_free fun values _ ↦ rfl
  | binary op left right =>
    rw [toNode, LooseNode.eval_pair, eval, left.eval_toNode env, right.eval_toNode env]
    exact Stop.bind_free fun x _ ↦ Stop.bind_free fun y _ ↦ rfl

/-- The trees of arguments have the values of the arguments. -/
theorem evalAll_toNodes (env : Environment) (args : List Expr) :
    LooseNode.evalAll env (toNodes args) = Stop.free (evalAll env args) := by
  cases args with
  | nil => rfl
  | cons arg rest =>
    rw [toNodes, LooseNode.evalAll, evalAll, arg.eval_toNode env, evalAll_toNodes env rest]
    exact Stop.bind_free fun value _ ↦ Stop.bind_free fun values _ ↦ rfl

end

/-! ### Slots in use -/

mutual

/-- Evaluating an expression puts one number on top of the slots in use. -/
theorem exists_live_evalPrecise {lib : Library} {f : Format} {env : Environment} {e : Expr}
    {slots filled : Slots Number} (h : e.evalPrecise lib f env slots = .ok filled) :
    ∃ x, filled.live = x :: slots.live := by
  cases e with
  | literal text value span =>
    rw [evalPrecise] at h
    obtain ⟨x, -, hreturn⟩ := bind_eq_ok.mp h
    obtain rfl := Except.ok.inj hreturn
    exact ⟨x, slots.live_put x⟩
  | var name span =>
    rw [evalPrecise] at h
    obtain ⟨x, -, hreturn⟩ := bind_eq_ok.mp h
    obtain rfl := Except.ok.inj hreturn
    exact ⟨x, slots.live_put x⟩
  | call callee calleeSpan args span =>
    rw [evalPrecise] at h
    obtain ⟨function, -, h⟩ := bind_eq_ok.mp h
    obtain ⟨taken, htaken, h⟩ := bind_eq_ok.mp h
    obtain ⟨effect, -, hreturn⟩ := bind_eq_ok.mp h
    obtain rfl := Except.ok.inj hreturn
    obtain ⟨values, hlength, hlive⟩ := exists_live_evalPreciseAll htaken
    obtain ⟨old, hold⟩ := slots.exists_live_take Number.zero
    have hrelease : (taken.releaseMany args.length).live = old :: slots.live := by
      rw [Slots.live_releaseMany, hlive, ← hlength, List.drop_left, hold]
    exact ⟨effect.apply old, Slots.live_modifyTop hrelease _⟩
  | binary op left right =>
    rw [evalPrecise] at h
    obtain ⟨first, hfirst, h⟩ := bind_eq_ok.mp h
    obtain ⟨second, hsecond, h⟩ := bind_eq_ok.mp h
    obtain ⟨x, hx⟩ := exists_live_evalPrecise hfirst
    obtain ⟨y, hy⟩ := exists_live_evalPrecise hsecond
    rw [hx] at hy
    simp only [hy] at h
    obtain ⟨result, -, hreturn⟩ := bind_eq_ok.mp h
    obtain rfl := Except.ok.inj hreturn
    have hrelease : second.release.live = x :: slots.live := by
      rw [Slots.live_release, hy, List.tail_cons]
    exact ⟨result, Slots.live_modifyTop hrelease _⟩

/-- Evaluating arguments puts as many numbers on top of the slots in use. -/
theorem exists_live_evalPreciseAll {lib : Library} {f : Format} {env : Environment}
    {args : List Expr} {slots filled : Slots Number}
    (h : evalPreciseAll lib f env args slots = .ok filled) :
    ∃ values, values.length = args.length ∧ filled.live = values ++ slots.live := by
  cases args with
  | nil =>
    obtain rfl := Except.ok.inj h
    exact ⟨[], rfl, rfl⟩
  | cons arg rest =>
    rw [evalPreciseAll] at h
    obtain ⟨first, hfirst, hrest⟩ := bind_eq_ok.mp h
    obtain ⟨x, hx⟩ := exists_live_evalPrecise hfirst
    obtain ⟨values, hlength, hlive⟩ := exists_live_evalPreciseAll hrest
    exact ⟨values ++ [x], by simp [hlength], by rw [hlive, hx, List.append_cons]⟩

end

mutual

/-- The tree of an expression is evaluated into slots as the expression is. -/
theorem evalPrecise_toNode (lib : Library) (f : Format) (env : Environment) (e : Expr)
    (slots : Slots Number) :
    e.toNode.evalPrecise lib f env slots = Stop.free (e.evalPrecise lib f env slots) := by
  cases e with
  | literal text value span => exact Stop.bind_free fun x _ ↦ rfl
  | var name span => exact Stop.bind_free fun x _ ↦ rfl
  | call callee calleeSpan args span =>
    rw [toNode, LooseNode.application, LooseNode.evalPrecise, LooseNode.leaf, LooseNode.callee,
      length_toNodes, evalPrecise]
    refine Stop.bind_free fun function _ ↦ ?_
    dsimp only
    rw [evalPreciseAll_toNodes lib f env args]
    refine Stop.bind_free fun filled hfilled ↦ ?_
    -- the arguments fill as many slots as there are arguments, so these are the slots above
    obtain ⟨values, hlength, hlive⟩ := exists_live_evalPreciseAll hfilled
    have hcount : filled.live.length = args.length + (slots.take Number.zero).live.length := by
      rw [hlive, List.length_append, hlength]
    rw [hcount, if_neg (by omega), Nat.add_sub_cancel]
    exact Stop.bind_free fun effect _ ↦ rfl
  | binary op left right =>
    rw [toNode, LooseNode.evalPrecise_pair, evalPrecise, left.evalPrecise_toNode lib f env]
    refine Stop.bind_free fun first hfirst ↦ ?_
    rw [right.evalPrecise_toNode lib f env]
    refine Stop.bind_free fun second hsecond ↦ ?_
    obtain ⟨x, hx⟩ := exists_live_evalPrecise hfirst
    obtain ⟨y, hy⟩ := exists_live_evalPrecise hsecond
    rw [hx] at hy
    simp only [hy]
    exact Stop.bind_free fun result _ ↦ rfl

/-- The trees of arguments are evaluated into slots as the arguments are. -/
theorem evalPreciseAll_toNodes (lib : Library) (f : Format) (env : Environment)
    (args : List Expr) (slots : Slots Number) :
    LooseNode.evalPreciseAll lib f env (toNodes args) slots =
      Stop.free (evalPreciseAll lib f env args slots) := by
  cases args with
  | nil => rfl
  | cons arg rest =>
    rw [toNodes, LooseNode.evalPreciseAll, evalPreciseAll, arg.evalPrecise_toNode lib f env]
    exact Stop.bind_free fun next _ ↦ evalPreciseAll_toNodes lib f env rest next

end

/-- The tree of an expression has the wide value of the expression, alone in the slots. -/
theorem preciseValue_toNode (lib : Library) (f : Format) (env : Environment) (e : Expr) :
    e.toNode.preciseValue lib f env = Stop.free (e.preciseValue lib f env) := by
  rw [LooseNode.preciseValue, preciseValue, evalPrecise_toNode]
  refine Stop.bind_free fun slots hslots ↦ ?_
  obtain ⟨x, hx⟩ := exists_live_evalPrecise hslots
  simp only [hx]
  rfl

end Expr

namespace Statement

/-- The tree of a statement. -/
def toNode : Statement → LooseNode
  | expression value => value.toNode
  | assignment target targetSpan value =>
    .pair .assign (targetSpan.union value.span) (.leaf .name targetSpan Binary64.zero target)
      value.toNode

/-- What is done with trees that are no assignments is done with the tree of an expression. -/
theorem executeWith_toNode {α : Type} (valueOf : LooseNode → Except (Stop EvalError) α)
    (stored : α → Binary64) (env : Environment) (e : Expr) :
    LooseNode.executeWith valueOf stored env e.toNode = do
      let value ← valueOf e.toNode
      return (env, some value) := by
  cases e with
  | literal text value span => rfl
  | var name span => rfl
  | call callee calleeSpan args span => rfl
  | binary op left right => cases op <;> rfl

/-- The tree of a statement is one. -/
theorem isStatement_toNode (s : Statement) : s.toNode.IsStatement := by
  cases s with
  | assignment target targetSpan value => exact ⟨rfl, value.isExpression_toNode, rfl⟩
  | expression value =>
    have hvalue := value.isExpression_toNode
    cases value with
    | literal text value span => exact hvalue
    | var name span => exact hvalue
    | call callee calleeSpan args span => exact hvalue
    | binary op left right => cases op <;> exact hvalue

/-- The tree of a statement renders as the statement. -/
theorem render_toNode (s : Statement) : s.toNode.render = .ok s.render := by
  cases s with
  | expression value => exact value.render_toNode
  | assignment target targetSpan value =>
    rw [toNode, LooseNode.pair, LooseNode.render, value.render_toNode]
    rfl

/-- The tree of a statement is executed in 64 bits as the statement is. -/
theorem execute_toNode (env : Environment) (s : Statement) :
    s.toNode.execute env = Stop.free (s.execute env) := by
  cases s with
  | expression value =>
    rw [toNode, LooseNode.execute, executeWith_toNode, value.eval_toNode]
    exact Stop.bind_free fun x _ ↦ rfl
  | assignment target targetSpan value =>
    rw [toNode, LooseNode.execute, LooseNode.pair, LooseNode.executeWith, value.eval_toNode]
    exact Stop.bind_free fun x _ ↦ rfl

/-- The tree of a statement is executed at every precision as the statement is. -/
theorem executePrecise_toNode (lib : Library) (env : Environment) (bits : Nat) (s : Statement) :
    s.toNode.executePrecise lib env bits = Stop.free (s.executePrecise lib env bits) := by
  cases s with
  | expression value =>
    rw [toNode, LooseNode.executePrecise, executeWith_toNode, value.preciseValue_toNode]
    exact Stop.bind_free fun x _ ↦ rfl
  | assignment target targetSpan value =>
    rw [toNode, LooseNode.executePrecise, LooseNode.pair, LooseNode.executeWith,
      value.preciseValue_toNode]
    exact Stop.bind_free fun x _ ↦ rfl

end Statement

end Reckoner
