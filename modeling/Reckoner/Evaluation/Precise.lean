import Reckoner.Evaluation.Plain

/-!
# Evaluation at a chosen precision

Wide evaluation keeps its intermediate numbers in slots. The live slots are a stack; a slot that is
given back keeps its number, and the next slot that is needed is the one given back last, with that
number still in it. A fresh slot holds zero. A call takes the slot for its result before its
arguments are evaluated in the slots above.

Powers, logarithms and pi come from a `Library`. Every step writes the slot it has taken, except a
power that the library leaves unwritten, so an old number can show through only there.

There is no wide number for what is not a number: an operation without a result fails. Functions
without a wide value, functions of an infinity, and powers out of range are computed in 64 bits.
-/

set_option autoImplicit false

namespace Reckoner

/-- The slots of wide evaluation, which hold numbers or what stands for them. -/
structure Slots (α : Type) where
  /-- The values in use, the last one first. -/
  live : List α
  /-- The values in slots that were given back, the next one to be used first. -/
  spare : List α
  deriving Repr

namespace Slots

variable {α : Type}

/-- No slots. -/
def empty : Slots α :=
  ⟨[], []⟩

/-- Takes the next slot, with whatever it holds. A new slot holds the given value. -/
def take (slots : Slots α) (fresh : α) : Slots α :=
  match slots.spare with
  | [] => ⟨fresh :: slots.live, []⟩
  | old :: spare => ⟨old :: slots.live, spare⟩

/-- Changes the value in the last slot taken. -/
def modifyTop (slots : Slots α) (change : α → α) : Slots α :=
  match slots.live with
  | [] => slots
  | top :: live => ⟨change top :: live, slots.spare⟩

/-- Changes the value in the last slot taken, if there is a new one. -/
def changeTop (slots : Slots α) (change : α → Option α) : Option (Slots α) :=
  match slots.live with
  | [] => some slots
  | top :: live => (change top).map fun value ↦ ⟨value :: live, slots.spare⟩

/-- Writes a value to the last slot taken. -/
def setTop (slots : Slots α) (x : α) : Slots α :=
  slots.modifyTop fun _ ↦ x

/-- Takes the next slot and changes what it holds, if there is a new value. -/
def fill (slots : Slots α) (fresh : α) (change : α → Option α) : Option (Slots α) :=
  (slots.take fresh).changeTop change

/-- Gives the last slot back. -/
def release (slots : Slots α) : Slots α :=
  match slots.live with
  | [] => slots
  | top :: live => ⟨live, top :: slots.spare⟩

/-- Gives back as many slots as told. -/
def releaseMany : Nat → Slots α → Slots α
  | 0, slots => slots
  | count + 1, slots => releaseMany count slots.release

/-- The values of the last slots taken, in the order in which they were taken. -/
def lastTaken (slots : Slots α) (count : Nat) : List α :=
  (slots.live.take count).reverse

/-- Takes the next slot and writes a number to it. -/
def put (slots : Slots Number) (x : Number) : Slots Number :=
  (slots.take Number.zero).setTop x

end Slots

namespace Wide

/-- A 64-bit result as a wide number; the operation fails if it is not a number. -/
def ofBinary64 (f : Format) (span : Span) (operation : String) :
    Binary64 → Except EvalError Number
  | .nan => .error ⟨span, .notANumber operation⟩
  | .number x _ => .ok (f.round x)

/-- A literal's wide value: its text read at the format's precision, or its 64-bit value if the text
cannot be read so. -/
def literal (f : Format) (text : String) (value : Binary64) (span : Span) :
    Except EvalError Number :=
  match Literal.readWide? f text with
  | some x => .ok x
  | none => ofBinary64 f span "literal" value

/-- A variable's wide value. -/
def variableValue (f : Format) (env : Environment) (name : String) (span : Span) :
    Except EvalError Number :=
  match env.lookup? name with
  | none => .error ⟨span, .undefinedVariable name⟩
  | some .nan => .error ⟨span, .noPreciseValue name⟩
  | some (.number x _) => .ok (f.round x)

/-- The result of an operation on two wide numbers, or its failure. A power is computed in a fresh
slot, or in 64 bits if it is declined. -/
def arithmetic (lib : Library) (f : Format) (span : Span) (op : Operator) (x y : Number) :
    Except EvalError Number :=
  let failure : EvalError := ⟨span, .notANumber op.symbol⟩
  match op with
  | .add => (f.add x y).elim (.error failure) .ok
  | .sub => (f.sub x y).elim (.error failure) .ok
  | .mul => (f.mul x y).elim (.error failure) .ok
  | .div => (f.div x y).elim (.error failure) .ok
  | .pow =>
    match pow lib f x y with
    | some effect => .ok (effect.apply Number.zero)
    | none => ofBinary64 f span op.symbol ((Binary64.ofNumber x).pow (Binary64.ofNumber y))

/-- The effect of a call on its slot, or its failure: the wide value if there are only finite
arguments and the function does not decline, and the 64-bit value otherwise. -/
def callEffect (lib : Library) (f : Format) (span : Span) (function : Function)
    (args : List Number) : Except EvalError SlotEffect :=
  let wide := if args.any Number.isInfinite then none else function.applyWide lib f args
  match wide with
  | some effect => .ok effect
  | none =>
    (ofBinary64 f span function.name (function.apply (args.map Binary64.ofNumber))).map
      SlotEffect.write

end Wide

namespace Expr

mutual

/-- The slots after an expression has been evaluated into one more slot. -/
def evalPrecise (lib : Library) (f : Format) (env : Environment) :
    Expr → Slots Number → Except EvalError (Slots Number)
  | literal text value span, slots => do
    let x ← Wide.literal f text value span
    return slots.put x
  | var name span, slots => do
    let x ← Wide.variableValue f env name span
    return slots.put x
  | call callee calleeSpan args span, slots => do
    let function ← Function.resolve callee calleeSpan args.length span
    let slots ← evalPreciseAll lib f env args (slots.take Number.zero)
    let effect ← Wide.callEffect lib f span function (slots.lastTaken args.length)
    return (slots.releaseMany args.length).modifyTop effect.apply
  | binary op left right, slots => do
    let slots ← left.evalPrecise lib f env slots
    let slots ← right.evalPrecise lib f env slots
    match slots.live with
    | y :: x :: _ =>
      let result ← Wide.arithmetic lib f (left.span.union right.span) op x y
      return slots.release.setTop result
    | _ => return slots

/-- The slots after arguments have been evaluated into as many more slots. -/
def evalPreciseAll (lib : Library) (f : Format) (env : Environment) :
    List Expr → Slots Number → Except EvalError (Slots Number)
  | [], slots => .ok slots
  | arg :: rest, slots => do
    let slots ← arg.evalPrecise lib f env slots
    evalPreciseAll lib f env rest slots

end

/-- The wide value of an expression: the number in the slot it is evaluated into. -/
def preciseValue (lib : Library) (f : Format) (env : Environment) (value : Expr) :
    Except EvalError Number := do
  let slots ← value.evalPrecise lib f env Slots.empty
  return slots.live.headD Number.zero

end Expr

/-- The environment after a statement evaluated at a number of bits, and the wide value of an
expression. An assignment stores the nearest 64-bit number. -/
def Statement.executePrecise (lib : Library) (env : Environment) (bits : Nat) :
    Statement → Except EvalError (Environment × Option Number)
  | expression value => do
    let result ← value.preciseValue lib (Format.wide bits) env
    return (env, some result)
  | assignment target _ value => do
    let result ← value.preciseValue lib (Format.wide bits) env
    return (env.set target (Binary64.ofNumber result), none)

end Reckoner
