import Reckoner.Evaluation.Precise
import Reckoner.Number.Storage

/-!
# The storage of a wide result

The storage of a result tells how it was computed: whether the last step was exact, how many words
it has left, and what stood in its slot before, if it is zero. So the storage is found by evaluating
once more, with slots that hold stored numbers.

The numbers are those of `Expr.evalPrecise`. A step that has no result ends the evaluation.
-/

set_option autoImplicit false

namespace Reckoner

namespace Stored

/-- The greatest power of five that has one word. -/
def onePowerOfFive : Nat := 27

/-- The number of words of a decimal before it is rounded. -/
def decimalCount (f : Format) (value : Decimal) : Nat :=
  let digits := wordCount (bitLength value.coeff)
  if value.exp = 0 then digits
  else if value.exp < 0 then wordCount f.precision + 1
  else if value.exp ≤ onePowerOfFive then digits + 1
  else digits + min (wordCount (f.precision + wordBits)) (wordCount (3 * value.exp.toNat))

/-- A decimal of a format's range, so exact that it can still be rounded there. -/
def decimalValue (f : Format) (negative : Bool) (value : Decimal) : Number :=
  match value.exp with
  | .ofNat k => ⟨negative, Magnitude.ofScaled (value.coeff * Nat.pow 10 k) 0⟩
  | .negSucc k => ⟨negative, Magnitude.ofRatio f.precision value.coeff (Nat.pow 10 (k + 1)) 0⟩

/-- Stores a literal. -/
def literal (f : Format) (old : Stored) (text : String) (value : Binary64) : Option Stored :=
  match Literal.readWide? f text, Literal.number? text.toList with
  | some x, some (.decimal negative value) =>
    if x.isZero then some { (old.overlay x) with words? := old.words?.map fun _ ↦ [] }
    else some (roundInto f old (decimalCount f value) (decimalValue f negative value))
  | some x, _ => some (old.overlay x)
  | none, _ =>
    match value with
    | .nan => none
    | .number x _ => some (old.ofBinary64 f x)

/-- Stores a variable's value. -/
def variableValue (f : Format) (env : Environment) (old : Stored) (name : String) :
    Option Stored :=
  match env.lookup? name with
  | some (.number x _) => some (old.ofBinary64 f x)
  | _ => none

/-- Stores a 64-bit result. -/
def plainResult (f : Format) (old : Stored) : Binary64 → Option Stored
  | .nan => none
  | .number x _ => some (old.ofBinary64 f x)

/-- Stores the result of an operation over its first operand. A power is computed elsewhere and then
copied. -/
def arithmetic (lib : Library) (f : Format) (op : Operator) (x y : Stored) : Option Stored :=
  match op with
  | .add => x.add f y y.number.negative
  | .sub => x.add f y !y.number.negative
  | .mul => x.mul f y
  | .div => x.div f y
  | .pow =>
    match Wide.pow lib f x.number y.number with
    | some effect => some (x.ofRounded f (effect.apply Number.zero))
    | none => x.plainResult f ((Binary64.ofNumber x.number).pow (Binary64.ofNumber y.number))

/-- The last step of a wide function before its rounding, if it is one of arithmetic. -/
def lastStep (lib : Library) (f : Format) : Function → List Number → Option Number
  | .log, [base, x] =>
    match base.size, x.size with
    | .finite b, .finite a => (lib.log f a).div f.precision (lib.log f b)
    | _, _ => none
  | .deg, [x] => do
    let turns ← f.div x (Number.ofInt Function.fullCircle)
    let halfTurns ← f.mul turns (Number.ofInt 2)
    halfTurns.mul (lib.pi f)
  | .rad, [x] => do
    let tau ← f.mul (lib.pi f) (Number.ofInt 2)
    let turns ← f.div x tau
    turns.mul (Number.ofInt Function.fullCircle)
  | _, _ => none

/-- Stores the result of a call in its slot. -/
def call (lib : Library) (f : Format) (old : Stored) (function : Function)
    (args : List Number) : Option Stored :=
  let wide := if args.any Number.isInfinite then none else function.applyWide lib f args
  match wide with
  | some (.write x) =>
    match x.size, lastStep lib f function args with
    | .finite _, some exact => some (old.roundInto f (wordCount f.precision + 1) exact)
    | _, _ => some (old.ofRounded f x)
  | some .keep => some old
  | some .negate => some { old with number := old.number.neg }
  | none => old.plainResult f (function.apply (args.map Binary64.ofNumber))

end Stored

namespace Expr

mutual

/-- The slots after an expression has been evaluated into one more slot. -/
def store (lib : Library) (f : Format) (env : Environment) :
    Expr → Slots Stored → Option (Slots Stored)
  | literal text value _, slots =>
    slots.fill Stored.fresh fun old ↦ old.literal f text value
  | var name _, slots =>
    slots.fill Stored.fresh fun old ↦ old.variableValue f env name
  | call callee _ args _, slots => do
    let function ← Function.ofName? callee
    let slots ← storeAll lib f env args (slots.take Stored.fresh)
    let values := (slots.lastTaken args.length).map Stored.number
    (slots.releaseMany args.length).changeTop fun old ↦ old.call lib f function values
  | binary op left right, slots => do
    let slots ← left.store lib f env slots
    let slots ← right.store lib f env slots
    let y ← slots.live.head?
    slots.release.changeTop fun x ↦ x.arithmetic lib f op y

/-- The slots after arguments have been evaluated into as many more slots. -/
def storeAll (lib : Library) (f : Format) (env : Environment) :
    List Expr → Slots Stored → Option (Slots Stored)
  | [], slots => some slots
  | arg :: rest, slots => do
    let slots ← arg.store lib f env slots
    storeAll lib f env rest slots

end

end Expr

/-- The storage of a statement's result at a number of bits. -/
def Statement.stored (lib : Library) (env : Environment) (bits : Nat) : Statement → Stored
  | expression value | assignment _ _ value =>
    let slots := (value.store lib (Format.wide bits) env Slots.empty).getD Slots.empty
    slots.live.headD Stored.fresh

end Reckoner
