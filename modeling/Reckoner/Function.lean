import Reckoner.Number.Binary64
import Reckoner.Number.Library

/-!
# The functions that expressions can call

Each function has a name, a number of arguments and a value on 64-bit numbers. Some also have a
value on wide numbers (`Function.applyWide`), which they may decline, leaving the call to the
64-bit value.

A wide value goes into a slot that already holds a number, and the power of a `Library` may leave
what the slot holds. So what a wide function answers is an effect on a slot (`SlotEffect`), not a
number.
-/

set_option autoImplicit false

namespace Reckoner

/-- The functions, in the order in which they are listed. -/
inductive Function where
  | sin
  | cos
  | tan
  | log
  | root
  | sqrt
  | deg
  | rad
  deriving DecidableEq, Repr

namespace Function

/-- All functions, in their order. -/
def all : List Function :=
  [sin, cos, tan, log, root, sqrt, deg, rad]

/-- The name of a function. -/
def name : Function → String
  | sin => "sin"
  | cos => "cos"
  | tan => "tan"
  | log => "log"
  | root => "root"
  | sqrt => "sqrt"
  | deg => "deg"
  | rad => "rad"

/-- The number of arguments of a function. -/
def arity : Function → Nat
  | log => 2
  | root => 2
  | _ => 1

/-- The function with a name. -/
def ofName? (name : String) : Option Function :=
  all.find? fun f ↦ f.name = name

/-! ### Values on 64-bit numbers -/

/-- The number of degrees of a full circle. -/
def fullCircle : Int := 360

/-- The value of a function on as many 64-bit numbers as it takes: `log` is a logarithm in the base
of its first argument, `root` a root of the degree of its first argument, `deg` turns degrees into
radians and `rad` radians into degrees. -/
def apply : Function → List Binary64 → Binary64
  | sin, [x] => x.sin
  | cos, [x] => x.cos
  | tan, [x] => x.tan
  | sqrt, [x] => x.sqrt
  | log, [base, x] => x.log.div base.log
  | root, [degree, x] => x.pow (Binary64.one.div degree)
  | deg, [x] => ((x.div (Binary64.ofInt fullCircle)).mul (Binary64.ofInt 2)).mul Binary64.pi
  | rad, [x] => (x.div Binary64.tau).mul (Binary64.ofInt fullCircle)
  | _, _ => .nan

end Function

/-! ### Effects on a slot -/

/-- What happens to the number in a slot. -/
inductive SlotEffect where
  | write (x : Number)
  | keep
  | negate
  deriving DecidableEq, Repr

namespace SlotEffect

/-- The number in a slot after an effect. -/
def apply : SlotEffect → Number → Number
  | write x, _ => x
  | keep, old => old
  | negate, old => old.neg

/-- An effect followed by a change of sign. -/
def negated : SlotEffect → SlotEffect
  | write x => write x.neg
  | keep => negate
  | negate => keep

end SlotEffect

/-! ### Wide powers -/

namespace Wide

/-- The greatest size of the binary logarithm of a power that is computed wide. -/
def powRange : Binary64 := Binary64.ofInt 1000

/-- An estimate in 64 bits of the binary logarithm of a power of a non-zero finite size. -/
def powEstimate (base : Dyadic) (y : Number) : Binary64 :=
  let mantissa : Binary64 := Binary64.ofNumber ⟨false, .finite ⟨base.mant, -base.bits, base.odd⟩⟩
  (Binary64.ofNumber y).mul ((Binary64.ofInt base.top).add mantissa.log2)

/-- Whether the estimate of a power lies within the range. -/
def powInRange (base : Dyadic) (y : Number) : Bool :=
  Binary64.le (powEstimate base y).abs powRange

/-- The effect of a power of a positive base, which leaves the slot alone if the library does. -/
def powPositive (lib : Library) (f : Format) (base : Dyadic) (y : Number) : SlotEffect :=
  (lib.pow f base y).elim .keep .write

/-- The effect of a power, or none if it is left to 64 bits: for an infinite operand, a zero base, a
power out of range, and a power of a negative base that is not an integer. -/
def pow (lib : Library) (f : Format) (x y : Number) : Option SlotEffect :=
  match x.size with
  | .finite base =>
    if y.isInfinite || !powInRange base y then none
    else if !x.negative then some (powPositive lib f base y)
    else if !y.isInteger then none
    else if y.isOdd then some (powPositive lib f base y).negated
    else some (powPositive lib f base y)
  | _ => none

/-! ### Wide functions -/

/-- The effect of a logarithm, which needs positive arguments and a base other than one. -/
def log (lib : Library) (f : Format) (base x : Number) : Option SlotEffect :=
  match base.size, x.size with
  | .finite b, .finite a =>
    if base.negative || x.negative then none
    else
      let divisor := lib.log f b
      if divisor.isZero then none
      else (f.div (lib.log f a) divisor).map .write
  | _, _ => none

/-- The effect of a root: the power with the reciprocal of the degree. -/
def root (lib : Library) (f : Format) (degree x : Number) : Option SlotEffect :=
  if degree.isZero then none else (f.div Number.one degree).bind (pow lib f x)

/-- The effect of a square root. -/
def sqrt (f : Format) (x : Number) : Option SlotEffect :=
  (f.sqrt x).map .write

/-- The effect of turning degrees into radians. -/
def deg (lib : Library) (f : Format) (x : Number) : Option SlotEffect := do
  let turns ← f.div x (Number.ofInt Function.fullCircle)
  let halfTurns ← f.mul turns (Number.ofInt 2)
  let radians ← f.mul halfTurns (lib.pi f)
  return .write radians

/-- The effect of turning radians into degrees. -/
def rad (lib : Library) (f : Format) (x : Number) : Option SlotEffect := do
  let tau ← f.mul (lib.pi f) (Number.ofInt 2)
  let turns ← f.div x tau
  let degrees ← f.mul turns (Number.ofInt Function.fullCircle)
  return .write degrees

end Wide

/-- The effect of a function on wide numbers, or none if the call is left to 64 bits. -/
def Function.applyWide (lib : Library) (f : Format) : Function → List Number → Option SlotEffect
  | .log, [base, x] => Wide.log lib f base x
  | .root, [degree, x] => Wide.root lib f degree x
  | .sqrt, [x] => Wide.sqrt f x
  | .deg, [x] => Wide.deg lib f x
  | .rad, [x] => Wide.rad lib f x
  | _, _ => none

end Reckoner
