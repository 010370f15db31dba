import Reckoner.Number.Basic

/-!
# Wide numbers as they are stored

A wide number is stored as a mantissa of words of 64 bits, the least word first and the highest bit
of the last one set, together with a binary exponent: the number is the mantissa, read as a fraction
below one, times that power of two. Beside it stands how the number lies to the exact result that it
was rounded from.

A zero or an infinity needs no mantissa. Storing one leaves the mantissa and the exponent of what
was stored before.
-/

set_option autoImplicit false

namespace Reckoner

/-- A wide number with its storage. -/
structure Stored where
  number : Number
  /-- How the number lies to the exact result. -/
  accuracy : Ordering
  /-- The words of the mantissa, the least one first, if any has ever been stored. -/
  words? : Option (List Nat)
  exponent : Int
  deriving Repr

namespace Stored

/-- The number of bits of a word. -/
def wordBits : Nat := 64

/-- A place where nothing has been stored, which is zero. -/
def fresh : Stored :=
  ⟨Number.zero, .eq, none, 0⟩

/-- The number of words that a number of bits needs. -/
def wordCount (bits : Nat) : Nat :=
  (bits + (wordBits - 1)) / wordBits

/-- The given number of words of an integer, the least one first. -/
def split : Nat → Nat → List Nat
  | 0, _ => []
  | count + 1, n => n % Nat.pow 2 wordBits :: split count (n / Nat.pow 2 wordBits)

/-- The mantissa of a size in the given number of words. -/
def mantissaOf (count : Nat) (d : Dyadic) : List Nat :=
  split count (d.mant <<< (wordBits * count - d.bits))

/-- The number of words of the mantissa. -/
def size (s : Stored) : Nat :=
  (s.words?.getD []).length

/-- The exponent of the lowest bit of the mantissa. -/
def unit (s : Stored) : Int :=
  s.exponent - wordBits * s.size

/-- How a rounded number lies to the exact one. -/
def accuracyOf (exact rounded : Number) : Ordering :=
  if rounded.lt exact then .lt else if exact.lt rounded then .gt else .eq

/-- Stores a number over another one without a mantissa of its own. -/
def overlay (old : Stored) (number : Number) : Stored :=
  { old with number := number, accuracy := .eq }

/-- Stores the result of a rounding. The exact result comes in `count` words, which stay if they are
within the precision. -/
def roundInto (f : Format) (old : Stored) (count : Nat) (exact : Number) : Stored :=
  let number := f.round exact
  match number.size with
  | .finite d =>
    let count := if wordBits * count ≤ f.precision then count else wordCount f.precision
    ⟨number, accuracyOf exact number, some (mantissaOf count d), d.top⟩
  | _ => { old with number := number, accuracy := accuracyOf exact number }

/-- Stores a number of one word. -/
def ofBinary64 (f : Format) (old : Stored) (x : Number) : Stored :=
  match x.size with
  | .finite _ => roundInto f old 1 x
  | _ => old.overlay x

/-- Stores a number that is known to be in the format already, with all the words of the format. -/
def ofRounded (f : Format) (old : Stored) (x : Number) : Stored :=
  match x.size with
  | .finite d => ⟨x, .eq, some (mantissaOf (wordCount f.precision) d), d.top⟩
  | _ => old.overlay x

/-- Stores a copy of a number, with the given sign. -/
def copy (old source : Stored) (negative : Bool) : Stored :=
  let number : Number := { source.number with negative := negative }
  match source.number.size with
  | .finite _ => ⟨number, .eq, source.words?, source.exponent⟩
  | _ => old.overlay number

/-! ### Arithmetic -/

/-- Stores a sum over its first operand, where `negative` is the sign that the second operand counts
with. A first operand that is the sum is left alone. -/
def add (f : Format) (x y : Stored) (negative : Bool) : Option Stored :=
  let addend : Number := { y.number with negative := negative }
  match x.number.size, addend.size with
  | .finite _, .finite _ =>
    (x.number.add addend).map fun sum ↦
      match sum.size with
      | .finite d => roundInto f x (wordCount (d.top - min x.unit y.unit).toNat) sum
      | _ => { (x.overlay sum) with words? := some [] }
  | .zero, .zero => (x.number.add addend).map x.overlay
  | .infinite, _ => (x.number.add addend).map fun _ ↦ x
  | _, .zero => some x
  | _, _ => some (x.copy y negative)

/-- Stores a product over its first operand. -/
def mul (f : Format) (x y : Stored) : Option Stored :=
  (x.number.mul y.number).map fun product ↦
    match product.size with
    | .finite _ => roundInto f x (x.size + y.size) product
    | _ => x.overlay product

/-- Stores a quotient over its first operand. -/
def div (f : Format) (x y : Stored) : Option Stored :=
  (x.number.div f.precision y.number).map fun quotient ↦
    match quotient.size with
    | .finite _ => roundInto f x (wordCount f.precision + 1) quotient
    | _ => x.overlay quotient

end Stored

end Reckoner
