import Reckoner.Number.Storage
import Reckoner.Template.Directive

/-!
# Stored numbers as records

A stored number can be shown field by field: its precision, the mode of rounding, its accuracy, its
form, its sign, the words of its mantissa and its exponent. The directive applies to every field by
itself. With a plus the fields have names; with a number sign the record is written as an expression
that would make it, and what has no sign is in hexadecimal.
-/

set_option autoImplicit false

namespace Reckoner

namespace Template

/-- A number in a base by a directive, behind a sign and a mark of the base. The precision is the
least number of digits, and a zero has none at precision zero. Zeros that pad to the width are
digits too, unless there is a precision. -/
def wholeText (d : Directive) (sign mark : List Char) (base n : Nat) : List Char :=
  let spaces : Directive := { d with flags := { d.flags with zero := false } }
  let least :=
    match d.precision with
    | some count => count
    | none => if d.zeroPads then d.width.getD 0 - sign.length else 0
  if d.precision = some 0 && n = 0 then List.replicate (d.width.getD 0) ' '
  else
    let digits := Nat.toDigits base n
    spaces.padWith false
      (sign ++ mark ++ List.replicate (least - digits.length) '0' ++ digits)

/-- The mark of hexadecimal digits. -/
def hexMark : List Char :=
  ['0', 'x']

/-- An integer by a directive. -/
def integerText (d : Directive) (hexadecimal : Bool) (n : Int) : List Char :=
  let sign := if n < 0 then ['-'] else if d.flags.space then [' '] else []
  if hexadecimal then wholeText d sign hexMark 16 n.natAbs else wholeText d sign [] 10 n.natAbs

/-- A truth value by a directive. -/
def truthText (d : Directive) (b : Bool) : List Char :=
  d.padWith d.zeroPads (if b then "true" else "false").toList

/-- The code of an accuracy. -/
def accuracyCode : Ordering → Int
  | .lt => -1
  | .eq => 0
  | .gt => 1

/-- The code of a form. -/
def formCode : Magnitude → Int
  | .zero => 0
  | .finite _ => 1
  | .infinite => 2

/-- Texts with a separator between them. -/
def separated (separator : List Char) (texts : List (List Char)) : List Char :=
  List.intercalate separator texts

/-- The words of a mantissa by a directive. -/
def wordsText (d : Directive) (words? : Option (List Nat)) : List Char :=
  let texts := (words?.getD []).map fun (w : Nat) ↦ integerText d d.flags.sharp w
  if !d.flags.sharp then '[' :: separated [' '] texts ++ [']']
  else if words?.isNone then "big.nat(nil)".toList
  else "big.nat\x7b".toList ++ separated ", ".toList texts ++ ['\x7d']

/-- The fields of a stored number with their names. -/
def recordFields (d : Directive) (precision : Nat) (s : Stored) :
    List (String × List Char) :=
  let unsigned (n : Int) : List Char := integerText d d.flags.sharp n
  [("prec", unsigned precision), ("mode", unsigned 0),
   ("acc", integerText d false (accuracyCode s.accuracy)),
   ("form", unsigned (formCode s.number.size)), ("neg", truthText d s.number.negative),
   ("mant", wordsText d s.words?), ("exp", integerText d false s.exponent)]

/-- A stored number by a directive, field by field. -/
def recordText (d : Directive) (precision : Nat) (s : Stored) : List Char :=
  let named := d.flags.plus || d.flags.sharp
  let fields := (recordFields d precision s).map fun (name, text) ↦
    if named then name.toList ++ ':' :: text else text
  let opening := if d.flags.sharp then "&big.Float".toList else ['&']
  let separator := if d.flags.sharp then ", ".toList else [' ']
  opening ++ '\x7b' :: separated separator fields ++ ['\x7d']

end Template

end Reckoner
