import Reckoner.Evaluation.Fault

/-!
# Reports under a line

A report marks the part of a line that a failure is about and says what is wrong. It is drawn on a
line of its own, below the one it is about, which may stand some columns from the left margin.

The parts of the output have colours: results one, marks another, and notes a third. Without colour
the texts are the same but for the codes around them.
-/

set_option autoImplicit false

namespace Reckoner

/-- Whether the output is coloured. -/
structure Palette where
  colored : Bool
  deriving DecidableEq, Repr

namespace Palette

/-- The character that begins a colour code. -/
def escapeChar : Char := '\x1b'

/-- The code that switches to a colour, or back with code zero. -/
def code (n : Nat) : String :=
  escapeChar.toString ++ "[" ++ Nat.repr n ++ "m"

/-- A text in a colour. -/
def paint (p : Palette) (color : Nat) (text : String) : String :=
  if p.colored then code color ++ text ++ code 0 else text

/-- A label of a result. -/
def result (p : Palette) (text : String) : String :=
  p.paint 36 text

/-- The mark under the part of a line. -/
def caret (p : Palette) (text : String) : String :=
  p.paint 31 text

/-- A note to the user. -/
def note (p : Palette) (text : String) : String :=
  p.paint 33 text

/-- The number of characters above which a text cannot be held. -/
def reach : Int := Nat.pow 2 48

/-- Why a mark cannot be drawn. -/
inductive Misplacement where
  | leftOfMargin
  /-- It is too far from the margin, or too wide. -/
  | beyondReach
  deriving DecidableEq, Repr

/-- A character as often as told. -/
def repeated (count : Int) (c : Char) : Except Misplacement String :=
  if count < 0 then .error .leftOfMargin
  else if reach < count then .error .beyondReach
  else .ok (String.ofList (List.replicate count.toNat c))

/-- The line below an input line that stands `indent` columns from the margin: the mark under what a
failure is about, at least one character wide, and its description. -/
def underline (p : Palette) (indent : Int) (fault : Fault) : Except Misplacement String :=
  match repeated (Span.wrapped (indent + fault.span.start)) ' ' with
  | .error e => .error e
  | .ok margin =>
    (repeated (max fault.span.width 1) '~').map fun mark ↦
      margin ++ p.caret mark ++ p.note (" < " ++ fault.message)

end Palette

end Reckoner
