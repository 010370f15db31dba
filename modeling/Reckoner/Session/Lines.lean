/-!
# Lines of a text

A text is divided at line feeds; what is behind the last one is a line too, if it is not empty. A
carriage return in front of a line feed belongs to it.

The lines of a batch have a limit on their length. The lines of a dialogue are read through a window
of bytes, and a line that does not fit into it comes in portions.
-/

set_option autoImplicit false

namespace Reckoner

namespace Lines

/-- A line and whether a line feed ends it. -/
structure Piece where
  /-- The characters without the line feed. -/
  chars : List Char
  ended : Bool

/-- The pieces of a text, given the characters of the current one, last first. -/
def piecesFrom (current : List Char) : List Char → List Piece
  | [] => if current.isEmpty then [] else [⟨current.reverse, false⟩]
  | '\n' :: rest => ⟨current.reverse, true⟩ :: piecesFrom [] rest
  | c :: rest => piecesFrom (c :: current) rest

/-- The pieces of a text. -/
def pieces (text : String) : List Piece :=
  piecesFrom [] text.toList

/-- A line without one carriage return at its end. -/
def dropReturn (chars : List Char) : List Char :=
  if chars.getLast? = some '\r' then chars.dropLast else chars

/-! ### Lines of limited length -/

/-- The number of bytes from which on a line is too long. -/
def lengthLimit : Nat := 65536

/-- Whether a line is too long; its carriage return counts, its line feed does not. -/
def tooLong (chars : List Char) : Bool :=
  lengthLimit ≤ chars.foldl (fun size c ↦ size + c.utf8Size) 0

/-- The line that a piece stands for. -/
def Piece.line (piece : Piece) : String :=
  String.ofList (dropReturn piece.chars)

/-- The description of a line that is too long. -/
def tooLongMessage : String := "reading input: bufio.Scanner: token too long"

/-! ### Lines in portions -/

/-- The number of bytes that the window holds. -/
def windowSize : Nat := 4096

/-- What is read at once: a line, or a part of one that does not fit into the window. -/
structure Portion where
  bytes : List UInt8
  /-- Whether the line goes on behind it. -/
  cut : Bool
  deriving DecidableEq, Repr

/-- A line without the carriage return in front of its line feed. -/
def dropReturnByte (bytes : List UInt8) : List UInt8 :=
  if bytes.getLast? = some 13 then bytes.dropLast else bytes

/-- The first portion of a text, and the number of bytes that it takes. A carriage return at the end
of a full window is left for the next portion, where a line feed may follow it. -/
def nextPortion (bytes : List UInt8) : Portion × Nat :=
  let window := bytes.take windowSize
  let line := window.takeWhile (· ≠ 10)
  if line.length < window.length then (⟨dropReturnByte line, false⟩, line.length + 1)
  else if line.length < windowSize then (⟨line, false⟩, line.length)
  else (⟨dropReturnByte line, true⟩, (dropReturnByte line).length)

/-- The portions of a text, where each takes one byte at least. -/
def portions : List UInt8 → List Portion
  | [] => []
  | first :: rest =>
    let (portion, size) := nextPortion (first :: rest)
    portion :: portions (rest.drop (size - 1))
termination_by bytes => bytes.length
decreasing_by simp only [List.length_cons, List.length_drop]; omega

end Lines

end Reckoner
