import Reckoner.Session.Basic
import Reckoner.Text.Utf8

/-!
# Completing the word at the end of a line

The word at the end of a line is its longest run of ASCII letters there. It is completed to the
functions that begin with it, with their opening parenthesis, and then to the variables that begin
with it. The line is a sequence of bytes, so that a line that is no well-formed text is completed
too.
-/

set_option autoImplicit false

namespace Reckoner

namespace Session

/-- Whether a byte is an ASCII letter. -/
def isLetterByte (b : UInt8) : Bool :=
  (0x41 ≤ b && b ≤ 0x5a) || (0x61 ≤ b && b ≤ 0x7a)

/-- The word at the end of a line. -/
def lastWord (line : List UInt8) : List UInt8 :=
  (line.reverse.takeWhile isLetterByte).reverse

/-- The line in front of the word at its end. -/
def beforeLastWord (line : List UInt8) : List UInt8 :=
  (line.reverse.dropWhile isLetterByte).reverse

/-- The completions of a line: each is the whole line with its last word completed. -/
def complete (s : Session) (line : List UInt8) : List (List UInt8) :=
  let word := lastWord line
  let head := beforeLastWord line
  if word.isEmpty then []
  else
    let candidates :=
      (Function.all.map fun f ↦ (Text.encode f.name, [0x28])) ++
        (s.env.names.map fun name ↦ (Text.encode name, []))
    (candidates.filter fun candidate ↦ word.isPrefixOf candidate.1).map fun candidate ↦
      head ++ candidate.1 ++ candidate.2

end Session

end Reckoner
