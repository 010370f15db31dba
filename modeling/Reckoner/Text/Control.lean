import Reckoner.Text.Printable

/-!
# Control characters

The characters that stand for nothing on a line: control and format characters, those left to
private use, and those that are not assigned at all. What remains of the character database is
printable or separates words, lines or paragraphs.
-/

set_option autoImplicit false

namespace Reckoner.Text

/-- The ranges of the separators of words, lines and paragraphs, first and last character of
each. -/
def separatorRanges : List (Nat × Nat) :=
  [(0x20, 0x20), (0xa0, 0xa0), (0x1680, 0x1680), (0x2000, 0x200a), (0x2028, 0x2029),
   (0x202f, 0x202f), (0x205f, 0x205f), (0x3000, 0x3000)]

/-- Whether a character separates words, lines or paragraphs. -/
def isSeparator (c : Char) : Bool :=
  separatorRanges.any fun range ↦ range.1 ≤ c.toNat && c.toNat ≤ range.2

/-- Whether a character is a control, format, private or unassigned character: it neither prints nor
separates. -/
def isControl (c : Char) : Bool :=
  !(isPrintable c || isSeparator c)

end Reckoner.Text
