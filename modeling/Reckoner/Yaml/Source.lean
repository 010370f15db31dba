import Reckoner.Yaml.Cursor

/-!
# The text of YAML documents

A text is read in windows of bytes, each when it is needed. A window with a character that may not
stand in a text cannot be read, and neither can what follows it; the windows before can.

A mark of the byte order at the beginning does not belong to the text. If a second one follows it,
the text begins with a mark, and as long as nothing behind the first window is looked at the first
character of a line is taken for such a mark where a lexeme may begin.
-/

set_option autoImplicit false

namespace Reckoner

namespace Yaml

/-- Whether a character may stand in a text. -/
def isAllowed (c : Char) : Bool :=
  let code := c.toNat
  code == 0x9 || code == 0xa || code == 0xd || (0x20 ≤ code && code ≤ 0x7e) || code == 0x85 ||
    (0xa0 ≤ code && code ≤ 0xd7ff) || (0xe000 ≤ code && code ≤ 0xfffd) || 0x10000 ≤ code

/-- The mark of the byte order. -/
def orderMark : Char := '\ufeff'

/-- The number of bytes of a window. -/
def windowSize : Nat := 512

/-- How many bytes further a text needs to be read in front of a lexeme. -/
def lookahead : Nat := 4

/-- The text that can be read. -/
structure Source where
  /-- The characters, with uniform line breaks. -/
  chars : List Char
  /-- Whether more follows that cannot be read. -/
  broken : Bool
  /-- The number of characters of the first window if it begins with a mark, and zero otherwise. -/
  marked : Nat

namespace Source

/-- The characters of the windows that can be read, and whether there is one that cannot. `used`
bytes of the current window are the characters `window`, the last one first. -/
def readable (used : Nat) (window : List Char) : List Char → List Char × Bool
  | [] => (window.reverse, false)
  | c :: rest =>
    let fits := decide (used + c.utf8Size ≤ windowSize)
    let before := if fits then [] else window.reverse
    if !isAllowed c then (before, true)
    else
      let (further, broken) :=
        if fits then readable (used + c.utf8Size) (c :: window) rest
        else readable c.utf8Size [c] rest
      (before ++ further, broken)

/-- The number of characters in the rest of a window of which some bytes are used. -/
def windowLength (used : Nat) : List Char → Nat
  | [] => 0
  | c :: rest =>
    if used + c.utf8Size ≤ windowSize then windowLength (used + c.utf8Size) rest + 1 else 0

/-- The number of characters of the first window if it begins with a mark, and zero otherwise. -/
def markedLength (chars : List Char) : Nat :=
  if chars.head? == some orderMark then windowLength orderMark.utf8Size (uniform chars) else 0

/-- The text that can be read of a text. -/
def ofText (text : String) : Source :=
  let chars := text.toList
  if chars.head? == some orderMark then
    let (readable, broken) := readable orderMark.utf8Size [] (chars.drop 1)
    ⟨uniform readable, broken, markedLength (chars.drop 1)⟩
  else
    let (readable, broken) := readable 0 [] chars
    ⟨uniform readable, broken, 0⟩

end Source

end Yaml

end Reckoner
