/-!
# White space at the ends of a text

The white space that is trimmed from commands and definitions is that of the character database,
which is not the white space between tokens.
-/

set_option autoImplicit false

namespace Reckoner.Text

/-- Whether a character is white space by the character database. -/
def isBlank (c : Char) : Bool :=
  let code := c.toNat
  (0x9 ≤ code && code ≤ 0xd) || code == 0x20 || code == 0x85 || code == 0xa0 || code == 0x1680 ||
    (0x2000 ≤ code && code ≤ 0x200a) || code == 0x2028 || code == 0x2029 || code == 0x202f ||
    code == 0x205f || code == 0x3000

/-- A list of characters without the white space at both ends. -/
def trimChars (chars : List Char) : List Char :=
  ((chars.dropWhile isBlank).reverse.dropWhile isBlank).reverse

/-- A text without the white space at both ends. -/
def trim (text : String) : String :=
  String.ofList (trimChars text.toList)

end Reckoner.Text
