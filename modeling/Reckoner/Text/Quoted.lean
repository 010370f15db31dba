import Reckoner.Text.Printable

/-!
# Quoted text

A quoted character or text stands between quotes. Printable characters stand for themselves, the
quote in use and the backslash follow a backslash, seven control characters have a letter, and every
other character is written by its code in lower-case hexadecimal digits.
-/

set_option autoImplicit false

namespace Reckoner.Text

/-- The code of a character in at least `width` hexadecimal digits. -/
def hexCode (width : Nat) (code : Nat) : List Char :=
  let digits := Nat.toDigits 16 code
  List.replicate (width - digits.length) '0' ++ digits

/-- The letter that stands for a control character after a backslash. -/
def controlLetter? (code : Nat) : Option Char :=
  match code with
  | 7 => some 'a'
  | 8 => some 'b'
  | 9 => some 't'
  | 10 => some 'n'
  | 11 => some 'v'
  | 12 => some 'f'
  | 13 => some 'r'
  | _ => none

/-- A character as it is written between quotes of the given kind. -/
def escaped (quote c : Char) : List Char :=
  if c = quote ∨ c = '\\' then ['\\', c]
  else if isPrintable c then [c]
  else
    match controlLetter? c.toNat with
    | some letter => ['\\', letter]
    | none =>
      if c.toNat < 0x20 ∨ c.toNat = 0x7f then '\\' :: 'x' :: hexCode 2 c.toNat
      else if c.toNat < 0x10000 then '\\' :: 'u' :: hexCode 4 c.toNat
      else '\\' :: 'U' :: hexCode 8 c.toNat

/-- The single quote. -/
def singleQuote : Char := '\x27'

/-- The double quote. -/
def doubleQuote : Char := '\x22'

/-- A character between single quotes. -/
def quoteChar (c : Char) : String :=
  String.ofList (singleQuote :: escaped singleQuote c ++ [singleQuote])

/-- A text between double quotes. -/
def quote (text : String) : String :=
  String.ofList (doubleQuote :: text.toList.flatMap (escaped doubleQuote) ++ [doubleQuote])

end Reckoner.Text
