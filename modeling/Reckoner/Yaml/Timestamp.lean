import Reckoner.Literal

/-!
# Points in time

A point in time is written as a date, or as a date and a time of the day. The parts of both have one
or two digits, except for the year, which has four. Behind a date and a letter `T` or `t` the time
has a zone; behind a date and spaces it has none. Seconds may have a fraction.
-/

set_option autoImplicit false

namespace Reckoner

namespace Yaml

/-- A number of one or two digits, and the text behind. -/
def shortNumber? : List Char → Option (Nat × List Char)
  | a :: b :: rest =>
    if !a.isDigit then none
    else if b.isDigit then some (Literal.valueOf 10 [a, b], rest)
    else some (Literal.valueOf 10 [a], b :: rest)
  | [a] => if a.isDigit then some (Literal.valueOf 10 [a], []) else none
  | [] => none

/-- The text behind a character, if it is the given one. -/
def behind? (c : Char) : List Char → Option (List Char)
  | first :: rest => if first == c then some rest else none
  | [] => none

/-- Whether a year has a day more. -/
def isLeapYear (year : Nat) : Bool :=
  year % 4 == 0 && (year % 100 != 0 || year % 400 == 0)

/-- The number of days of a month, counted from one. -/
def daysIn (year month : Nat) : Nat :=
  if month == 2 then (if isLeapYear year then 29 else 28)
  else if [4, 6, 9, 11].contains month then 30
  else 31

/-- The text behind a date. -/
def behindDate? (chars : List Char) : Option (List Char) := do
  let digits := chars.takeWhile Char.isDigit
  if digits.length ≠ 4 then none
  else
    let year := Literal.valueOf 10 digits
    let rest ← behind? '-' (chars.drop 4)
    let (month, rest) ← shortNumber? rest
    let rest ← behind? '-' rest
    let (day, rest) ← shortNumber? rest
    if 1 ≤ month && month ≤ 12 && 1 ≤ day && day ≤ daysIn year month then some rest else none

/-- The text behind a fraction of a second, if there is one. -/
def behindFraction : List Char → List Char
  | mark :: digit :: rest =>
    if (mark == '.' || mark == ',') && digit.isDigit then rest.dropWhile Char.isDigit
    else mark :: digit :: rest
  | chars => chars

/-- The text behind a time of the day. -/
def behindTime? (chars : List Char) : Option (List Char) := do
  let (hour, rest) ← shortNumber? chars
  let rest ← behind? ':' rest
  let (minute, rest) ← shortNumber? rest
  let rest ← behind? ':' rest
  let (second, rest) ← shortNumber? rest
  if hour < 24 && minute < 60 && second < 60 then some (behindFraction rest) else none

/-- Whether a text is a zone: the letter `Z`, or a distance in hours and minutes. -/
def isZone : List Char → Bool
  | ['Z'] => true
  | [sign, h, i, ':', m, n] =>
    (sign == '+' || sign == '-') && [h, i, m, n].all Char.isDigit &&
      decide (Literal.valueOf 10 [h, i] ≤ 24 ∧ Literal.valueOf 10 [m, n] ≤ 60)
  | _ => false

/-- Whether a text is a point in time. -/
def isTimestamp (text : String) : Bool :=
  match behindDate? text.toList with
  | none => false
  | some [] => true
  | some (c :: rest) =>
    if c == 'T' || c == 't' then ((behindTime? rest).map isZone).getD false
    else if c == ' ' then behindTime? (rest.dropWhile (· == ' ')) == some []
    else false

end Yaml

end Reckoner
