import Reckoner.Integer
import Reckoner.Text.Base64
import Reckoner.Text.Utf8
import Reckoner.Yaml.Node
import Reckoner.Yaml.Timestamp

/-!
# What YAML scalars mean

A plain scalar without a tag is null, a truth value, an integer, a number with a fraction or an
exponent, or else a text. A quoted or block scalar is a text. A tag of the core set asks for one of
these meanings, or for a point in time or bytes, which count as texts here; a scalar that cannot
have the meaning is an error. Other tags ask for a text.
-/

set_option autoImplicit false

namespace Reckoner

namespace Yaml

/-- What a scalar means. -/
inductive Meaning where
  | null
  | truth (value : Bool)
  | integer (value : Int)
  | number (value : Binary64)
  | text
  deriving DecidableEq

namespace Meaning

/-- The words with a meaning of their own. -/
def ofWord? (word : String) : Option Meaning :=
  if ["", "~", "null", "Null", "NULL"].contains word then some .null
  else if ["true", "True", "TRUE"].contains word then some (.truth true)
  else if ["false", "False", "FALSE"].contains word then some (.truth false)
  else if [".nan", ".NaN", ".NAN"].contains word then some (.number .nan)
  else if [".inf", ".Inf", ".INF", "+.inf", "+.Inf", "+.INF"].contains word then
    some (.number Binary64.infinity)
  else if ["-.inf", "-.Inf", "-.INF"].contains word then
    some (.number (Binary64.ofNumber Number.infinity.neg))
  else none

/-- A literal that is a finite number. -/
def ofLiteral? (literal? : Option Literal) : Option Meaning :=
  match literal?.map Literal.toBinary64 with
  | some (.number x fits) =>
    if x.isInfinite then none else some (.number (.number x fits))
  | _ => none

/-- An integer with any underscores, with a sign or as large as one without may be. -/
def ofInteger? (chars : List Char) : Option Meaning :=
  match Integer.readSigned chars with
  | .ok value => some (.integer value)
  | .error _ =>
    match Integer.readUnsigned chars with
    | .ok value => some (.integer value)
    | .error _ => none

/-- An integer with a sign in the given base. -/
def ofDigits? (base : Nat) (chars : List Char) : Option Meaning :=
  let (negative, digits) := Literal.splitSign chars
  match digits, Integer.extend base 0 digits with
  | _ :: _, .ok value =>
    if negative then
      if value ≤ Nat.pow 2 63 then some (.integer (-value)) else none
    else if value < Nat.pow 2 63 then some (.integer value)
    else none
  | _, _ => none

/-- An integer in base two or eight whose sign stands behind the mark of the base. -/
def ofMarked? : List Char → Option Meaning
  | '0' :: 'b' :: rest => ofDigits? 2 rest
  | '0' :: 'o' :: rest => ofDigits? 8 rest
  | '-' :: '0' :: 'b' :: rest => ofDigits? 2 ('-' :: rest)
  | '-' :: '0' :: 'o' :: rest => ofDigits? 8 ('-' :: rest)
  | _ => none

/-- A number that begins with a digit or a sign. -/
def ofNumeral? (chars : List Char) : Option Meaning :=
  let plain := chars.filter (· ≠ '_')
  let (negative, body) := Literal.splitSign plain
  ((ofInteger? plain).or (ofLiteral? (Literal.decimal? negative body))).or (ofMarked? plain)

/-- The meaning of a plain scalar without a tag. -/
def ofPlain (text : String) : Meaning :=
  match ofWord? text with
  | some meaning => meaning
  | none =>
    match text.toList with
    | [] => .null
    | c :: rest =>
      let number? :=
        if c == '.' then ofLiteral? (Literal.number? (c :: rest))
        else if c.isDigit || c == '+' || c == '-' then ofNumeral? (c :: rest)
        else none
      number?.getD .text

/-- The meaning that a tag asks for, given the one without it; none if they do not agree. -/
def tagged? (tag : String) (meaning : Meaning) : Option Meaning :=
  match tag, meaning with
  | "!!null", .null => some .null
  | "!!null", _ => none
  | "!!bool", .truth value => some (.truth value)
  | "!!bool", _ => none
  | "!!int", .integer value => some (.integer value)
  | "!!int", _ => none
  | "!!float", .number value => some (.number value)
  | "!!float", .integer value =>
    if value < (Nat.pow 2 63 : Nat) then some (.number (Binary64.ofInt value)) else none
  | "!!float", _ => none
  | _, _ => some .text

end Meaning

/-- A scalar by its meaning and the text that it stands for where a text is wanted. -/
structure Resolved where
  meaning : Meaning
  text : String
  deriving DecidableEq

/-- What a scalar stands for; none if its tag does not fit it. -/
def resolve? (tag? : Option String) (style : ScalarStyle) (text : String) : Option Resolved :=
  match tag? with
  | none => some ⟨if style = .plain then Meaning.ofPlain text else .text, text⟩
  | some "!!binary" => (Text.base64? text).map fun bytes ↦ ⟨.text, Text.ofBytes bytes⟩
  | some "!!timestamp" => if isTimestamp text then some ⟨.text, text⟩ else none
  | some tag => (Meaning.tagged? tag (Meaning.ofPlain text)).map fun meaning ↦ ⟨meaning, text⟩

end Yaml

end Reckoner
