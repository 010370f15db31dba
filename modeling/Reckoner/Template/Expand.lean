import Reckoner.Template.Figure
import Reckoner.Template.Record

/-!
# Result templates

A template is text with directives: a percent sign, flags, an optional width, an optional precision
and a verb. Expanding a template with a number writes the number at each directive. The number is
the only argument: a second directive has none left, unless it names the first argument by a
bracketed index, and a template that never uses the number says so at its end.

A directive that makes no sense is written out as a complaint in the text; expanding never fails.
-/

set_option autoImplicit false

namespace Reckoner

namespace Template

/-! ### Trailing zeros -/

/-- Where the digits of a number end and its exponent begins. -/
def isExponentMark (verb c : Char) : Bool :=
  c = 'p' || c = 'P' || ((c = 'e' || c = 'E') && verb ≠ 'x' && verb ≠ 'X')

/-- The number of significant digits in front of the exponent, leading zeros not counted. -/
def significant (body : List Char) : Nat :=
  ((body.filter (· ≠ '.')).dropWhile (· = '0')).length

/-- A number with a decimal point and its trailing zeros kept: as many digits as the precision asks
for, six if it asks for none, and no fewer than it had. -/
def keepZeros (verb : Char) (precision : Option Nat) (text : List Char) : List Char :=
  let body := text.takeWhile (!isExponentMark verb ·)
  let tail := text.dropWhile (!isExponentMark verb ·)
  let wanted := if verb = 'g' || verb = 'G' || verb = 'x' then precision.getD 6 else 0
  let pointed := body.contains '.'
  let shown := significant body + (if !pointed && body = ['0'] then 1 else 0)
  (if pointed then body else body ++ ['.']) ++ List.replicate (wanted - shown) '0' ++ tail

/-! ### Numbers by directive -/

/-- The sign in front of a number that is not negative. -/
def positiveSign (flags : Flags) : List Char :=
  if flags.plus then ['+'] else if flags.space then [' '] else []

/-- A 64-bit number by a directive and a verb, or none if the verb is not one of numbers. -/
def plainText? (d : Directive) (verb : Char) (x : Binary64) : Option (List Char) :=
  match x with
  | .nan =>
    ((Figure.ofPlain .zero).plainVerb? verb d.precision).map fun _ ↦
      d.padWith false (positiveSign d.flags ++ "NaN".toList)
  | .number ⟨negative, .infinite⟩ _ =>
    ((Figure.ofPlain .zero).plainVerb? verb d.precision).map fun _ ↦
      let sign := if negative then '-' else if d.flags.space && !d.flags.plus then ' ' else '+'
      d.padWith false (sign :: "Inf".toList)
  | .number ⟨negative, size⟩ _ =>
    ((Figure.ofPlain size).plainVerb? verb d.precision).map fun body ↦
      let body :=
        if d.flags.sharp && verb ≠ 'b' then keepZeros verb d.precision body else body
      d.padSigned d.zeroPads (if negative then ['-'] else positiveSign d.flags) body

/-- A wide number by a directive and a verb, or none if the verb is not one of numbers. Padding with
zeros comes before padding on the right here. -/
def wideText? (d : Directive) (verb : Char) (width : Nat) (x : Number) : Option (List Char) :=
  match x.size with
  | .infinite =>
    ((Figure.ofWide width .zero).wideVerb? width verb d.precision).map fun _ ↦
      let sign := if x.negative then '-' else if d.flags.space then ' ' else '+'
      d.padWith false (sign :: "Inf".toList)
  | size =>
    ((Figure.ofWide width size).wideVerb? width verb d.precision).map fun body ↦
      d.padSigned d.flags.zero (if x.negative then ['-'] else positiveSign d.flags) body

/-- The name of the kind of a number. -/
def kindName : Shown → String
  | .plain _ => "float64"
  | .wide _ _ _ _ => "*big.Float"

/-- A number by a directive, as the verb `v` shows it. -/
def defaultText (d : Directive) : Shown → List Char
  | .plain x => (plainText? d 'g' x).getD []
  | .wide width x _ _ => (wideText? d 'v' width x).getD []

/-- The number of digits of a wide number in a complaint about its verb. -/
def complaintDigits : Nat := 10

/-- A wide number in a complaint about its verb. -/
def complaintText (width : Nat) (x : Number) : List Char :=
  match x.size with
  | .infinite => (infinityText x.negative).toList
  | size => withSign x.negative ((Figure.ofWide width size).general 'e' (some complaintDigits))

/-- A complaint about a verb, with what stands between its parentheses. -/
def complaint (verb : Char) (inside : List Char) : List Char :=
  ['%', '!', verb, '('] ++ inside ++ [')']

/-- An address by a directive. A number sign takes the mark of its digits away. -/
def addressText (d : Directive) (address : Nat) : List Char :=
  wholeText d (positiveSign d.flags) (if d.flags.sharp then [] else hexMark) 16 address

/-- A number by a directive and any verb. The verb `T` shows the kind of a number, and `p` the
address of a wide one. The verb `v` shows no plus in front of a 64-bit number; a verb that is not
one of numbers is complained about, and the complaint about `w` shows how a wide number is
stored. -/
def verbText (d : Directive) (verb : Char) (shown : Shown) : List Char :=
  if verb = 'T' then
    let name := (kindName shown).toList
    d.padWith d.zeroPads (match d.precision with | some count => name.take count | none => name)
  else
    match shown with
    | .plain x =>
      let d := if verb = 'v' || verb = 'w' then
        { d with flags := { d.flags with plus := false, sharp := false } } else d
      let verb' := if verb = 'v' then 'g' else verb
      (plainText? d verb' x).getD
        (complaint verb ((kindName shown).toList ++ '=' :: defaultText d shown))
    | .wide width x stored address =>
      if verb = 'p' then addressText d address
      else
        let inside :=
          if verb = 'w' then recordText d width stored.get else complaintText width x
        (wideText? d verb width x).getD (complaint verb ((kindName shown).toList ++ '=' :: inside))

/-! ### Reading directives -/

/-- Numbers above this one are too large to grow by another digit. -/
def greatestNumber : Nat := 1000000

/-- A decimal number at the start of a text, and the rest. A number that is too large takes the
whole text with it. -/
def scanNumber (value : Option Nat) : List Char → Option Nat × List Char
  | [] => (value, [])
  | c :: rest =>
    if c.isDigit then
      if greatestNumber < value.getD 0 then (none, [])
      else scanNumber (some (value.getD 0 * 10 + (c.toNat - '0'.toNat))) rest
    else (value, c :: rest)

/-- What a bracketed index leads to. -/
structure Index where
  argument : Nat
  rest : List Char
  /-- Whether an index was read. -/
  found : Bool
  /-- Whether there was a bracket at all. -/
  bracketed : Bool
  /-- Whether the index names an argument. -/
  good : Bool

/-- Reads a bracketed index, if there is one. There is one argument, with index one. -/
def scanIndex (argument : Nat) (chars : List Char) : Index :=
  match chars with
  | '[' :: rest =>
    let inside := rest.takeWhile (· ≠ ']')
    let behind := rest.dropWhile (· ≠ ']')
    if behind.isEmpty || chars.length < 3 then ⟨argument, rest, false, true, false⟩
    else
      match inside, scanNumber none inside with
      | _ :: _, (some n, []) =>
        if n = 1 then ⟨0, behind.drop 1, true, true, true⟩
        else ⟨argument, behind.drop 1, true, true, false⟩
      | _, _ => ⟨argument, behind.drop 1, false, true, false⟩
  | _ => ⟨argument, chars, false, false, true⟩

/-- The flag that a character stands for, added to flags. -/
def addFlag (flags : Flags) (c : Char) : Flags :=
  match c with
  | '+' => { flags with plus := true }
  | '-' => { flags with minus := true }
  | '#' => { flags with sharp := true }
  | ' ' => { flags with space := true }
  | _ => { flags with zero := true }

/-- Whether a character is a flag. -/
def isFlag (c : Char) : Bool :=
  c = '+' || c = '-' || c = '#' || c = ' ' || c = '0'

/-- What has been read of a directive. -/
structure Reading where
  directive : Directive
  argument : Nat
  /-- Whether a bracketed index stands right before. -/
  afterIndex : Bool
  /-- Whether the indices read so far name an argument. -/
  good : Bool
  /-- Whether any bracketed index has been read. -/
  reordered : Bool
  complaints : List Char
  rest : List Char

namespace Reading

/-- Reads an index, if there is one. -/
def index (r : Reading) : Reading :=
  let i := scanIndex r.argument r.rest
  { r with argument := i.argument, rest := i.rest, afterIndex := i.found,
           good := r.good && i.good, reordered := r.reordered || i.bracketed }

/-- An argument that should be an integer: there is none, but it is used up. -/
def integerArgument (r : Reading) (complaint : String) (rest : List Char) : Reading :=
  { r with argument := if r.argument = 0 then 1 else r.argument,
           complaints := r.complaints ++ complaint.toList, afterIndex := false, rest := rest }

/-- Reads a width, if there is one. -/
def width (r : Reading) : Reading :=
  match r.rest with
  | '*' :: rest => r.integerArgument "%!(BADWIDTH)" rest
  | _ =>
    let (value, rest) := scanNumber none r.rest
    { r with directive := { r.directive with width := value }, rest := rest,
             good := r.good && !(r.afterIndex && value.isSome) }

/-- Reads a precision, if there is one. A point without a number is precision zero, but a point at
the end of the template is a verb. -/
def precision (r : Reading) : Reading :=
  match r.rest with
  | '.' :: next :: rest =>
    let r := ({ r with rest := next :: rest, good := r.good && !r.afterIndex }).index
    match r.rest with
    | '*' :: rest => r.integerArgument "%!(BADPREC)" rest
    | _ =>
      let (value, rest) := scanNumber none r.rest
      { r with directive := { r.directive with precision := some (value.getD 0) }, rest := rest }
  | _ => r

/-- Reads all of a directive but its verb, from behind the percent sign. -/
def ofChars (argument : Nat) (reordered : Bool) (chars : List Char) : Reading :=
  let flags := (chars.takeWhile isFlag).foldl addFlag Flags.none
  let start : Reading :=
    ⟨⟨flags, .none, .none⟩, argument, false, true, reordered, [], chars.dropWhile isFlag⟩
  let r := start.index.width.precision
  if r.afterIndex then r else r.index

end Reading

/-! ### Expanding -/

/-- The complaint at the end of a template that has not used the number. -/
def unused (argument : Nat) (reordered : Bool) (shown : Shown) : List Char :=
  if argument = 0 && !reordered then
    "%!(EXTRA ".toList ++ (kindName shown).toList ++
      '=' :: defaultText Directive.bare shown ++ [')']
  else []

/-- Whether a verb uses the number. -/
def usesNumber (r : Reading) (verb : Char) : Bool :=
  verb ≠ '%' && r.good && r.argument = 0

/-- The argument to use behind a verb. -/
def nextArgument (r : Reading) (verb : Char) : Nat :=
  if usesNumber r verb then 1 else r.argument

/-- What a verb writes. -/
def applyVerb (r : Reading) (verb : Char) (shown : Shown) : List Char :=
  if usesNumber r verb then verbText r.directive verb shown
  else if verb = '%' then ['%']
  else if r.good then complaint verb "MISSING".toList
  else complaint verb "BADINDEX".toList

/-- Expands the rest of a template, of at most `fuel` directives. -/
def expandFrom (shown : Shown) : Nat → Nat → Bool → List Char → List Char
  | 0, argument, reordered, chars => chars ++ unused argument reordered shown
  | fuel + 1, argument, reordered, chars =>
    let plain := chars.takeWhile (· ≠ '%')
    match chars.dropWhile (· ≠ '%') with
    | [] => plain ++ unused argument reordered shown
    | _ :: chars =>
      let r := Reading.ofChars argument reordered chars
      match r.rest with
      | [] => plain ++ r.complaints ++ "%!(NOVERB)".toList ++ unused r.argument r.reordered shown
      | verb :: rest =>
        plain ++ r.complaints ++ applyVerb r verb shown ++
          expandFrom shown fuel (nextArgument r verb) r.reordered rest

/-- A template with a number written at its directives. -/
def expand (template : String) (shown : Shown) : String :=
  String.ofList (expandFrom shown template.length 0 false template.toList)

/-- Whether the rest of a template, of at most `fuel` directives, shows the address of a wide
number. -/
def showsAddressFrom : Nat → Nat → Bool → List Char → Bool
  | 0, _, _, _ => false
  | fuel + 1, argument, reordered, chars =>
    match chars.dropWhile (· ≠ '%') with
    | [] => false
    | _ :: chars =>
      let r := Reading.ofChars argument reordered chars
      match r.rest with
      | [] => false
      | verb :: rest =>
        (verb = 'p' && usesNumber r verb) ||
          showsAddressFrom fuel (nextArgument r verb) r.reordered rest

/-- Whether a template shows the address of a wide number: one of its directives with the verb `p`
uses the number. -/
def showsAddress (template : String) : Bool :=
  showsAddressFrom template.length 0 false template.toList

end Template

end Reckoner
