import Reckoner.Text.Utf8
import Reckoner.Yaml.Scalar

/-!
# Lexemes of a YAML text

A YAML text is divided into lexemes: indicators, scalars, and the beginnings and ends of the
collections that indentation delimits. A collection is begun by the lexeme in front of its first
entry; a key is announced in front of it although only the colon behind it tells that it is one.
-/

set_option autoImplicit false

namespace Reckoner

namespace Yaml

/-- What a lexeme is. -/
inductive LexemeKind where
  | version (major minor : Nat)
  /-- A handle for tags that a document declares. -/
  | handle (name uri : List Char)
  | documentStart
  | documentEnd
  | blockSequence
  | blockMapping
  | blockEnd
  | flowSequence
  | flowSequenceEnd
  | flowMapping
  | flowMappingEnd
  /-- The dash in front of an entry of a block sequence. -/
  | entry
  /-- The comma between the entries of a flow collection. -/
  | separator
  | key
  | value
  | reference (name : List Char)
  | anchor (name : List Char)
  | tag (handle suffix : List Char)
  | scalar (style : ScalarStyle) (text : List Char)
  | streamEnd
  deriving DecidableEq, Repr

/-- A lexeme and the line that it begins on, counted from one. -/
structure Lexeme where
  kind : LexemeKind
  line : Nat
  deriving DecidableEq, Repr

/-! ### Names and tags -/

/-- Whether a character may stand in the name of an anchor. -/
def isNameChar (c : Char) : Bool :=
  c.isAlphanum || c == '_' || c == '-'

/-- Whether a text may follow the name of an anchor. -/
def endsName (rest : List Char) : Bool :=
  endsWord rest || (rest.head?.any fun c ↦ "?:,]\x7d%@\x60".toList.contains c)

/-- The name behind the indicator of an anchor or a reference, and the text behind. -/
def anchorName? (chars : List Char) : Option (List Char × List Char) :=
  let name := chars.takeWhile isNameChar
  let rest := chars.dropWhile isNameChar
  if name.isEmpty || !endsName rest then none else some (name, rest)

/-- Whether a character may stand in the address of a tag as it is. -/
def isUriChar (c : Char) : Bool :=
  isNameChar c || ";/?:@&=+$,.!~*\x27()[]".toList.contains c

/-- The number of bytes of a character behind its first one; none if it cannot be a first one. -/
def bytesBehind? (byte : Nat) : Option Nat :=
  if byte < 0x80 then some 0
  else if 0xc0 ≤ byte && byte < 0xe0 then some 1
  else if 0xe0 ≤ byte && byte < 0xf0 then some 2
  else if 0xf0 ≤ byte && byte < 0xf8 then some 3
  else none

/-- The address of a tag, and the text behind. A byte may be written as a percent sign and two
hexadecimal digits; those of a character then stand together, and `pending` of them are missing
yet. -/
def uri? (pending : Nat) : List Char → Option (List UInt8 × List Char)
  | '%' :: a :: b :: rest =>
    let byte := Literal.valueOf 16 [a, b]
    if !(Literal.isHexDigit a && Literal.isHexDigit b) then none
    else
      let pending? :=
        if pending = 0 then bytesBehind? byte
        else if 0x80 ≤ byte && byte < 0xc0 then some (pending - 1)
        else none
      match pending? with
      | none => none
      | some pending =>
        (uri? pending rest).map fun (bytes, after) ↦ (UInt8.ofNat byte :: bytes, after)
  | c :: rest =>
    if pending ≠ 0 || c == '%' then none
    else if isUriChar c then
      (uri? 0 rest).map fun (bytes, after) ↦ (UInt8.ofNat c.toNat :: bytes, after)
    else some ([], c :: rest)
  | [] => if pending = 0 then some ([], []) else none

/-- The address of a tag as a text, and the text behind. -/
def address? (chars : List Char) : Option (List Char × List Char) :=
  (uri? 0 chars).map fun (bytes, rest) ↦ ((Text.ofBytes bytes).toList, rest)

/-- A tag in angle brackets, from the opening one on. -/
def verbatimTag? (chars : List Char) : Option (LexemeKind × List Char) :=
  match address? (chars.drop 1) with
  | some (suffix, '>' :: rest) => if suffix.isEmpty then none else some (.tag [] suffix, rest)
  | _ => none

/-- A tag behind its exclamation mark: a handle between two marks and a suffix, or a suffix alone.
The lone mark is a tag too. -/
def shorthandTag? (chars : List Char) : Option (LexemeKind × List Char) :=
  let word := chars.takeWhile isNameChar
  match chars.dropWhile isNameChar with
  | '!' :: rest =>
    match address? rest with
    | some (suffix, after) =>
      if suffix.isEmpty then none else some (.tag ('!' :: word ++ ['!']) suffix, after)
    | none => none
  | rest =>
    match address? rest with
    | some (more, after) =>
      if word.isEmpty && more.isEmpty then some (.tag [] ['!'], after)
      else some (.tag ['!'] (word ++ more), after)
    | none => none

/-- A tag, given the text behind its first exclamation mark, and the text behind. A blank or the end
of a line must follow. -/
def tag? (chars : List Char) : Option (LexemeKind × List Char) :=
  let found := if chars.head? == some '<' then verbatimTag? chars else shorthandTag? chars
  found.filter fun (_, rest) ↦ endsWord rest

/-! ### Directives -/

/-- A number of one or two digits, and the text behind. -/
def versionPart? (chars : List Char) : Option (Nat × List Char) :=
  let digits := chars.takeWhile Char.isDigit
  if digits.isEmpty || 2 < digits.length then none
  else some (Literal.valueOf 10 digits, chars.dropWhile Char.isDigit)

/-- The version that a directive declares. -/
def versionDirective? (chars : List Char) : Option (LexemeKind × List Char) :=
  match versionPart? (chars.dropWhile isBlank) with
  | some (major, '.' :: rest) =>
    (versionPart? rest).map fun (minor, after) ↦ (.version major minor, after)
  | _ => none

/-- The handle that a directive declares, and what it stands for. -/
def handleDirective? (chars : List Char) : Option (LexemeKind × List Char) :=
  match chars.dropWhile isBlank with
  | '!' :: rest =>
    let word := rest.takeWhile isNameChar
    let name? :=
      match rest.dropWhile isNameChar with
      | '!' :: after => some ('!' :: word ++ ['!'], after)
      | after => if word.isEmpty then some (['!'], after) else none
    match name? with
    | none => none
    | some (name, after) =>
      if !(after.head?.any isBlank) then none
      else
        (address? (after.dropWhile isBlank)).bind fun (uri, final) ↦
          if uri.isEmpty || !endsWord final then none else some (.handle name uri, final)
  | _ => none

/-- A directive behind its percent sign, and the text at the end of its line. Only a comment may
follow it there. -/
def directive? (chars : List Char) : Option (LexemeKind × List Char) :=
  let name := chars.takeWhile isNameChar
  let rest := chars.dropWhile isNameChar
  let found :=
    if name == "YAML".toList && endsWord rest then versionDirective? rest
    else if name == "TAG".toList && endsWord rest then handleDirective? rest
    else none
  found.bind fun (kind, rest) ↦
    let rest := rest.dropWhile isBlank
    let rest := if rest.head? == some '#' then rest.dropWhile fun ch ↦ !isBreak ch else rest
    if endsLine rest then some (kind, rest.drop 1) else none

end Yaml

end Reckoner
