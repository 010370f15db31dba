import Reckoner.Yaml.Lexeme
import Reckoner.Yaml.Source

/-!
# Dividing a YAML text into lexemes

The text is divided from its beginning on, as far as lexemes are asked for. Outside of brackets, the
column of an entry tells which collections are open: a smaller column ends the collections that are
indented further, and a larger one begins a new one.

A scalar, a bracket, a tag or an anchor is remembered where a key may begin. If a colon follows on
the same line, the key is announced in front of it. Where an entry of a mapping must begin, the
colon is required. So a lexeme can be handed out only when it is known that no key begins with it;
the numbers of the lexemes where keys may begin are kept for that.

A pair of brackets with nothing to remember in it forgets that its first one may begin a key. That
bracket is handed out at once, and a key that is found later is announced behind what is there.
-/

set_option autoImplicit false

namespace Reckoner

namespace Yaml

/-- A place where a key may have begun. -/
structure PossibleKey where
  /-- Whether it still may have. -/
  possible : Bool
  /-- Whether it must have. -/
  required : Bool
  /-- The number of the lexeme that stands there. -/
  number : Nat
  index : Nat
  line : Nat
  column : Nat

/-- How far a key may reach. -/
def keyLimit : Nat := 1024

/-- How deep brackets, or block collections, may be nested. -/
def nestingLimit : Nat := 10000

/-- Whether a key that began here can end at a place: it is on the same line and not too long. -/
def PossibleKey.reaches (key : PossibleKey) (c : Cursor) : Bool :=
  decide (c.line ≤ key.line) && decide (c.index ≤ key.index + keyLimit)

/-- How far a text is divided. -/
structure Scan where
  cursor : Cursor
  broken : Bool
  /-- The number of characters of the first window if it begins with a mark, and zero otherwise. -/
  marked : Nat
  /-- The number of characters that were looked at. -/
  seen : Nat
  queue : List Lexeme
  handed : Nat
  /-- The columns of the open block collections, the innermost first. -/
  indents : List Nat
  depth : Nat
  /-- Where a key may have begun at each depth of brackets, the innermost first. -/
  keys : List PossibleKey
  /-- The lexemes where a key may begin, and their depths of brackets. -/
  heads : List (Nat × Nat)
  keyAllowed : Bool

namespace Scan

/-- Nothing is divided yet. -/
def start (source : Source) : Scan :=
  ⟨Cursor.start source.chars, source.broken, source.marked, 0, [], 0, [], 0,
    [⟨false, false, 0, 0, 0, 0⟩], [], true⟩

/-- Whether brackets are open. -/
def inFlow (s : Scan) : Bool :=
  decide (0 < s.depth)

/-- The column of the innermost block collection, `-1` without one. -/
def indent (s : Scan) : Int :=
  (s.indents.head?.map Int.ofNat).getD (-1)

/-- The number of the next lexeme. -/
def nextNumber (s : Scan) : Nat :=
  s.handed + s.queue.length

/-- Adds a lexeme that begins at a line counted from zero. -/
def push (s : Scan) (kind : LexemeKind) (line : Nat) : Scan :=
  { s with queue := s.queue ++ [⟨kind, line + 1⟩] }

/-- Adds a lexeme in front of the one with a number, or at the end if that one was handed out. -/
def insertAt (s : Scan) (number : Nat) (kind : LexemeKind) (line : Nat) : Scan :=
  if number < s.handed then s.push kind line
  else
    let position := number - s.handed
    { s with queue := s.queue.take position ++ ⟨kind, line + 1⟩ :: s.queue.drop position }

/-! ### Indentation -/

/-- The columns that stay open at a column, and how many are closed. -/
def closing (column : Int) : List Nat → List Nat × Nat
  | [] => ([], 0)
  | indent :: rest =>
    if column < indent then
      let (left, closed) := closing column rest
      (left, closed + 1)
    else (indent :: rest, 0)

/-- Ends the block collections that are indented further than a column. -/
def closeTo (s : Scan) (column : Int) : Scan :=
  if s.inFlow then s
  else
    let (left, closed) := closing column s.indents
    { s with indents := left,
             queue := s.queue ++ List.replicate closed ⟨.blockEnd, s.cursor.line + 1⟩ }

/-- Begins a block collection at a column, unless one is open there, in front of the lexeme with a
number; none if it is nested too deep. -/
def openBlock? (s : Scan) (column line number : Nat) (kind : LexemeKind) : Option Scan :=
  if s.inFlow || decide ((column : Int) ≤ s.indent) then some s
  else if nestingLimit ≤ s.indents.length then none
  else some { s.insertAt number kind line with indents := column :: s.indents }

/-- Begins a block collection at the cursor. -/
def openBlockHere? (s : Scan) (kind : LexemeKind) : Option Scan :=
  s.openBlock? s.cursor.column s.cursor.line s.nextNumber kind

/-! ### Keys -/

/-- Changes what is remembered inside of the innermost brackets. -/
def setKey (s : Scan) (key : PossibleKey) : Scan :=
  { s with keys := key :: s.keys.drop 1 }

/-- Forgets that a key may begin with the lexeme of a number. -/
def forget (s : Scan) (number : Nat) : Scan :=
  { s with heads := s.heads.filter fun head ↦ head.1 != number }

/-- Gives up that a key began inside of the innermost brackets; none if it had to be one. -/
def dropKey? (s : Scan) : Option Scan :=
  match s.keys with
  | [] => some s
  | key :: _ =>
    if !key.possible then some s
    else if key.required then none
    else some ((s.setKey { key with possible := false }).forget key.number)

/-- Remembers that a key may begin here. -/
def saveKey? (s : Scan) : Option Scan :=
  if !s.keyAllowed then some s
  else
    let c := s.cursor
    let required := !s.inFlow && s.indent == (c.column : Int)
    s.dropKey?.map fun s ↦
      let s := s.setKey ⟨true, required, s.nextNumber, c.index, c.line, c.column⟩
      { s.forget s.nextNumber with heads := (s.nextNumber, s.depth) :: s.heads }

/-- Whether a key that may have begun can still end here; none if it cannot and must. -/
def stillPossible? (s : Scan) (key : PossibleKey) : Option Bool :=
  if !key.possible then some false
  else if key.reaches s.cursor then some true
  else if key.required then none
  else some false

/-! ### White space and comments -/

/-- How many bytes are looked at in search of a comment. -/
def commentReach : Nat := 512

/-- The number of characters of a comment. Comments on the next lines belong to it, however they are
indented, and empty lines between them do not matter, but only line feeds are seen there. -/
def commentLength : Nat → List Char → Nat
  | 0, _ => 0
  | fuel + 1, chars =>
    let line := (chars.takeWhile fun ch ↦ !isBreak ch).length
    match chars.drop line with
    | '\n' :: behind =>
      let seen := behind.take (commentReach - 1)
      let gap := (seen.takeWhile fun ch ↦ isBlank ch || ch == '\n').length
      let ahead := behind.drop gap
      if gap + 1 < commentReach && ahead.head? == some '#' then
        line + 1 + gap + commentLength fuel ahead
      else line
    | _ => line

/-- Looks at a number of characters from the cursor on. -/
def look (s : Scan) (count : Nat) : Scan :=
  { s with seen := max s.seen (s.cursor.index + count) }

/-- The place behind a character that is taken for a mark. -/
def skipMark (s : Scan) : Scan :=
  if s.cursor.column == 0 && decide ((s.look 1).seen ≤ s.marked) then
    match s.cursor with
    | ⟨_ :: rest, left, index, line, column⟩ =>
      { s with cursor := ⟨rest, left - 1, index + 1, line, column + 1⟩ }
    | _ => s
  else s

/-- Goes to the next lexeme. A tab is white space only where no key may begin, or inside of
brackets. -/
def toNext : Nat → Scan → Scan
  | 0, s => s
  | fuel + 1, s =>
    let s := s.skipMark
    let tabs := s.inFlow || !s.keyAllowed
    let c := s.cursor.skipWhile fun ch ↦ ch == ' ' || (tabs && ch == '\t')
    let c := if c.rest.head? == some '#' then c.skip (commentLength c.left c.rest) else c
    if c.rest.head?.any isBreak then
      toNext fuel { s with cursor := c.next, keyAllowed := !s.inFlow || s.keyAllowed }
    else { s with cursor := c }

/-- Goes over a comment on the rest of the line behind a lexeme. -/
def skipComment (s : Scan) : Scan :=
  let blanks := s.cursor.rest.takeWhile isBlank
  let c := s.cursor.skip blanks.length
  if blanks.length < commentReach && c.rest.head? == some '#' then { s with cursor := c.skipLine }
  else s

/-! ### Lexemes -/

/-- Adds a lexeme of the given number of characters. -/
def take (s : Scan) (kind : LexemeKind) (count : Nat) : Scan :=
  { s.push kind s.cursor.line with cursor := s.cursor.skip count }

/-- Adds a lexeme that ends at a place behind which no key may begin. -/
def takeTo (s : Scan) (kind : LexemeKind) (c : Cursor) : Scan :=
  { s.push kind s.cursor.line with cursor := c, keyAllowed := false }

/-- A mark between documents, or a directive: it ends all block collections. -/
def takeOuter? (s : Scan) (kind : LexemeKind) (rest : List Char) : Option Scan :=
  ((s.closeTo (-1)).dropKey?).map fun s ↦ s.takeTo kind (s.cursor.advanceTo rest)

/-- An opening bracket; none if too many are open. -/
def takeOpening? (s : Scan) (kind : LexemeKind) : Option Scan :=
  s.saveKey?.bind fun s ↦
    if nestingLimit ≤ s.depth then none
    else
      let inner : PossibleKey :=
        ⟨false, false, s.nextNumber, s.cursor.index, s.cursor.line, s.cursor.column⟩
      some { s.take kind 1 with depth := s.depth + 1, keys := inner :: s.keys,
                                keyAllowed := true }.skipComment

/-- A closing bracket. What was remembered last inside of it is forgotten. -/
def takeClosing? (s : Scan) (kind : LexemeKind) : Option Scan :=
  s.dropKey?.map fun s ↦
    let s :=
      match s.keys with
      | inner :: outer :: further =>
        { s.forget inner.number with depth := s.depth - 1, keys := outer :: further }
      | _ => s
    { s.take kind 1 with keyAllowed := false }.skipComment

/-- A comma. -/
def takeSeparator? (s : Scan) : Option Scan :=
  s.dropKey?.map fun s ↦ { s.take .separator 1 with keyAllowed := true }.skipComment

/-- The dash in front of an entry. -/
def takeEntry? (s : Scan) : Option Scan :=
  if !s.inFlow && !s.keyAllowed then none
  else
    ((s.openBlockHere? .blockSequence).bind dropKey?).map fun s ↦
      { s.take .entry 1 with keyAllowed := true }

/-- The question mark in front of a key. -/
def takeKey? (s : Scan) : Option Scan :=
  if !s.inFlow && !s.keyAllowed then none
  else
    ((s.openBlockHere? .blockMapping).bind dropKey?).map fun s ↦
      { s.take .key 1 with keyAllowed := !s.inFlow }.skipComment

/-- The colon behind a key that began at a remembered place. -/
def takeValueOf? (s : Scan) (key : PossibleKey) : Option Scan :=
  let s := s.insertAt key.number .key key.line
  (s.openBlock? key.column key.line key.number .blockMapping).map fun s ↦
    let s := (s.setKey { key with possible := false }).forget key.number
    { s.take .value 1 with keyAllowed := false }.skipComment

/-- A colon in front of a value. -/
def takeValue? (s : Scan) : Option Scan :=
  match s.keys with
  | [] => none
  | key :: _ =>
    match s.stillPossible? key with
    | none => none
    | some true => s.takeValueOf? key
    | some false =>
      if !s.inFlow && !s.keyAllowed then none
      else
        ((s.setKey { key with possible := false }).openBlockHere? .blockMapping).map fun s ↦
          { s.take .value 1 with keyAllowed := !s.inFlow }.skipComment

/-- A tag, an anchor or a reference. -/
def takeName? (s : Scan) (found? : Option (LexemeKind × List Char)) : Option Scan :=
  match s.saveKey?, found? with
  | some s, some (kind, rest) => some (s.takeTo kind (s.cursor.advanceTo rest)).skipComment
  | _, _ => none

/-- A plain scalar. -/
def takePlain? (s : Scan) : Option Scan :=
  match s.saveKey?, plain? s.inFlow (s.indent + 1).toNat s.cursor with
  | some s, some plain =>
    let s := s.push (.scalar .plain plain.text) s.cursor.line
    let s := { s with cursor := plain.cursor, keyAllowed := plain.lineEnded }
    some (if plain.lineEnded then s else s.skipComment)
  | _, _ => none

/-- A quoted scalar. -/
def takeQuoted? (s : Scan) (quote : Char) : Option Scan :=
  match s.saveKey?, quoted? quote s.cursor with
  | some s, some (text, c) => some (s.takeTo (.scalar .quoted text) c).skipComment
  | _, _ => none

/-- A block scalar. -/
def takeBlock? (s : Scan) (literal : Bool) : Option Scan :=
  match s.dropKey?, block? literal s.indents.head? s.cursor with
  | some s, some (text, c) =>
    some { s.push (.scalar .block text) s.cursor.line with cursor := c, keyAllowed := true }
  | _, _ => none

/-- The end of the text, which is at the beginning of a line. -/
def takeEnd? (s : Scan) : Option Scan :=
  let c := s.cursor
  let c := if c.column == 0 then c else { c with line := c.line + 1, column := 0 }
  let s : Scan := { s with cursor := c }
  ((s.closeTo (-1)).dropKey?).map fun s ↦
    { s.push .streamEnd s.cursor.line with keyAllowed := false }

/-- Whether a plain scalar may begin with a character in front of the given rest. -/
def beginsPlain (inFlow : Bool) (c : Char) (rest : List Char) : Bool :=
  if c == '-' then !(rest.head?.any isBlank)
  else if c == '?' || c == ':' then !inFlow && !endsWord rest
  else !(isBlank c || isBreak c || ",[]\x7b\x7d#&*!|>\x27\"%@\x60".toList.contains c)

/-- The lexeme that begins at the cursor; none if there is no way to divide the text here. -/
def takeHere? (s : Scan) : Option Scan :=
  match s.cursor.rest with
  | [] => s.takeEnd?
  | c :: rest =>
    if s.cursor.column == 0 && c == '%' then
      (directive? rest).bind fun (kind, after) ↦ s.takeOuter? kind after
    else if s.cursor.atMark then
      s.takeOuter? (if c == '-' then .documentStart else .documentEnd) (rest.drop 2)
    else if c == '[' then s.takeOpening? .flowSequence
    else if c == '\x7b' then s.takeOpening? .flowMapping
    else if c == ']' then s.takeClosing? .flowSequenceEnd
    else if c == '\x7d' then s.takeClosing? .flowMappingEnd
    else if c == ',' then s.takeSeparator?
    else if c == '-' && endsWord rest then s.takeEntry?
    else if c == '?' && (s.inFlow || endsWord rest) then s.takeKey?
    else if c == ':' && (s.inFlow || endsWord rest) then s.takeValue?
    else if c == '*' then
      s.takeName? ((anchorName? rest).map fun (name, after) ↦ (.reference name, after))
    else if c == '&' then
      s.takeName? ((anchorName? rest).map fun (name, after) ↦ (.anchor name, after))
    else if c == '!' then s.takeName? (tag? rest)
    else if c == '|' && !s.inFlow then s.takeBlock? true
    else if c == '>' && !s.inFlow then s.takeBlock? false
    else if c == '\x27' || c == '"' then s.takeQuoted? c
    else if beginsPlain s.inFlow c rest then s.takePlain?
    else none

/-- Whether as many characters as told can be read. -/
def canRead (s : Scan) (chars : List Char) (count : Nat) : Bool :=
  !s.broken || decide (count ≤ chars.length)

/-- Adds the next lexeme; none if the text cannot be divided, or not be read so far. -/
def next? (s : Scan) : Option Scan :=
  let s := toNext (s.cursor.left + 1) s
  let s := s.closeTo s.cursor.column
  if !s.canRead s.cursor.rest lookahead then none
  else
    match (s.look lookahead).takeHere? with
    | none => none
    | some s => if s.canRead (s.cursor.rest.dropWhile isBlank) 1 then some (s.look 1) else none

/-! ### Handing lexemes out -/

/-- The number of lexemes that are looked at behind one before it is handed out. -/
def lexemesBehind : Nat := 2

/-- Changes what is remembered at a depth of brackets. -/
def setKeyAt (s : Scan) (depth : Nat) (key : PossibleKey) : Scan :=
  { s with keys := s.keys.set (s.depth - depth) key }

/-- Whether the first lexeme of the queue can be handed out, as far as keys are concerned: none may
begin with it. None if one must and did not. A key that cannot end any more is given up, but its
lexeme is still known for one where a key may begin. -/
def settleHead? (s : Scan) : Option (Bool × Scan) :=
  match s.heads.lookup s.handed with
  | none => some (true, s)
  | some depth =>
    match s.keys[s.depth - depth]? with
    | none => some (true, s)
    | some key =>
      match s.stillPossible? key with
      | none => none
      | some true => some (false, s)
      | some false => some (true, s.setKeyAt depth { key with possible := false })

/-- Divides the text until the first lexeme of the queue can be handed out. -/
def fill? : Nat → Scan → Option Scan
  | 0, _ => none
  | fuel + 1, s =>
    if s.queue.length ≤ lexemesBehind then s.next?.bind (fill? fuel)
    else
      match s.settleHead? with
      | none => none
      | some (true, s) => some s
      | some (false, s) => s.next?.bind (fill? fuel)

/-- The first lexeme that is not handed out yet. -/
def peek? (s : Scan) : Option (Lexeme × Scan) :=
  match s.fill? (s.cursor.left + 2 * lexemesBehind + 2) with
  | none => none
  | some s => s.queue.head?.map fun lexeme ↦ (lexeme, s)

/-- Hands the first lexeme out. -/
def pop (s : Scan) : Scan :=
  { s.forget s.handed with queue := s.queue.drop 1, handed := s.handed + 1 }

end Scan

end Yaml

end Reckoner
