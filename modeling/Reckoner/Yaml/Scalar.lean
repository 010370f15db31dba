import Reckoner.Literal
import Reckoner.Yaml.Cursor

/-!
# Reading YAML scalars

A scalar is written plain, in single or double quotes, or as an indented block. In plain and quoted
scalars a single line break stands for a space and each further one for itself; a folded block joins
its lines the same way unless they begin with a blank, and a literal block keeps them.

The functions that go through a text in steps of several characters carry a bound on their steps;
the length of the text is always enough.
-/

set_option autoImplicit false

namespace Reckoner

namespace Yaml

/-- How a scalar is written. -/
inductive ScalarStyle where
  | plain
  | quoted
  | block
  deriving DecidableEq, Repr

/-- What line breaks between two lines of text stand for. -/
def folded : List Char → List Char
  | [] => []
  | ['\n'] => [' ']
  | '\n' :: more => more
  | breaks => breaks

/-! ### Plain scalars -/

/-- Whether a character ends a plain scalar in front of the given rest. -/
def endsPlain (inFlow : Bool) (c : Char) (rest : List Char) : Bool :=
  (c == ':' && endsWord rest) ||
    (inFlow && ",?[]\x7b\x7d".toList.contains c)

/-- The part of a plain scalar on the current line, and the number of characters up to its end or
to the text behind. `blanks` are those right before, the last one first, which belong to the scalar
only if more of it follows. -/
def plainLine (inFlow : Bool) (blanks : List Char) : List Char → List Char × Nat
  | [] => ([], 0)
  | c :: rest =>
    if isBreak c then ([], 0)
    else if isBlank c then
      let (text, count) := plainLine inFlow (c :: blanks) rest
      (text, count + 1)
    else if (c == '#' && !blanks.isEmpty) || endsPlain inFlow c rest then ([], 0)
    else
      let (text, count) := plainLine inFlow [] rest
      (blanks.reverse ++ c :: text, count + 1)

/-- The line breaks up to the next text, and the number of characters there; none if a tab stands
where indentation is wanted. -/
def plainGap? (indent column : Nat) : List Char → Option (List Char × Nat)
  | [] => some ([], 0)
  | c :: rest =>
    if isBreak c then
      (plainGap? indent 0 rest).map fun (breaks, count) ↦ (breakText c :: breaks, count + 1)
    else if isBlank c then
      if c == '\t' && column < indent then none
      else (plainGap? indent (column + 1) rest).map fun (breaks, count) ↦ (breaks, count + 1)
    else some ([], 0)

/-- A plain scalar, whether it was left at the beginning of a further line, and the place behind. -/
structure Plain where
  text : List Char
  /-- Whether a line break stands between the scalar and the place behind. -/
  lineEnded : Bool
  cursor : Cursor

/-- What a plain scalar has behind the end of one of its lines. -/
def plainFrom? (inFlow : Bool) (indent : Nat) : Nat → Cursor → Option Plain
  | 0, c => some ⟨[], false, c⟩
  | fuel + 1, c =>
    if !(c.rest.head?.any isBreak) then some ⟨[], false, c⟩
    else
      match plainGap? indent c.column c.rest with
      | none => none
      | some (breaks, gap) =>
        let c := c.skip gap
        let (line, count) := plainLine inFlow [] c.rest
        let ended := (!inFlow && decide (c.column < indent)) || c.atMark ||
          c.rest.head? == some '#' || line.isEmpty
        if ended then some ⟨[], true, c⟩
        else
          (plainFrom? inFlow indent fuel (c.skip count)).map fun further ↦
            { further with text := folded breaks ++ line ++ further.text }

/-- Reads a plain scalar whose lines are indented by at least `indent`. -/
def plain? (inFlow : Bool) (indent : Nat) (c : Cursor) : Option Plain :=
  let (line, count) := plainLine inFlow [] c.rest
  (plainFrom? inFlow indent c.left (c.skip count)).map fun further ↦
    { further with text := line ++ further.text }

/-! ### Quoted scalars -/

/-- The number of hexadecimal digits behind an escape character. -/
def escapeDigits? : Char → Option Nat
  | 'x' => some 2
  | 'u' => some 4
  | 'U' => some 8
  | _ => none

/-- The character that an escape character stands for. -/
def escaped? : Char → Option Char
  | '0' => some '\x00'
  | 'a' => some '\x07'
  | 'b' => some '\x08'
  | 't' => some '\t'
  | '\t' => some '\t'
  | 'n' => some '\n'
  | 'v' => some '\x0b'
  | 'f' => some '\x0c'
  | 'r' => some '\r'
  | 'e' => some '\x1b'
  | ' ' => some ' '
  | '"' => some '"'
  | '\x27' => some '\x27'
  | '\\' => some '\\'
  | 'N' => some '\u0085'
  | '_' => some '\u00a0'
  | 'L' => some '\u2028'
  | 'P' => some '\u2029'
  | _ => none

/-- The character of an escape, given the text behind the backslash, and the number of characters
that it is written with there. -/
def escape? : List Char → Option (Char × Nat)
  | [] => none
  | c :: rest =>
    match escapeDigits? c with
    | none => (escaped? c).map fun ch ↦ (ch, 1)
    | some count =>
      let digits := rest.take count
      let code := Literal.valueOf 16 digits
      if digits.length = count ∧ digits.all Literal.isHexDigit ∧ code.isValidChar then
        some (Char.ofNat code, count + 1)
      else none

/-- Whether a character is a blank or breaks a line. -/
def isGap (c : Char) : Bool :=
  isBlank c || isBreak c

/-- What a gap inside of quotes stands for. After an escaped line break its blanks stand for
nothing, and its line breaks for themselves. -/
def joined (afterBreak : Bool) (gap : List Char) : List Char :=
  let breaks := (gap.filter isBreak).map breakText
  if afterBreak then breaks
  else if breaks.isEmpty then gap
  else folded breaks

/-- The text of a quoted scalar up to its closing quote, and the place behind. There is none if the
text ends first, a mark between documents begins a line, or an escape is unknown. -/
def quotedFrom? (quote : Char) : Nat → Cursor → Option (List Char × Cursor)
  | 0, _ => none
  | fuel + 1, c =>
    if c.atMark then none
    else
      match c.rest with
      | [] => none
      | ch :: rest =>
        if ch == '\x27' && quote == '\x27' && rest.head? == some '\x27' then
          (quotedFrom? quote fuel (c.skip 2)).map fun (text, after) ↦ ('\x27' :: text, after)
        else if ch == quote then some ([], c.next)
        else if ch == '\\' && quote == '"' then
          if rest.head?.any isBreak then
            let gap := (rest.drop 1).takeWhile isGap
            (quotedFrom? quote fuel (c.skip (gap.length + 2))).map fun (text, after) ↦
              (joined true gap ++ text, after)
          else
            match escape? rest with
            | none => none
            | some (e, count) =>
              (quotedFrom? quote fuel (c.skip (count + 1))).map fun (text, after) ↦
                (e :: text, after)
        else if isGap ch then
          let gap := c.rest.takeWhile isGap
          (quotedFrom? quote fuel (c.skip gap.length)).map fun (text, after) ↦
            (joined false gap ++ text, after)
        else (quotedFrom? quote fuel c.next).map fun (text, after) ↦ (ch :: text, after)

/-- Reads a quoted scalar from its opening quote on. -/
def quoted? (quote : Char) (c : Cursor) : Option (List Char × Cursor) :=
  quotedFrom? quote c.left c.next

/-! ### Block scalars -/

/-- What becomes of the line breaks at the end of a block. -/
inductive Chomping where
  | strip
  | clip
  | keep
  deriving DecidableEq, Repr

/-- The header of a block scalar. -/
structure BlockHeader where
  /-- What becomes of the line breaks at the end. -/
  chomping : Chomping
  /-- The indentation relative to the surrounding block, zero if the text shows it. -/
  increment : Nat

/-- The chomping that a character asks for. -/
def chomping? : Char → Option Chomping
  | '-' => some .strip
  | '+' => some .keep
  | _ => none

/-- The indentation that a character asks for; it is not zero. -/
def increment? (c : Char) : Option Nat :=
  if '1' ≤ c && c ≤ '9' then some (c.toNat - '0'.toNat) else none

/-- The header behind the indicator of a block, in either order, and the text behind. -/
def blockHeader : List Char → BlockHeader × List Char
  | [] => (⟨.clip, 0⟩, [])
  | c :: rest =>
    match chomping? c, increment? c with
    | some chomping, _ =>
      match rest.head?.bind increment? with
      | some n => (⟨chomping, n⟩, rest.drop 1)
      | none => (⟨chomping, 0⟩, rest)
    | none, some n =>
      match rest.head?.bind chomping? with
      | some chomping => (⟨chomping, n⟩, rest.drop 1)
      | none => (⟨.clip, n⟩, rest)
    | none, none => (⟨.clip, 0⟩, c :: rest)

/-- What stands in front of a line of a block. -/
structure BlockGap where
  breaks : List Char
  /-- The greatest column that was reached. -/
  widest : Nat
  column : Nat
  rest : List Char

/-- Goes over indentation and empty lines; an indentation of zero is not known yet. There is none if
a tab stands where indentation is wanted. -/
def blockGap? (indent column widest : Nat) : List Char → Option BlockGap
  | [] => some ⟨[], max widest column, column, []⟩
  | c :: rest =>
    let within := decide (indent = 0 ∨ column < indent)
    if within && c == ' ' then blockGap? indent (column + 1) widest rest
    else if within && c == '\t' then none
    else if isBreak c then
      (blockGap? indent 0 (max widest column) rest).map fun gap ↦
        { gap with breaks := breakText c :: gap.breaks }
    else some ⟨[], max widest column, column, c :: rest⟩

/-- The lines of a block from one of its lines on: the text, its last line break, the empty lines
behind, and the rest. `join` is the break in front of the line and `breaks` are the empty lines
between. -/
def blockLines? (literal : Bool) (indent : Nat) :
    Nat → (join breaks : List Char) → (blankBefore : Bool) → BlockGap →
      Option (List Char × List Char × List Char × List Char)
  | 0, join, breaks, _, gap => some ([], join, breaks, gap.rest)
  | fuel + 1, join, breaks, blankBefore, gap =>
    match gap.rest with
    | [] => some ([], join, breaks, [])
    | c :: _ =>
      if gap.column ≠ indent then some ([], join, breaks, gap.rest)
      else
        let blank := isBlank c
        let front :=
          if !literal && !blankBefore && !blank && join == ['\n'] then
            if breaks.isEmpty then [' '] else breaks
          else join ++ breaks
        let line := gap.rest.takeWhile fun ch ↦ !isBreak ch
        let after := gap.rest.dropWhile fun ch ↦ !isBreak ch
        match blockGap? indent 0 0 (after.drop 1) with
        | none => none
        | some gap =>
          let join := (after.take 1).map breakText
          (blockLines? literal indent fuel join gap.breaks blank gap).map
            fun (text, last, tail, rest) ↦ (front ++ line ++ text, last, tail, rest)

/-- What is kept of the line breaks at the end of a block. -/
def Chomping.ending (chomping : Chomping) (last tail : List Char) : List Char :=
  match chomping with
  | .strip => []
  | .clip => last
  | .keep => last ++ tail

/-- Reads a block scalar from its indicator on. `outer` is the indentation of the block around it,
if there is one. -/
def block? (literal : Bool) (outer? : Option Nat) (c : Cursor) : Option (List Char × Cursor) :=
  let (header, rest) := blockHeader (c.rest.drop 1)
  let rest := rest.dropWhile isBlank
  let rest := if rest.head? == some '#' then rest.dropWhile fun ch ↦ !isBreak ch else rest
  if !endsLine rest then none
  else
    let given := if header.increment = 0 then 0 else outer?.getD 0 + header.increment
    match blockGap? given 0 0 (rest.drop 1) with
    | none => none
    | some gap =>
      let least := match outer? with
        | some outer => outer + 1
        | none => 1
      let indent := if given = 0 then max gap.widest least else given
      match blockLines? literal indent (rest.length + 1) [] gap.breaks false gap with
      | none => none
      | some (text, last, tail, rest) =>
        some (text ++ header.chomping.ending last tail, c.advanceTo rest)

end Yaml

end Reckoner
