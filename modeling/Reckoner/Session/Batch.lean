import Reckoner.Session.Basic
import Reckoner.Session.Lines

/-!
# Evaluating many lines

A batch runs given lines, then the lines of an input text if there is one, until a line ends the
session. It counts the lines that fail. The input is read line by line: a line that is too long
stops the batch when it is reached.
-/

set_option autoImplicit false

namespace Reckoner

namespace Session

/-- What several lines lead to. -/
structure BatchResult where
  session : Session
  more : Bool
  failed : Nat
  out : List Written
  errs : String
  /-- Whether reading the input failed. -/
  cutOff : Bool
  misplaced? : Option Palette.Misplacement

/-- What no lines lead to. -/
def BatchResult.unchanged (s : Session) : BatchResult :=
  ⟨s, true, 0, [], "", false, none⟩

/-- What lines lead to, and then further lines from the session after them. -/
def BatchResult.andThen (first : BatchResult) (further : Session → BatchResult) : BatchResult :=
  if first.more then
    let second := further first.session
    { second with failed := first.failed + second.failed, out := first.out ++ second.out,
                  errs := first.errs ++ second.errs
                  misplaced? := first.misplaced?.or second.misplaced? }
  else first

/-- What one line leads to. -/
def Turn.result (turn : Turn) : BatchResult :=
  ⟨turn.session, turn.more, if turn.fault?.isSome then 1 else 0, turn.out, turn.errs, false,
    turn.misplaced?⟩

/-- Runs lines until one ends the session. -/
def runAll (s : Session) : List String → BatchResult
  | [] => .unchanged s
  | line :: rest => (s.run line).result.andThen fun s ↦ s.runAll rest

/-- Runs the lines of an input until one ends the session or is too long to be read. -/
def runInput (s : Session) : List Lines.Piece → BatchResult
  | [] => .unchanged s
  | piece :: rest =>
    if Lines.tooLong piece.chars then { BatchResult.unchanged s with cutOff := true }
    else (s.run piece.line).result.andThen fun s ↦ s.runInput rest

/-- Runs given lines, then the lines of an input text. -/
def batch (s : Session) (lines : List String) (input? : Option String) : BatchResult :=
  (s.runAll lines).andThen fun s ↦
    match input? with
    | none => .unchanged s
    | some text => s.runInput (Lines.pieces text)

end Session

end Reckoner
