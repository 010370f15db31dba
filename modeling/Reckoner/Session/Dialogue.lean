import Reckoner.Session.Basic
import Reckoner.Session.Lines
import Reckoner.Text.Control
import Reckoner.Text.Utf8

/-!
# Dialogues

A dialogue prompts for each line, evaluates it and goes on until a line ends the session or the
input does. A long line is read in portions, and each portion is a line of the dialogue. It may end
inside a character, so lines are sequences of bytes.

The dialogue keeps a history of the lines that did not end it: a line equal to the last entry is not
entered again, and only the last thousand entries stay. An earlier history is read up to the first
line that comes in portions or is no well-formed text.

A prompt with a control character cannot be shown; the dialogue then ends before its first line.
-/

set_option autoImplicit false

namespace Reckoner

namespace Session

/-! ### History -/

/-- The number of entries that a history keeps. -/
def historyLimit : Nat := 1000

/-- The lines of a dialogue, the oldest first. -/
abbrev History := List (List UInt8)

namespace History

/-- The last entries of a history. -/
def lastEntries (history : History) : History :=
  history.drop (history.length - historyLimit)

/-- Enters a line, unless it is the last entry. -/
def enter (history : History) (line : List UInt8) : History :=
  if history.getLast? = some line then history else lastEntries (history ++ [line])

/-- The bytes of a history, a line for each entry. -/
def toBytes (history : History) : List UInt8 :=
  history.flatMap (· ++ [10])

/-- The history that bytes hold. -/
def ofBytes (bytes : List UInt8) : History :=
  let readable := (Lines.portions bytes).takeWhile fun portion ↦
    !portion.cut && Text.isWellFormed portion.bytes
  lastEntries (readable.map Lines.Portion.bytes)

end History

/-! ### Prompting -/

/-- The description of a prompt that cannot be shown. -/
def invalidPromptMessage : String := "reading input: invalid prompt"

/-- What a dialogue leads to. -/
structure DialogueResult where
  session : Session
  history : History
  out : List Written
  errs : String
  error? : Option String

/-- The dialogue over lines, up to the line that ends it. -/
def talk (s : Session) (prompt : String) (history : History) :
    List (List UInt8) → DialogueResult
  | [] => ⟨s, history, [fun _ ↦ prompt], "", none⟩
  | line :: rest =>
    let turn := s.run (Text.ofBytes line)
    if turn.more then
      let further := turn.session.talk prompt (history.enter line) rest
      { further with
        out := (fun _ ↦ prompt) :: turn.out ++ further.out
        errs := turn.errs ++ further.errs }
    else ⟨turn.session, history, (fun _ ↦ prompt) :: turn.out, turn.errs, none⟩

/-- A dialogue with the given input and history, from the greeting to the farewell. -/
def dialogue (s : Session) (prompt : String) (history : History) (input : List UInt8) :
    DialogueResult :=
  let s := { s with interactive := true, indent := prompt.length }
  let result :=
    if prompt.toList.any Text.isControl then ⟨s, history, [], "", some invalidPromptMessage⟩
    else s.talk prompt history ((Lines.portions input).map Lines.Portion.bytes)
  { result with out := (fun _ ↦ s.greet) :: result.out ++ [fun _ ↦ s.takeLeave] }

end Session

end Reckoner
