import Reckoner.CommandLine.Program
import Reckoner.Session.Completion
import Reckoner.Session.Dialogue

/-!
# The calculator

The command reads the files that its options name and hands their texts on. Without a terminal it is
`CommandLine.run`; at a terminal, and without lines or an input, it prompts for lines one by one.
-/

set_option autoImplicit false

namespace Reckoner

namespace CommandLine

/-- The bytes of a file, or why it has none to read. -/
def readBytes (path : String) : IO (Except FileError (List UInt8)) := do
  try
    let bytes ← IO.FS.readBinFile path
    return .ok bytes.toList
  catch e =>
    match e with
    | .inappropriateType .. => return .error .directory
    | _ => return .error .missing

/-- The rest of a stream. -/
partial def readAll (stream : IO.FS.Stream) (text : String) : IO String := do
  let line ← stream.getLine
  if line.isEmpty then return text else readAll stream (text ++ line)

/-- The files that options may read. -/
def pathsOf (options : Options) (home? : Option String) : List String :=
  let inHome := match home? with
    | some home => [inDirectory home Settings.fileName]
    | none => []
  [options.config, options.input].filter (· ≠ "") ++ inHome

/-- Whether options and lines ask for the standard input. -/
def readsStdin (options : Options) (lines : List String) : Bool :=
  options.input == "-" || (options.input == "" && lines.isEmpty)

/-- Addresses for results to be stored at, none of them twice. -/
def freshAddresses (i : Nat) : Nat :=
  0xc000012000 + 48 * i

/-- Prompts for lines and evaluates them until one ends the session; answers the history then. -/
partial def converse (session : Session) (prompt : String) (history : Session.History) :
    IO Session.History := do
  IO.print prompt
  (← IO.getStdout).flush
  let line ← (← IO.getStdin).getLine
  if line.isEmpty then return history
  let line := ((Lines.portions (Text.encode line)).head?.map Lines.Portion.bytes).getD []
  let turn := session.run (Text.ofBytes line)
  IO.print (Written.joined freshAddresses turn.out)
  IO.eprint turn.errs
  if turn.more then converse turn.session prompt (history.enter line) else return history

/-- A dialogue at the terminal, with its history in a file. -/
def dialogueAtTerminal (prepared : Prepared) : IO UInt32 := do
  let prompt := prepared.settings.prompt
  let path := prepared.settings.history
  let session := { prepared.session with interactive := true, indent := prompt.length }
  IO.print session.greet
  if prompt.toList.any Text.isControl then
    IO.print session.takeLeave
    IO.eprintln ("FTL interactive session error=" ++ Text.quote Session.invalidPromptMessage)
    return 1
  let earlier ← if path = "" then pure (.ok []) else readBytes path
  let history ← converse session prompt (Session.History.ofBytes (earlier.toOption.getD []))
  if path ≠ "" then IO.FS.writeBinFile path (ByteArray.mk history.toBytes.toArray)
  IO.print session.takeLeave
  return 0

/-- Writes an outcome and answers its status. -/
def Outcome.write (outcome : Outcome) : IO UInt32 := do
  IO.print outcome.out
  IO.eprint outcome.errs
  return UInt32.ofNat outcome.status

/-- The command with options that were read. -/
def start (arguments : List String) (options : Options) (lines : List String) : IO UInt32 := do
  let home? := (← IO.getEnv "HOME").filter (· ≠ "")
  let texts ← (pathsOf options home?).mapM fun path ↦ do
    return (path, (← readBytes path).map Text.ofBytes)
  let stdin ← IO.getStdin
  let terminal ← (← IO.getStdout).isTty
  let files (path : String) : Except FileError String :=
    (texts.lookup path).getD (.error .missing)
  if options.input = "" ∧ lines.isEmpty ∧ (← stdin.isTty) ∧ terminal then
    match prepare ⟨files, "", home?, freshAddresses⟩ terminal options with
    | .error e => e.outcome.write
    | .ok prepared => dialogueAtTerminal prepared
  else
    let input ← if readsStdin options lines then readAll stdin "" else pure ""
    (run ⟨files, input, home?, freshAddresses⟩ terminal arguments).write

end CommandLine

end Reckoner

/-- Runs the calculator. -/
def main (arguments : List String) : IO UInt32 := do
  match Reckoner.CommandLine.Options.initial.read arguments with
  | .error e =>
    IO.eprintln e.message
    return UInt32.ofNat e.status
  | .ok (options, lines) => Reckoner.CommandLine.start arguments options lines
