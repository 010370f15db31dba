import Reckoner.CommandLine.Options
import Reckoner.Session.Batch
import Reckoner.Settings.Document

/-!
# The command

The command reads its options, then its settings, defines the variables, and evaluates the lines of
its arguments and of its input. It is a function of its arguments and its surroundings: the files,
the standard input, the home directory and the addresses that results are stored at.

The first failure on the way ends the command with status 1 and a line about it. Otherwise the
status tells whether a line failed.
-/

set_option autoImplicit false

namespace Reckoner

namespace CommandLine

/-- Why a path has no text to read. -/
inductive FileError where
  | missing
  | notDirectory
  | directory
  deriving DecidableEq, Repr

/-- The description of a path that has no text to read. A directory is noticed only when it is
read. -/
def FileError.message (path : String) : FileError → String
  | missing => "open " ++ path ++ ": no such file or directory"
  | notDirectory => "open " ++ path ++ ": not a directory"
  | directory => "read " ++ path ++ ": is a directory"

/-- What the command can read. -/
structure Surroundings where
  files : String → Except FileError String
  stdin : String
  home? : Option String
  /-- Where results are stored, in the order in which they are written. -/
  addresses : Nat → Nat

/-- What the command leads to. -/
structure Outcome where
  status : Nat
  out : String
  errs : String
  deriving DecidableEq, Repr

/-! ### Failures -/

/-- Why the command ends early. -/
inductive Failure where
  | precision (inner : Settings.NegativePrecision)
  | unreadSettings (path : String) (inner : FileError)
  | badSettings (path : String) (inner : Settings.DocumentError)
  | definition (inner : DefinitionError)
  | unopenedInput (path : String) (inner : FileError)
  | directoryInput (path : String)
  | longLine
  deriving DecidableEq, Repr

/-- What was being done. -/
def Failure.activity : Failure → String
  | precision _ => "bad -p"
  | unreadSettings _ _ => "loading config"
  | badSettings _ _ => "loading config"
  | definition _ => "setting variables"
  | unopenedInput _ _ => "opening input"
  | directoryInput _ => "batch session"
  | longLine => "batch session"

/-- What went wrong. -/
def Failure.cause : Failure → String
  | precision inner => inner.message
  | unreadSettings path inner => "reading config: " ++ inner.message path
  | badSettings path inner => "decoding " ++ path ++ ": " ++ inner.message
  | definition inner => inner.message
  | unopenedInput path inner => inner.message path
  | directoryInput path => "reading input: " ++ FileError.directory.message path
  | longLine => Lines.tooLongMessage

/-- What else is said about a failure. -/
def Failure.detail : Failure → String
  | precision inner => " precision=" ++ toString inner.bits
  | _ => ""

/-- The line about a failure. -/
def Failure.line (f : Failure) : String :=
  "FTL " ++ f.activity ++ " error=" ++ Text.quote f.cause ++ f.detail ++ "\n"

/-- The outcome of a failure. -/
def Failure.outcome (f : Failure) : Outcome :=
  ⟨1, "", f.line⟩

/-! ### Settings -/

/-- A file in a directory. -/
def inDirectory (directory name : String) : String :=
  directory ++ "/" ++ name

/-- The settings before any file is read. -/
def startSettings (home? : Option String) : Settings :=
  match home? with
  | some home => Settings.defaults (inDirectory home Settings.historyName)
  | none => Settings.defaults ""

/-- The settings of a text over those so far. -/
def readSettings (settings : Settings) (path text : String) : Except Failure Settings :=
  (settings.readOver text).mapError (.badSettings path)

/-- The settings of a file. The one in the home directory need not be there. -/
def loadSettings (w : Surroundings) (config : String) : Except Failure Settings :=
  let start := startSettings w.home?
  if config ≠ "" then
    match w.files config with
    | .error e => .error (.unreadSettings config e)
    | .ok text => readSettings start config text
  else
    match w.home? with
    | none => .ok start
    | some home =>
      let path := inDirectory home Settings.fileName
      match w.files path with
      | .error .missing => .ok start
      | .error e => .error (.unreadSettings path e)
      | .ok text => readSettings start path text

/-- The settings with what the options say. -/
def Options.override (options : Options) (bits : Nat) (settings : Settings) : Settings :=
  { settings with
    format := options.format?.getD settings.format
    precision := if options.precision?.isSome then bits else settings.precision
    echo := options.echo?.getD settings.echo
    history := options.history?.getD settings.history
    color? := options.color?.or settings.color?
    vars := settings.vars ++ options.definitions }

/-! ### Running -/

/-- A command that is ready to evaluate lines. -/
structure Prepared where
  settings : Settings
  session : Session

/-- Defines variables one after the other. -/
def defineAll (session : Session) : List Definition → Except DefinitionError Session
  | [] => .ok session
  | d :: rest =>
    match session.define d with
    | .error e => .error e
    | .ok session => defineAll session rest

/-- Reads the settings and defines the variables. `terminal` tells whether the output is coloured if
nothing is said about it. -/
def prepare (w : Surroundings) (terminal : Bool) (options : Options) : Except Failure Prepared :=
  match Settings.precisionOf (options.precision?.getD 0) with
  | .error e => .error (.precision e)
  | .ok bits =>
    match loadSettings w options.config with
    | .error e => .error e
    | .ok settings =>
      let settings := options.override bits settings
      let session := settings.session (settings.color?.getD terminal)
      match defineAll session settings.vars with
      | .error e => .error (.definition e)
      | .ok session => .ok ⟨settings, session⟩

/-- What follows the lines of the arguments. -/
inductive Input where
  | nothing
  | text (content : String)
  /-- A directory, which can be opened but not read. -/
  | directory (path : String)
  deriving DecidableEq, Repr

/-- The text of an input. -/
def Input.text? : Input → Option String
  | .text content => some content
  | _ => none

/-- Why an input cannot be read to its end, given what its lines led to. -/
def Input.failure? (result : Session.BatchResult) : Input → Option Failure
  | .directory path => if result.more then some (.directoryInput path) else none
  | _ => if result.cutOff then some .longLine else none

/-- The input to evaluate behind the lines of the arguments: a file or the standard input if one is
named, and the standard input if there are no lines. -/
def inputOf (w : Surroundings) (input : String) (lines : List String) : Except Failure Input :=
  if input = "-" then .ok (.text w.stdin)
  else if input ≠ "" then
    match w.files input with
    | .error .directory => .ok (.directory input)
    | .error e => .error (.unopenedInput input e)
    | .ok text => .ok (.text text)
  else if lines.isEmpty then .ok (.text w.stdin)
  else .ok .nothing

/-- Evaluates the lines of the arguments and of the input. -/
def evaluate (w : Surroundings) (session : Session) (input : String) (lines : List String) :
    Outcome :=
  match inputOf w input lines with
  | .error e => e.outcome
  | .ok input =>
    let result := session.batch lines input.text?
    let out := Written.joined w.addresses result.out
    match input.failure? result with
    | some e => ⟨1, out, result.errs ++ e.line⟩
    | none => ⟨if result.failed = 0 then 0 else 1, out, result.errs⟩

/-- The command without a dialogue. `terminal` tells whether its output goes to a terminal. -/
def run (w : Surroundings) (terminal : Bool) (arguments : List String) : Outcome :=
  match Options.initial.read arguments with
  | .error e => ⟨e.status, "", e.message ++ "\n"⟩
  | .ok (options, lines) =>
    match prepare w terminal options with
    | .error e => e.outcome
    | .ok prepared => evaluate w prepared.session options.input lines

end CommandLine

end Reckoner
