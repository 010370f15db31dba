import Reckoner.Integer
import Reckoner.Session.Basic

/-!
# Options of the command line

Options begin with one or two dashes and come before the lines to evaluate. A switch may have its
value behind an equals sign; every other option has its value there or in the next argument. Options
end at the first argument that is none, at a lone dash, or behind two dashes.

An option that is given more than once has its last value; definitions are collected.
-/

set_option autoImplicit false

namespace Reckoner

namespace CommandLine

/-- An option with a value that is taken as it is or read further. -/
inductive Setting where
  | config
  | input
  | format
  | given
  | precision
  | history
  deriving DecidableEq, Repr

/-- An option that is on or off. -/
inductive Switch where
  | echo
  | color
  | verbose
  deriving DecidableEq, Repr

/-- The option of a name. -/
def Setting.ofName? : String → Option Setting
  | "config" => some .config
  | "in" => some .input
  | "fmt" => some .format
  | "given" => some .given
  | "p" => some .precision
  | "history" => some .history
  | _ => none

/-- The switch of a name. -/
def Switch.ofName? : String → Option Switch
  | "echo" => some .echo
  | "color" => some .color
  | "v" => some .verbose
  | _ => none

/-- What the options say. -/
structure Options where
  /-- The file of settings, empty for the one in the home directory. -/
  config : String
  /-- The file of lines, empty for none and a dash for the standard input. -/
  input : String
  format? : Option String
  definitions : List Definition
  precision? : Option Int
  echo? : Option Bool
  history? : Option String
  color? : Option Bool
  verbose : Bool
  deriving DecidableEq, Repr

/-- The options where none is given. -/
def Options.initial : Options :=
  ⟨"", "", none, [], none, none, none, none, false⟩

/-! ### Failures -/

/-- Why arguments are no options. -/
inductive OptionError where
  | help
  | badSyntax (argument : String)
  | unknown (name : String)
  | missingValue (name : String)
  | badSwitch (name value : String)
  | badInteger (name value : String) (fault : Integer.Fault)
  | badDefinition (name value : String) (malformed : Definition.Malformed)
  deriving DecidableEq, Repr

/-- The description of a text that is no integer. -/
def integerMessage : Integer.Fault → String
  | .malformed => "parse error"
  | .outOfRange => "value out of range"

/-- The line that is written for arguments that are no options. -/
def OptionError.message : OptionError → String
  | help => "Usage of calc:"
  | badSyntax argument => "bad flag syntax: " ++ argument
  | unknown name => "flag provided but not defined: -" ++ name
  | missingValue name => "flag needs an argument: -" ++ name
  | badSwitch name value =>
    "invalid boolean value " ++ Text.quote value ++ " for -" ++ name ++ ": parse error"
  | badInteger name value inner =>
    "invalid value " ++ Text.quote value ++ " for flag -" ++ name ++ ": " ++ integerMessage inner
  | badDefinition name value malformed =>
    "invalid value " ++ Text.quote value ++ " for flag -" ++ name ++ ": " ++ malformed.message

/-- The status that the command ends with. -/
def OptionError.status : OptionError → Nat
  | help => 0
  | _ => 2

/-! ### Arguments -/

/-- What an argument is. -/
inductive Argument where
  /-- A line to evaluate, or a lone dash. -/
  | line
  | terminator
  | option (name : String) (value? : Option String)
  | malformed
  deriving DecidableEq, Repr

/-- An option without its dashes: the name up to the first equals sign that is not its first
character, and the value behind. -/
def Argument.ofBody : List Char → Argument
  | [] => .malformed
  | c :: rest =>
    if c == '-' || c == '=' then .malformed
    else
      let name := String.ofList (c :: rest.takeWhile (· ≠ '='))
      match rest.dropWhile (· ≠ '=') with
      | [] => .option name none
      | _ :: value => .option name (some (String.ofList value))

/-- What an argument is. -/
def Argument.of (argument : String) : Argument :=
  match argument.toList with
  | '-' :: '-' :: [] => .terminator
  | '-' :: '-' :: body => .ofBody body
  | '-' :: c :: rest => .ofBody (c :: rest)
  | _ => .line

/-- The truth value of a text. -/
def truth? (text : String) : Option Bool :=
  if ["1", "t", "T", "true", "TRUE", "True"].contains text then some true
  else if ["0", "f", "F", "false", "FALSE", "False"].contains text then some false
  else none

/-- The options with a switch turned. -/
def Options.turn (options : Options) (switch : Switch) (on : Bool) : Options :=
  match switch with
  | .echo => { options with echo? := some on }
  | .color => { options with color? := some on }
  | .verbose => { options with verbose := on }

/-- The options with a setting changed. -/
def Options.change (options : Options) (setting : Setting) (name value : String) :
    Except OptionError Options :=
  match setting with
  | .config => .ok { options with config := value }
  | .input => .ok { options with input := value }
  | .format => .ok { options with format? := some value }
  | .history => .ok { options with history? := some value }
  | .given =>
    match Definition.ofText value with
    | .error malformed => .error (.badDefinition name value malformed)
    | .ok d => .ok { options with definitions := options.definitions ++ [d] }
  | .precision =>
    match Integer.readSigned value.toList with
    | .error inner => .error (.badInteger name value inner)
    | .ok bits => .ok { options with precision? := some bits }

/-- The options with a switch turned as its value says. -/
def Options.turnTo (options : Options) (switch : Switch) (name : String) (value? : Option String) :
    Except OptionError Options :=
  match value? with
  | none => .ok (options.turn switch true)
  | some value =>
    match truth? value with
    | some on => .ok (options.turn switch on)
    | none => .error (.badSwitch name value)

/-- The failure of a name that no option has. -/
def OptionError.ofName (name : String) : OptionError :=
  if name = "help" ∨ name = "h" then .help else .unknown name

/-- Reads options in front of lines. -/
def Options.read (options : Options) : List String → Except OptionError (Options × List String)
  | [] => .ok (options, [])
  | argument :: rest =>
    match Argument.of argument with
    | .line => .ok (options, argument :: rest)
    | .terminator => .ok (options, rest)
    | .malformed => .error (.badSyntax argument)
    | .option name value? =>
      match Switch.ofName? name, Setting.ofName? name with
      | some switch, _ =>
        match options.turnTo switch name value? with
        | .error e => .error e
        | .ok options => options.read rest
      | none, none => .error (OptionError.ofName name)
      | none, some setting =>
        match value?, rest with
        | some value, rest =>
          match options.change setting name value with
          | .error e => .error e
          | .ok options => options.read rest
        | none, value :: rest =>
          match options.change setting name value with
          | .error e => .error e
          | .ok options => options.read rest
        | none, [] => .error (.missingValue name)

end CommandLine

end Reckoner
