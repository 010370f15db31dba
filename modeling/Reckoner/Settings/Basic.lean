import Reckoner.Session.Basic

/-!
# Settings

The settings of the calculator come from a file and from the command line. Each has a name in the
file; what neither sets has a default.
-/

set_option autoImplicit false

namespace Reckoner

/-- The settings of the calculator. -/
structure Settings where
  prompt : String
  format : String
  /-- The precision in bits, zero for 64-bit numbers. -/
  precision : Nat
  echo : Bool
  /-- The file of the history, empty for none. -/
  history : String
  /-- Whether the output is coloured, if that is said. -/
  color? : Option Bool
  vars : List Definition
  deriving DecidableEq, Repr

namespace Settings

/-- The settings where nothing is set. -/
def blank : Settings :=
  ⟨"", "", 0, false, "", none, []⟩

/-- The default prompt. -/
def defaultPrompt : String := "Eval    > "

/-- The name of the file with settings in the home directory. -/
def fileName : String := ".calc.yaml"

/-- The name of the file with the history in the home directory. -/
def historyName : String := ".calc_history"

/-- The settings by default, given the file of the history. -/
def defaults (history : String) : Settings :=
  { blank with prompt := defaultPrompt, history := history }

/-! ### Precision -/

/-- The failure of a precision below zero. -/
structure NegativePrecision where
  bits : Int
  deriving DecidableEq, Repr

/-- The description of a precision below zero. -/
def NegativePrecision.message (_ : NegativePrecision) : String :=
  "precision must not be negative"

/-- The precision of a number of bits. -/
def precisionOf (bits : Int) : Except NegativePrecision Nat :=
  if bits < 0 then .error ⟨bits⟩ else .ok bits.toNat

/-! ### Sessions -/

/-- A session with these settings, before any variable is defined. -/
def session (settings : Settings) (colored : Bool) : Session :=
  ⟨Environment.constants, ⟨colored⟩, settings.format, settings.precision, settings.echo, false, 0,
    Library.standard⟩

end Settings

end Reckoner
