import Reckoner.Evaluation.Storage
import Reckoner.Report
import Reckoner.Template.Expand
import Reckoner.Text.Blank

/-!
# Sessions

A session evaluates lines one after the other in one environment. Each line writes to two texts, one
for results and one for reports. A result may show the address at which it is stored; so what is
written is kept as a function of the address. The line `exit` ends the session; a line without
tokens ends a dialogue and is skipped otherwise.

A line that fails is reported and leaves the environment as it was. Definitions are evaluated like
lines but must have a value.
-/

set_option autoImplicit false

namespace Reckoner

/-- A text that is written, given the address of the number that it shows. -/
abbrev Written : Type := Nat → String

/-- Texts written one after the other, each with its own address. -/
def Written.joined (addresses : Nat → Nat) (texts : List Written) : String :=
  String.join (texts.zipIdx.map fun (text, i) ↦ text (addresses i))

/-- How a session evaluates and shows lines. -/
structure Session where
  env : Environment
  palette : Palette
  /-- The template of results; without one they are shown in their canonical text. -/
  template : String
  /-- The precision in bits, zero for 64-bit numbers. -/
  precision : Nat
  echo : Bool
  /-- Whether the session is a dialogue, with labels, and marks under the prompted line. -/
  interactive : Bool
  indent : Int
  /-- The library that wide results are computed with. -/
  library : Library

/-- The definition of a variable by an expression. -/
structure Definition where
  name : String
  expr : String
  deriving DecidableEq, Repr

namespace Definition

/-- The failure of a text that is no definition. -/
structure Malformed where
  text : String
  deriving DecidableEq, Repr

/-- The description of a text that is no definition. -/
def Malformed.message (m : Malformed) : String :=
  "variable definitions must be " ++ Text.quote "name=value" ++ ", not " ++ Text.quote m.text

/-- The definition that a text with an equals sign stands for: what is in front of the first one,
and what is behind it, both without white space at the ends. -/
def ofText (text : String) : Except Malformed Definition :=
  let chars := text.toList
  match chars.dropWhile (· ≠ '=') with
  | [] => .error ⟨text⟩
  | _ :: expr =>
    .ok ⟨String.ofList (Text.trimChars (chars.takeWhile (· ≠ '='))),
      String.ofList (Text.trimChars expr)⟩

end Definition

/-- The description of a statement that should have a value and has none. -/
def noResultMessage : String := "calc: statement has no result"

/-- Why a definition fails. -/
inductive DefinitionError where
  | fault (name : String) (fault : Fault)
  /-- Its expression is an assignment. -/
  | noResult (name : String)
  deriving DecidableEq, Repr

/-- The description of a failed definition. -/
def DefinitionError.message : DefinitionError → String
  | fault name inner => "defining " ++ name ++ ": " ++ inner.text
  | noResult name => "defining " ++ name ++ ": " ++ noResultMessage

namespace Session

/-- The label of the canonical form of a line. -/
def treeLabel : String := "Tree    > "

/-- The label of a result. -/
def resultLabel : String := "Result  > "

/-- What is said at the beginning of a dialogue. -/
def greeting : String := "calc: enter an expression, or an empty line to quit"

/-- What is said at the end of a dialogue. -/
def farewell : String := "Goodbye from calc"

/-- The line that greets. -/
def greet (s : Session) : String :=
  s.palette.note greeting ++ "\n"

/-- The line that takes leave. -/
def takeLeave (s : Session) : String :=
  s.palette.note farewell ++ "\n"

/-! ### Statements -/

/-- The text of a 64-bit result. -/
def plainResult (s : Session) (x : Binary64) : String :=
  if s.template = "" then x.text else Template.expand s.template (.plain x)

/-- The text of a wide result of a statement, given its address. -/
def wideResult (s : Session) (statement : Statement) (x : Number) : Written := fun address ↦
  let width := Format.widthOf s.precision
  if s.template = "" then x.text width
  else
    Template.expand s.template
      (.wide width x ⟨fun _ ↦ statement.stored s.library s.env s.precision⟩ address)

/-- The environment after a statement at the session's precision, and the text of its result. -/
def execute (s : Session) (statement : Statement) :
    Except EvalError (Environment × Option Written) :=
  if s.precision = 0 then
    (statement.execute s.env).map fun (env, value?) ↦
      (env, value?.map fun x _ ↦ s.plainResult x)
  else
    (statement.executePrecise s.library s.env s.precision).map fun (env, value?) ↦
      (env, value?.map (s.wideResult statement))

/-- What is written for a statement with the given result. -/
def outputOf (s : Session) (statement : Statement) (result? : Option String) : String :=
  let tree := statement.render
  if s.interactive then
    (if s.echo then s.palette.result treeLabel ++ tree ++ "\n" else "") ++
      (match result? with
        | some result => s.palette.result resultLabel ++ result ++ "\n"
        | none => "") ++ "\n"
  else
    match s.echo, result? with
    | true, some result => tree ++ " : " ++ result ++ "\n"
    | true, none => tree ++ "\n"
    | false, some result => result ++ "\n"
    | false, none => ""

/-- The report of a failure in a line. Outside of a dialogue the line itself comes first. -/
def reportOf (s : Session) (line : String) (fault : Fault) :
    Except Palette.Misplacement String :=
  if s.interactive then (s.palette.underline s.indent fault).map (· ++ "\n\n")
  else (s.palette.underline 0 fault).map fun mark ↦ line ++ "\n" ++ mark ++ "\n"

/-! ### Lines -/

/-- What a line leads to. -/
structure Turn where
  session : Session
  more : Bool
  fault? : Option Fault
  /-- The text that is written as a result, if there is one. -/
  out : List Written
  errs : String
  /-- Why the report cannot be written, which is so only beside a strange prompt. -/
  misplaced? : Option Palette.Misplacement

/-- The turn of a line that fails. -/
def failedTurn (s : Session) (line : String) (fault : Fault) : Turn :=
  match s.reportOf line fault with
  | .error e => ⟨s, true, some fault, [], "", some e⟩
  | .ok report => ⟨s, true, some fault, [], report, none⟩

/-- The turn of a line's statement. -/
def statementTurn (s : Session) (line : String) (statement : Statement) : Turn :=
  match s.execute statement with
  | .error e => s.failedTurn line (.eval e)
  | .ok (env, result?) =>
    ⟨{ s with env := env }, true, none,
      [fun address ↦ s.outputOf statement (result?.map (· address))], "", none⟩

/-- Evaluates a line. -/
def run (s : Session) (line : String) : Turn :=
  if Text.trim line = "exit" then ⟨s, false, none, [], "", none⟩
  else
    match Token.scan line.toList with
    | .error e => s.failedTurn line (.lex e)
    | .ok [] => ⟨s, !s.interactive, none, [], "", none⟩
    | .ok tokens =>
      match Statement.ofTokens tokens with
      | .error e => s.failedTurn line (.parse e)
      | .ok statement => s.statementTurn line statement

/-! ### Definitions -/

/-- The 64-bit value of an expression at the session's precision. -/
def valueOf (s : Session) (value : Expr) : Except EvalError Binary64 :=
  if s.precision = 0 then value.eval s.env
  else (value.preciseValue s.library (Format.wide s.precision) s.env).map Binary64.ofNumber

/-- The session after a definition. -/
def define (s : Session) (d : Definition) : Except DefinitionError Session :=
  match Statement.ofLine d.expr.toList with
  | .error fault => .error (.fault d.name fault)
  | .ok (.assignment _ _ _) => .error (.noResult d.name)
  | .ok (.expression value) =>
    match s.valueOf value with
    | .error e => .error (.fault d.name (.eval e))
    | .ok x => .ok { s with env := s.env.set d.name x }

end Session

end Reckoner
