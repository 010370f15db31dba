import Reckoner.Settings.Basic
import Reckoner.Yaml.Meaning

/-!
# Settings in a document

A document sets what its mapping names. A null value leaves a setting as it is. A value of the
wrong kind, an unknown name or a name that occurs twice is a mismatch; a mismatch does not stop
reading, so that an error about variables is reported before it.

Variables are a mapping of names to expressions, both taken as they are written, in their order and
with repetitions. A mapping may take entries over from others under the name `<<`; those that it has
itself come first. For that its own keys are read once more, and a collection among them is an error
of its own.

Every node that is read is counted, and those that are reached through references are counted
again: a document that lives on its references alone is not accepted.
-/

set_option autoImplicit false

namespace Reckoner

namespace Settings

open Yaml (Node Meaning Resolved ScalarStyle)

/-! ### Errors -/

/-- The kinds of collections. -/
inductive CollectionKind where
  | sequence
  /-- A mapping all of whose keys are texts. -/
  | textMapping
  | mapping
  deriving DecidableEq, Repr

/-- The name of a kind of collections. -/
def CollectionKind.name : CollectionKind → String
  | sequence => "[]interface \x7b\x7d"
  | textMapping => "map[string]interface \x7b\x7d"
  | mapping => "map[interface \x7b\x7d]interface \x7b\x7d"

/-- Why a document holds no settings. -/
inductive DocumentError where
  | malformed
  | mismatch
  | varsNotMapping (line : Nat)
  | definitionNotScalar (line : Nat)
  /-- A mapping that takes entries over has a collection among its keys. -/
  | collectionKey (kind : CollectionKind)
  deriving DecidableEq, Repr

/-- The description of an error in a document. -/
def DocumentError.message : DocumentError → String
  | malformed => "the text is not well-formed"
  | mismatch => "a name or a value is not what is wanted"
  | varsNotMapping line =>
    "line " ++ Nat.repr line ++ ": vars must be a mapping of names to expressions"
  | definitionNotScalar line =>
    "line " ++ Nat.repr line ++ ": variable definitions must be name: expression"
  | collectionKey kind => "runtime error: hash of unhashable type " ++ kind.name

/-! ### Fields -/

/-- What the names of a mapping are about. -/
inductive Scope where
  | settings
  | definition
  deriving DecidableEq, Repr

/-- What a document can name. -/
inductive Field where
  | prompt
  | format
  | precision
  | echo
  | history
  | color
  | vars
  | name
  | expr
  deriving DecidableEq, Repr

/-- The field of a name. -/
def Field.ofName? : Scope → String → Option Field
  | .settings, "prompt" => some .prompt
  | .settings, "format" => some .format
  | .settings, "precision" => some .precision
  | .settings, "echo" => some .echo
  | .settings, "history" => some .history
  | .settings, "color" => some .color
  | .settings, "vars" => some .vars
  | .definition, "name" => some .name
  | .definition, "expr" => some .expr
  | _, _ => none

/-! ### Values -/

/-- What a scalar says about a setting. -/
inductive Said (α : Type) where
  | nothing
  | value (value : α)
  | mismatch

/-- The text of a scalar. -/
def textOf (r : Resolved) : Said String :=
  if r.meaning = .null then .nothing else .value r.text

/-- The whole number of 64 bits that a number is cut to. One below zero is counted back from the end
of the range, no further than to its half; the end itself counts as zero, and a number beyond it has
none. -/
def wholeOf (x : Number) : Said Nat :=
  let half := Nat.pow 2 63
  match x.size with
  | .zero => .value 0
  | .infinite => if x.negative then .value half else .mismatch
  | .finite d =>
    let whole := (Binary64.wholeAndRest d).1
    if x.negative then .value ((2 * half - min whole half) % (2 * half))
    else if 2 * half < whole then .mismatch
    else .value (whole % (2 * half))

/-- The precision of a scalar: an integer from zero on, or a number that is cut to one. -/
def bitsOf : Meaning → Said Nat
  | .null => .nothing
  | .integer value => if value < 0 then .mismatch else .value value.toNat
  | .number (.number x _) => wholeOf x
  | _ => .mismatch

/-- The words for a truth value that a text may use where one is wanted. -/
def truthWord? (word : String) : Option Bool :=
  if ["y", "Y", "yes", "Yes", "YES", "on", "On", "ON"].contains word then some true
  else if ["n", "N", "no", "No", "NO", "off", "Off", "OFF"].contains word then some false
  else none

/-- The truth value of a scalar. -/
def truthOf (r : Resolved) : Said Bool :=
  match r.meaning with
  | .null => .nothing
  | .truth value => .value value
  | .text =>
    match truthWord? r.text with
    | some value => .value value
    | none => .mismatch
  | _ => .mismatch

/-! ### Reading -/

/-- How far a document has been read. -/
structure Progress where
  settings : Settings
  draft : Definition
  mismatched : Bool
  /-- The names that no mapping whose entries are taken over can set, while that is done. -/
  taken? : Option (List String)
  visits : Nat
  /-- The number of those that were reached through references. -/
  indirect : Nat
  /-- The number of references that lead to the node that is being read. -/
  depth : Nat

/-- A step of reading, which may fail. -/
abbrev Reading (α : Type) := StateT Progress (Except DocumentError) α

/-- Whether too many of the nodes were reached through references. In a short document those may be
99 of a hundred; from 400000 to 4000000 nodes this falls to 10. -/
def Progress.tooIndirect (p : Progress) : Bool :=
  let low := 400000
  let range := 3600000
  let allowed := 99 * range - 89 * min range (p.visits - low)
  decide (100 < p.indirect ∧ 1000 < p.visits ∧ p.visits * allowed < 100 * range * p.indirect)

namespace Reading

/-- Fails. -/
def fail {α : Type} (e : DocumentError) : Reading α :=
  throw e

/-- Notes a mismatch. -/
def mismatch : Reading Unit :=
  modify fun p ↦ { p with mismatched := true }

/-- Counts a node. -/
def count : Reading Unit := do
  let p ← get
  let p := { p with visits := p.visits + 1,
                    indirect := if p.depth = 0 then p.indirect else p.indirect + 1 }
  if p.tooIndirect then fail .malformed else set p

/-- The node that a node stands for. -/
def target (doc : Yaml.Document) : Node → Node
  | .reference line _ number => (doc.anchored[number]?).getD (Node.omitted line)
  | node => node

/-- Reads a node, or the one that it refers to. -/
def visit {α : Type} (doc : Yaml.Document) (node : Node) (action : Node → Reading α) :
    Reading α := do
  count
  match node with
  | .reference _ _ _ =>
    modify fun p ↦ { p with depth := p.depth + 1 }
    count
    let result ← action (target doc node)
    modify fun p ↦ { p with depth := p.depth - 1 }
    return result
  | node => action node

/-- What a scalar stands for. -/
def resolve (tag? : Option String) (style : ScalarStyle) (text : String) : Reading Resolved :=
  match Yaml.resolve? tag? style text with
  | some r => pure r
  | none => fail .malformed

/-- Does with the names that are taken as told, and has them as before afterwards. -/
def withTaken {α : Type} (taken? : Option (List String)) (action : Reading α) : Reading α := do
  let before? := (← get).taken?
  modify fun p ↦ { p with taken? := taken? }
  let result ← action
  modify fun p ↦ { p with taken? := before? }
  return result

/-- Takes a name; answers whether it was free. -/
def take (name : String) : Reading Bool := do
  match (← get).taken? with
  | none => return true
  | some names =>
    if names.contains name then return false
    else
      modify fun p ↦ { p with taken? := some (name :: names) }
      return true

/-! ### Mappings -/

/-- Whether two keys of a mapping are the same. -/
def sameKey : Node → Node → Bool
  | .scalar _ _ _ a, .scalar _ _ _ b => a == b
  | .reference _ a _, .reference _ b _ => a == b
  | .sequence _ _ _, .sequence _ _ _ => true
  | .mapping _ _ _, .mapping _ _ _ => true
  | _, _ => false

/-- Whether a mapping has a key twice. -/
def repeatsKey : List (Node × Node) → Bool
  | [] => false
  | (key, _) :: rest => rest.any (fun entry ↦ sameKey key entry.1) || repeatsKey rest

/-- Whether a key takes over the entries of other mappings. -/
def isMergeKey : Node → Bool
  | .scalar _ tag? style text =>
    text == "<<" && (tag? == some "!!merge" || (tag? == none && style == .plain))
  | _ => false

/-- The node whose entries a mapping takes over. -/
def mergeNode? (entries : List (Node × Node)) : Option Node :=
  (entries.reverse.find? fun entry ↦ isMergeKey entry.1).map (·.2)

/-- Whether a node is a mapping, or refers to one; only such entries can be taken over. -/
def isMapping (doc : Yaml.Document) (node : Node) : Bool :=
  match target doc node with
  | .mapping _ _ _ => true
  | _ => false

/-- The mappings whose entries are taken over: one, or a sequence of them. -/
def mergeSources : Node → List Node
  | .sequence _ _ items => items
  | node => [node]

/-! ### Keys of any kind -/

/-- What a node is, whatever it is wanted for. -/
inductive Shape where
  /-- A scalar, and its text if it is one. -/
  | scalar (text? : Option String)
  | collection (kind : CollectionKind)

/-- Whether a key is a text, or takes entries over. -/
def isTextKey (doc : Yaml.Document) (key : Node) : Bool :=
  match target doc key with
  | .scalar _ (some tag) _ _ => tag == "!!str" || tag == "!!merge"
  | .scalar _ none style text =>
    style != .plain || text == "<<" ||
      (decide (Meaning.ofPlain text = .text) && !Yaml.isTimestamp text)
  | _ => false

mutual

/-- Reads a node for itself. Names are taken only if that is told, and not inside of mappings. There
is no shape if a key of a mapping repeats. -/
def shapeOf (doc : Yaml.Document) : Nat → (taking : Bool) → Node → Reading (Option Shape)
  | 0, _, _ => fail .malformed
  | _ + 1, _, .scalar _ tag? style text => do
    let r ← resolve tag? style text
    return some (.scalar (if r.meaning = .text then some r.text else none))
  | fuel + 1, taking, .sequence _ _ items => do
    shapesOf doc fuel taking items
    return some (.collection .sequence)
  | fuel + 1, taking, .mapping _ _ entries => do
    if repeatsKey entries then
      mismatch
      return none
    else
      shapeEntries doc fuel taking entries
      match mergeNode? entries with
      | none => pure ()
      | some node =>
        let sources := mergeSources node
        if taking then shapeMerged doc fuel sources
        else
          withTaken (some []) do
            takeKeys doc fuel entries
            shapeMerged doc fuel sources
      let texts := entries.all fun entry ↦ isTextKey doc entry.1
      return some (.collection (if texts then .textMapping else .mapping))
  | _ + 1, _, .reference _ _ _ => return none

/-- Reads nodes for themselves. -/
def shapesOf (doc : Yaml.Document) : Nat → (taking : Bool) → List Node → Reading Unit
  | 0, _, _ => fail .malformed
  | _ + 1, _, [] => return ()
  | fuel + 1, taking, node :: rest => do
    let _ ← visit doc node (shapeOf doc fuel taking)
    shapesOf doc fuel taking rest

/-- Reads the entries of a mapping for themselves. A collection is no key. -/
def shapeEntries (doc : Yaml.Document) :
    Nat → (taking : Bool) → List (Node × Node) → Reading Unit
  | 0, _, _ => fail .malformed
  | _ + 1, _, [] => return ()
  | fuel + 1, taking, (key, node) :: rest => do
    if !isMergeKey key then
      match ← visit doc key (shapeOf doc fuel false) with
      | none => pure ()
      | some (.collection kind) => fail (if taking then .collectionKey kind else .malformed)
      | some (.scalar text?) =>
        let free ←
          match text? with
          | some name => if taking then take name else pure true
          | none => pure true
        if free then
          let _ ← visit doc node (shapeOf doc fuel false)
    shapeEntries doc fuel taking rest

/-- Reads the mappings that another one takes over. -/
def shapeMerged (doc : Yaml.Document) : Nat → List Node → Reading Unit
  | 0, _ => fail .malformed
  | _ + 1, [] => return ()
  | fuel + 1, node :: rest => do
    if isMapping doc node then
      let _ ← visit doc node (shapeOf doc fuel true)
      shapeMerged doc fuel rest
    else fail .malformed

/-- Takes the keys of a mapping. A collection cannot be taken. -/
def takeKeys (doc : Yaml.Document) : Nat → List (Node × Node) → Reading Unit
  | 0, _ => fail .malformed
  | _ + 1, [] => return ()
  | fuel + 1, (key, _) :: rest => do
    match ← visit doc key (shapeOf doc fuel true) with
    | some (.collection kind) => fail (.collectionKey kind)
    | some (.scalar (some name)) =>
      let _ ← take name
    | _ => pure ()
    takeKeys doc fuel rest

end

/-! ### Setting fields -/

/-- Changes what a scalar says something about. -/
def say {α : Type} (said : Said α) (change : Progress → α → Progress) : Reading Unit :=
  match said with
  | .nothing => pure ()
  | .value value => modify fun p ↦ change p value
  | .mismatch => mismatch

/-- Changes the settings as a scalar says. -/
def saySetting {α : Type} (said : Said α) (change : Settings → α → Settings) : Reading Unit :=
  say said fun p value ↦ { p with settings := change p.settings value }

/-- Changes the definition that is being read as a scalar says. -/
def sayDraft {α : Type} (said : Said α) (change : Definition → α → Definition) : Reading Unit :=
  say said fun p value ↦ { p with draft := change p.draft value }

/-- Sets a field other than the variables to a scalar. -/
def setScalar (field : Field) (r : Resolved) : Reading Unit :=
  match field with
  | .prompt => saySetting (textOf r) fun s value ↦ { s with prompt := value }
  | .format => saySetting (textOf r) fun s value ↦ { s with format := value }
  | .history => saySetting (textOf r) fun s value ↦ { s with history := value }
  | .precision => saySetting (bitsOf r.meaning) fun s value ↦ { s with precision := value }
  | .echo => saySetting (truthOf r) fun s value ↦ { s with echo := value }
  | .color => saySetting (truthOf r) fun s value ↦ { s with color? := some value }
  | .name => sayDraft (textOf r) fun d value ↦ { d with name := value }
  | .expr => sayDraft (textOf r) fun d value ↦ { d with expr := value }
  | .vars => pure ()

/-- The definitions of entries of a mapping. -/
def definitionsOf : List (Node × Node) → Except DocumentError (List Definition)
  | [] => .ok []
  | (.scalar _ _ _ name, .scalar _ _ _ expr) :: rest =>
    (definitionsOf rest).map fun further ↦ ⟨name, expr⟩ :: further
  | (key, _) :: _ => .error (.definitionNotScalar key.line)

/-- Changes the variables. -/
def setVars (change : List Definition → List Definition) : Reading Unit :=
  modify fun p ↦ { p with settings := { p.settings with vars := change p.settings.vars } }

/-- Whether a tag asks for nothing. -/
def asksNull (tag? : Option String) : Bool :=
  tag? == some "!!null"

/-- The name that a key is; a null key names nothing, and neither does a collection. -/
def nameOf (node : Node) : Reading (Option String) :=
  match node with
  | .scalar _ tag? style text => do
    let r ← resolve tag? style text
    return if r.meaning = .null then none else some r.text
  | _ => do
    mismatch
    return none

mutual

/-- Sets the fields that a mapping names; answers whether it could be read. Mappings that take each
other over without end are not well-formed; the bound on the steps finds them. -/
def setMapping (doc : Yaml.Document) : Nat → Scope → List (Node × Node) → Reading Bool
  | 0, _, _ => fail .malformed
  | fuel + 1, scope, entries => do
    if repeatsKey entries then
      mismatch
      return false
    else
      setEntries doc fuel scope [] entries
      match mergeNode? entries with
      | none => return true
      | some node =>
        let sources := mergeSources node
        if (← get).taken?.isSome then mergeAll doc fuel scope sources
        else
          withTaken (some []) do
            takeKeys doc fuel entries
            mergeAll doc fuel scope sources
        return true

/-- Takes over the entries of mappings one after the other. -/
def mergeAll (doc : Yaml.Document) : Nat → Scope → List Node → Reading Unit
  | 0, _, _ => fail .malformed
  | _ + 1, _, [] => return ()
  | fuel + 1, scope, node :: rest => do
    if isMapping doc node then
      visit doc node (setRecord doc fuel scope)
      mergeAll doc fuel scope rest
    else fail .malformed

/-- Sets the fields that a node names, which is a mapping. A scalar says nothing if it is null. -/
def setRecord (doc : Yaml.Document) : Nat → Scope → Node → Reading Unit
  | 0, _, _ => fail .malformed
  | fuel + 1, scope, .mapping _ _ entries => do
    let _ ← setMapping doc fuel scope entries
  | _ + 1, _, .scalar _ tag? style text => do
    let r ← resolve tag? style text
    if r.meaning ≠ .null then mismatch
  | _ + 1, _, _ => mismatch

/-- Sets the fields that entries name, apart from those that are taken over. Those in `done` were
set before. -/
def setEntries (doc : Yaml.Document) :
    Nat → Scope → (done : List Field) → List (Node × Node) → Reading Unit
  | 0, _, _, _ => fail .malformed
  | _ + 1, _, _, [] => return ()
  | fuel + 1, scope, done, (key, node) :: rest => do
    if isMergeKey key then setEntries doc fuel scope done rest
    else
      match ← visit doc key nameOf with
      | none => setEntries doc fuel scope done rest
      | some name =>
        if !(← take name) then setEntries doc fuel scope done rest
        else
          match Field.ofName? scope name with
          | none =>
            mismatch
            setEntries doc fuel scope done rest
          | some field =>
            if done.contains field then
              mismatch
              setEntries doc fuel scope done rest
            else
              visit doc node (setField doc fuel field)
              setEntries doc fuel scope (field :: done) rest

/-- Sets a field. -/
def setField (doc : Yaml.Document) : Nat → Field → Node → Reading Unit
  | 0, _, _ => fail .malformed
  | fuel + 1, .vars, .sequence line tag? items => do
    if asksNull tag? then
      let vars ← withTaken none (definitionList doc fuel items)
      setVars fun _ ↦ vars
    else fail (.varsNotMapping line)
  | _ + 1, .vars, .mapping _ tag? entries => do
    if asksNull tag? then mismatch
    else
      match definitionsOf entries with
      | .error e => fail e
      | .ok vars => setVars (· ++ vars)
  | _ + 1, .vars, .scalar line tag? style text => do
    match Yaml.resolve? tag? style text with
    | some ⟨.null, _⟩ => setVars fun _ ↦ []
    | _ => fail (if asksNull tag? then .malformed else .varsNotMapping line)
  | _ + 1, .vars, .reference line _ _ => fail (.varsNotMapping line)
  | _ + 1, field, .scalar _ tag? style text => do
    setScalar field (← resolve tag? style text)
  | _ + 1, _, _ => mismatch

/-- The definitions of a sequence of mappings with a name and an expression each. -/
def definitionList (doc : Yaml.Document) : Nat → List Node → Reading (List Definition)
  | 0, _ => fail .malformed
  | _ + 1, [] => return []
  | fuel + 1, node :: rest => do
    modify fun p ↦ { p with draft := ⟨"", ""⟩ }
    visit doc node (setRecord doc fuel .definition)
    let d := (← get).draft
    let further ← definitionList doc fuel rest
    return if (isMapping doc node) then d :: further else further

end

end Reading

/-! ### Documents -/

/-- The settings after reading the first document of a text. -/
def readOver (settings : Settings) (text : String) : Except DocumentError Settings :=
  match Yaml.firstDocument? text with
  | none => .error .malformed
  | some none => .ok settings
  | some (some doc) =>
    let start : Progress := ⟨settings, ⟨"", ""⟩, false, none, 1, 0, 0⟩
    match (Reading.visit doc doc.root (Reading.setRecord doc doc.size .settings)).run start with
    | .error e => .error e
    | .ok (_, p) => if p.mismatched then .error .mismatch else .ok p.settings

end Settings

end Reckoner
