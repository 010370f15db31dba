import Reckoner.Yaml.Scan

/-!
# Documents of a YAML text

The lexemes of a text are put together to documents, of which the first one is read. The text is
divided only as far as that needs. A document is a tree of scalars, sequences and mappings. A node
may have an anchor, and a reference stands for the node whose anchor came last under its name; the
nodes with anchors are numbered in their order.

Each node knows the line that it begins on. The functions that put nodes together carry a bound on
their steps; a multiple of the length of the text is always enough.
-/

set_option autoImplicit false

namespace Reckoner

namespace Yaml

/-- A node of a document. -/
inductive Node where
  | scalar (line : Nat) (tag? : Option String) (style : ScalarStyle) (text : String)
  | sequence (line : Nat) (tag? : Option String) (items : List Node)
  | mapping (line : Nat) (tag? : Option String) (entries : List (Node × Node))
  | reference (line : Nat) (name : String) (target : Nat)

/-- The line that a node begins on. -/
def Node.line : Node → Nat
  | scalar line _ _ _ => line
  | sequence line _ _ => line
  | mapping line _ _ => line
  | reference line _ _ => line

/-- A scalar without text where a node is left out. -/
def Node.omitted (line : Nat) : Node :=
  .scalar line none .plain ""

/-- A document: its root, and the nodes with anchors by their numbers. -/
structure Document where
  root : Node
  anchored : List Node
  /-- A bound on the number of nodes. -/
  size : Nat

/-! ### Putting nodes together -/

/-- What is left of a text, and what was declared in it. -/
structure Composition where
  scan : Scan
  /-- What the handles of tags stand for. -/
  handles : List (List Char × List Char)
  /-- The numbers of the anchors, the last ones first. -/
  anchors : List (List Char × Nat)
  /-- The nodes with anchors by their numbers, the last ones first, as far as they are complete. -/
  anchored : List (Nat × Node)

/-- A step that may fail. -/
abbrev Compose (α : Type) := StateT Composition Option α

namespace Compose

/-- Fails. -/
def fault {α : Type} : Compose α :=
  fun _ ↦ none

/-- The next lexeme. -/
def peek : Compose Lexeme := fun c ↦
  c.scan.peek?.map fun (lexeme, scan) ↦ (lexeme, { c with scan := scan })

/-- What the next lexeme is. -/
def peekKind : Compose LexemeKind := do
  return (← peek).kind

/-- Goes over a lexeme. -/
def skip : Compose Unit := fun c ↦
  some ((), { c with scan := c.scan.pop })

/-! ### Tags and anchors -/

/-- The handles of tags that need no declaration. -/
def defaultHandles : List (List Char × List Char) :=
  [(['!'], ['!']), ("!!".toList, "tag:yaml.org,2002:".toList)]

/-- A tag in its short form. -/
def shortTag (tag : List Char) : String :=
  let core := "tag:yaml.org,2002:".toList
  if core.isPrefixOf tag then "!!" ++ String.ofList (tag.drop core.length) else String.ofList tag

/-- The tag of a handle and a suffix; the lone mark is no tag. -/
def resolveTag (handle suffix : List Char) : Compose (Option String) := fun c ↦
  if handle.isEmpty then some (if suffix = ['!'] then none else some (shortTag suffix), c)
  else (c.handles.lookup handle).map fun uri ↦ (some (shortTag (uri ++ suffix)), c)

/-- What may stand in front of a node. -/
structure Properties where
  tag? : Option String
  anchor? : Option (List Char)
  given : Bool

/-- An anchor, if one stands here. -/
def anchorHere : Compose (Option (List Char)) := do
  match ← peekKind with
  | .anchor name => skip; return some name
  | _ => return none

/-- A tag, if one stands here. -/
def tagHere : Compose (Option (Option String)) := do
  match ← peekKind with
  | .tag handle suffix => skip; return some (← resolveTag handle suffix)
  | _ => return none

/-- A tag and an anchor in either order. -/
def properties : Compose Properties := do
  match ← anchorHere with
  | some name =>
    let tag? ← tagHere
    return ⟨tag?.join, some name, true⟩
  | none =>
    match ← tagHere with
    | some tag? => return ⟨tag?, ← anchorHere, true⟩
    | none => return ⟨none, none, false⟩

/-- Numbers a new anchor. -/
def declare (name : List Char) : Compose Nat := fun c ↦
  some (c.anchors.length, { c with anchors := (name, c.anchors.length) :: c.anchors })

/-- Keeps a complete node with an anchor. -/
def keep (number : Nat) (node : Node) : Compose Unit := fun c ↦
  some ((), { c with anchored := (number, node) :: c.anchored })

/-- The number of an anchor; a name without one fails. -/
def numberOf (name : List Char) : Compose Nat := fun c ↦
  (c.anchors.lookup name).map fun number ↦ (number, c)

/-! ### Nodes -/

/-- Whether a node is left out in front of a lexeme inside of a block mapping. -/
def omittedInBlock : LexemeKind → Bool
  | .key | .value | .blockEnd => true
  | _ => false

mutual

/-- A node. In a block it may be a block collection, and as the value or key of an entry also a
sequence that is not indented further than the entry. -/
def node : Nat → (inBlock indentless : Bool) → Compose Node
  | 0, _, _ => fault
  | fuel + 1, inBlock, indentless => do
    let first ← peek
    match first.kind with
    | .reference name =>
      skip
      return .reference first.line (String.ofList name) (← numberOf name)
    | _ =>
      let given ← properties
      match given.anchor? with
      | none => content fuel inBlock indentless first.line given
      | some name =>
        let number ← declare name
        let result ← content fuel inBlock indentless first.line given
        keep number result
        return result

/-- A node behind what stands in front of it. -/
def content : Nat → (inBlock indentless : Bool) → (line : Nat) → Properties → Compose Node
  | 0, _, _, _, _ => fault
  | fuel + 1, inBlock, indentless, line, given => do
    match ← peekKind with
    | .scalar style text =>
      skip
      return .scalar line given.tag? style (String.ofList text)
    | .flowSequence =>
      skip
      return .sequence line given.tag? (← flowItems fuel true)
    | .flowMapping =>
      skip
      return .mapping line given.tag? (← flowEntries fuel true)
    | kind =>
      if kind = .entry ∧ indentless then
        return .sequence line given.tag? (← indentlessItems fuel)
      else if kind = .blockSequence ∧ inBlock then
        skip
        return .sequence line given.tag? (← blockItems fuel)
      else if kind = .blockMapping ∧ inBlock then
        skip
        return .mapping line given.tag? (← blockEntries fuel)
      else if given.given then
        return .scalar line given.tag? .plain ""
      else fault

/-- The entries of a block sequence. -/
def blockItems : Nat → Compose (List Node)
  | 0 => fault
  | fuel + 1 => do
    let here ← peek
    match here.kind with
    | .blockEnd =>
      skip
      return []
    | .entry =>
      skip
      let next ← peekKind
      let item ←
        if next = .entry ∨ next = .blockEnd then pure (Node.omitted here.line)
        else node fuel true false
      return item :: (← blockItems fuel)
    | _ => fault

/-- The entries of a sequence that is not indented further than the mapping around it. -/
def indentlessItems : Nat → Compose (List Node)
  | 0 => fault
  | fuel + 1 => do
    let here ← peek
    match here.kind with
    | .entry =>
      skip
      let next ← peekKind
      let item ←
        if next = .entry ∨ omittedInBlock next then pure (Node.omitted here.line)
        else node fuel true false
      return item :: (← indentlessItems fuel)
    | _ => return []

/-- The entries of a block mapping. -/
def blockEntries : Nat → Compose (List (Node × Node))
  | 0 => fault
  | fuel + 1 => do
    let here ← peek
    match here.kind with
    | .blockEnd =>
      skip
      return []
    | .key =>
      skip
      let key ←
        if omittedInBlock (← peekKind) then pure (Node.omitted here.line) else node fuel true true
      let value ← blockValue fuel
      return (key, value) :: (← blockEntries fuel)
    | _ => fault

/-- The value of an entry of a block mapping. -/
def blockValue : Nat → Compose Node
  | 0 => fault
  | fuel + 1 => do
    let here ← peek
    if here.kind = .value then
      skip
      if omittedInBlock (← peekKind) then return Node.omitted here.line
      else node fuel true true
    else return Node.omitted here.line

/-- The entries of a sequence in brackets. -/
def flowItems : Nat → (first : Bool) → Compose (List Node)
  | 0, _ => fault
  | fuel + 1, first => do
    let here ← peek
    if here.kind = .flowSequenceEnd then
      skip
      return []
    else
      if !first then
        if here.kind = .separator then skip else fault
      let here ← peek
      match here.kind with
      | .flowSequenceEnd =>
        skip
        return []
      | .key =>
        skip
        let key ← flowPairKey fuel
        let value ← flowValue fuel .flowSequenceEnd
        return .mapping here.line none [(key, value)] :: (← flowItems fuel false)
      | _ =>
        let item ← node fuel false false
        return item :: (← flowItems fuel false)

/-- The key of a single entry of a mapping inside of a sequence in brackets. -/
def flowPairKey : Nat → Compose Node
  | 0 => fault
  | fuel + 1 => do
    let here ← peek
    if here.kind = .value ∨ here.kind = .separator ∨ here.kind = .flowSequenceEnd then
      skip
      return Node.omitted here.line
    else node fuel false false

/-- The entries of a mapping in brackets. -/
def flowEntries : Nat → (first : Bool) → Compose (List (Node × Node))
  | 0, _ => fault
  | fuel + 1, first => do
    let here ← peek
    if here.kind = .flowMappingEnd then
      skip
      return []
    else
      if !first then
        if here.kind = .separator then skip else fault
      let here ← peek
      match here.kind with
      | .flowMappingEnd =>
        skip
        return []
      | .key =>
        skip
        let next ← peek
        let key ←
          if next.kind = .value ∨ next.kind = .separator ∨ next.kind = .flowMappingEnd then
            pure (Node.omitted next.line)
          else node fuel false false
        let value ← flowValue fuel .flowMappingEnd
        return (key, value) :: (← flowEntries fuel false)
      | _ =>
        let key ← node fuel false false
        let next ← peek
        return (key, Node.omitted next.line) :: (← flowEntries fuel false)

/-- The value of an entry of a mapping in brackets that the given lexeme closes. -/
def flowValue : Nat → (closing : LexemeKind) → Compose Node
  | 0, _ => fault
  | fuel + 1, closing => do
    let here ← peek
    if here.kind = .value then
      skip
      let next ← peekKind
      if next = .separator ∨ next = closing then return Node.omitted here.line
      else node fuel false false
    else return Node.omitted here.line

end

/-! ### Documents -/

/-- Goes over the directives in front of a document. Only one version is known, and nothing may be
declared twice. -/
def directives : Nat → (versionSeen : Bool) → Compose Unit
  | 0, _ => fault
  | fuel + 1, versionSeen => do
    match ← peekKind with
    | .version major minor =>
      if versionSeen ∨ major ≠ 1 ∨ minor ≠ 1 then fault
      else
        skip
        directives fuel true
    | .handle name uri =>
      skip
      let c ← get
      if (c.handles.lookup name).isSome then fault
      else
        set { c with handles := (name, uri) :: c.handles }
        directives fuel versionSeen
    | _ => return ()

/-- The root of a document that begins with a mark. -/
def markedRoot (fuel : Nat) : Compose Node := do
  directives fuel false
  if (← peekKind) ≠ .documentStart then fault
  else
    skip
    let c ← get
    set { c with handles := c.handles ++ defaultHandles }
    let here ← peek
    match here.kind with
    | .version _ _ | .handle _ _ | .documentStart | .documentEnd | .streamEnd =>
      return Node.omitted here.line
    | _ => node fuel true false

/-- The root of the first document, if there is one. Of what follows the document, only the next
lexeme is asked for, and it may be any. -/
def firstRoot (fuel : Nat) : Compose (Option Node) := do
  match ← peekKind with
  | .streamEnd => return none
  | .version _ _ | .handle _ _ | .documentStart =>
    let root ← markedRoot fuel
    let _ ← peek
    return some root
  | _ =>
    let c ← get
    set { c with handles := defaultHandles }
    let root ← node fuel true false
    let _ ← peek
    return some root

end Compose

/-- The nodes with anchors in the order of their numbers. -/
def numbered (count : Nat) (anchored : List (Nat × Node)) : List Node :=
  (List.range count).map fun number ↦ (anchored.lookup number).getD (Node.omitted 0)

/-- A bound on the number of lexemes and nodes of a text: a character begins no more than four
lexemes, each of which makes few steps. -/
def bound (source : Source) : Nat :=
  16 * (source.chars.length + 4)

/-- Reads the first document of a text, if there is one; none if the text is not well-formed. -/
def firstDocument? (text : String) : Option (Option Document) :=
  let source := Source.ofText text
  match Compose.firstRoot (bound source) ⟨Scan.start source, [], [], []⟩ with
  | none => none
  | some (root?, c) =>
    some (root?.map fun root ↦ ⟨root, numbered c.anchors.length c.anchored, bound source⟩)

end Yaml

end Reckoner
