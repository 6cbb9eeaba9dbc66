import StorageLoad.Markup.Token

/-!
The tree of an option document: texts, sequences and mappings with their tags.  An alias stands
for a copy of the node that has its anchor.
-/

namespace StorageLoad.Markup

inductive Node where
  /-- A text; without a tag its own form tells what it stands for. -/
  | scalar (tag : Option String) (text : String)
  | sequence (tag : Option String) (items : List Node)
  | mapping (tag : Option String) (entries : List (Node × Node))
  deriving Inhabited

namespace Tag

/-- What all tags of the language start with. -/
def front : String := "tag:yaml.org,2002:"

def text : String := front ++ "str"
def null : String := front ++ "null"
def bool : String := front ++ "bool"
def int : String := front ++ "int"
def real : String := front ++ "float"
def sequence : String := front ++ "seq"
def mapping : String := front ++ "map"
def merge : String := front ++ "merge"
def value : String := front ++ "value"

/-- The handles that need no directive. -/
def handles : List (String × String) :=
  [("!", "!"), ("!!", front)]

end Tag

/-- The tokens that are left, why there are no more after them, the anchors so far, and the
handles of tags.  An anchor whose node is not yet complete has none. -/
structure Growth where
  tokens : List Token
  stop : Option Fault
  anchors : List (String × Option Node)
  handles : List (String × String)

/-- A part of building the tree. -/
abbrev Growing (α : Type) := StateT Growth (Except Fault) α

namespace Growing

def malformed {α : Type} : Growing α :=
  throw .malformedDocument

/-- The next token.  Where it cannot be found, the tree cannot be built. -/
def peek : Growing (Option Token) := do
  let s ← get
  match s.tokens, s.stop with
  | t :: _, _ => return some t
  | [], some fault => throw fault
  | [], none => return none

def drop : Growing Unit :=
  modify fun s => { s with tokens := s.tokens.tail }

/-- Whether the next token is one of some; the end counts as none. -/
def sees (ts : List Token) : Growing Bool := do
  return (← peek).any (ts.contains ·)

/-- Passes a token if it is the next one. -/
def pass (t : Token) : Growing Bool := do
  if (← peek) = some t then
    drop
    return true
  else return false

def expect (t : Token) : Growing Unit := do
  if !(← pass t) then malformed

/-- A node that is left out. -/
def empty : Node :=
  .scalar none ""

def anchor? : Growing (Option String) := do
  match ← peek with
  | some (.anchor name) => do
      drop
      return some (String.ofList name)
  | _ => return none

/-- A tag with its handle. -/
def tag? : Growing (Option (Option (List Char) × List Char)) := do
  match ← peek with
  | some (.tag handle suffix) => do
      drop
      return some (handle, suffix)
  | _ => return none

/-- A tag whose handle is replaced by what it stands for. -/
def resolved : Option (Option (List Char) × List Char) → Growing (Option String)
  | none => return none
  | some (none, suffix) => return some (String.ofList suffix)
  | some (some handle, suffix) => do
      match (← get).handles.lookup (String.ofList handle) with
      | some stands => return some (stands ++ String.ofList suffix)
      | none => malformed

/-- An anchor and a tag, in either order. -/
def properties : Growing (Option String × Option String) := do
  match ← anchor? with
  | some anchor => return (some anchor, ← resolved (← tag?))
  | none =>
      let tag ← tag?
      let anchor ← anchor?
      return (anchor, ← resolved tag)

/-- The tag as it counts: a single exclamation mark leaves the meaning to the node. -/
def counting (tag : Option String) : Option String :=
  tag.filter (· ≠ "!")

/-- The node with an anchor. -/
def aliased (name : List Char) : Growing Node := do
  match (← get).anchors.lookup (String.ofList name) with
  | some (some node) => return node
  | _ => malformed

/-- Announces an anchor, which must be new. -/
def announce (anchor : Option String) : Growing Unit := do
  match anchor with
  | none => return
  | some name =>
      if ((← get).anchors.lookup name).isSome then malformed
      else modify fun s => { s with anchors := (name, none) :: s.anchors }

/-- Completes an anchor with its node. -/
def complete (anchor : Option String) (node : Node) : Growing Unit :=
  match anchor with
  | none => pure ()
  | some name => modify fun s =>
      { s with anchors := s.anchors.map fun (n, old) => (n, if n = name then some node else old) }

mutual

/-- A node.  In a block it may be a block collection; as the value of a mapping it may be a
sequence without an indentation of its own. -/
def node (inBlock indentless : Bool) : Nat → Growing Node
  | 0 => malformed
  | fuel + 1 => do
      match ← peek with
      | some (.alias name) =>
          drop
          aliased name
      | _ =>
          let (anchor, tag) ← properties
          let _ ← peek
          announce anchor
          let built ← content inBlock indentless anchor tag fuel
          complete anchor built
          return built

/-- What follows the properties of a node. -/
def content (inBlock indentless : Bool) (anchor tag : Option String) : Nat → Growing Node
  | 0 => malformed
  | fuel + 1 => do
      let counts := counting tag
      match ← peek with
      | some (.scalar text plain) =>
          drop
          let known := if plain ∨ tag.isSome then counts else some Tag.text
          return .scalar known (String.ofList text)
      | some .blockEntry =>
          if indentless then return .sequence counts (← indentlessItems fuel)
          else if anchor.isSome ∨ tag.isSome then return .scalar counts ""
          else malformed
      | some .flowSequenceStart =>
          drop
          return .sequence counts (← flowItems true fuel)
      | some .flowMappingStart =>
          drop
          return .mapping counts (← flowEntries true fuel)
      | next =>
          if inBlock ∧ next = some .blockSequenceStart then
            drop
            return .sequence counts (← blockItems fuel)
          else if inBlock ∧ next = some .blockMappingStart then
            drop
            return .mapping counts (← blockEntries fuel)
          else if anchor.isSome ∨ tag.isSome then return .scalar counts ""
          else malformed

/-- A node, unless it is left out before one of some tokens. -/
def nodeUnless (ends : List Token) (inBlock indentless : Bool) : Nat → Growing Node
  | 0 => malformed
  | fuel + 1 => do
      if ← sees ends then return empty else node inBlock indentless fuel

def blockItems : Nat → Growing (List Node)
  | 0 => malformed
  | fuel + 1 => do
      if ← pass .blockEntry then
        let item ← nodeUnless [.blockEntry, .blockEnd] true false fuel
        return item :: (← blockItems fuel)
      else
        expect .blockEnd
        return []

def indentlessItems : Nat → Growing (List Node)
  | 0 => malformed
  | fuel + 1 => do
      if ← pass .blockEntry then
        let item ← nodeUnless [.blockEntry, .key, .value, .blockEnd] true false fuel
        return item :: (← indentlessItems fuel)
      else return []

def blockEntries : Nat → Growing (List (Node × Node))
  | 0 => malformed
  | fuel + 1 => do
      if ← pass .key then
        let ends := [.key, .value, .blockEnd]
        let k ← nodeUnless ends true true fuel
        let v ← if ← pass .value then nodeUnless ends true true fuel else pure empty
        return (k, v) :: (← blockEntries fuel)
      else
        expect .blockEnd
        return []

/-- The value of a key in flow, before one of some tokens. -/
def flowValue (ends : List Token) : Nat → Growing Node
  | 0 => malformed
  | fuel + 1 => do
      if ← pass .value then nodeUnless ends false false fuel else return empty

def flowItems (first : Bool) : Nat → Growing (List Node)
  | 0 => malformed
  | fuel + 1 => do
      if ← pass .flowSequenceEnd then return []
      else
        if !first then expect .flowEntry
        if ← pass .flowSequenceEnd then return []
        else if ← pass .key then
          let k ← nodeUnless [.value, .flowEntry, .flowSequenceEnd] false false fuel
          let v ← flowValue [.flowEntry, .flowSequenceEnd] fuel
          return .mapping none [(k, v)] :: (← flowItems false fuel)
        else
          let item ← node false false fuel
          return item :: (← flowItems false fuel)

def flowEntries (first : Bool) : Nat → Growing (List (Node × Node))
  | 0 => malformed
  | fuel + 1 => do
      if ← pass .flowMappingEnd then return []
      else
        if !first then expect .flowEntry
        if ← pass .flowMappingEnd then return []
        else if ← pass .key then
          let k ← nodeUnless [.value, .flowEntry, .flowMappingEnd] false false fuel
          let v ← flowValue [.flowEntry, .flowMappingEnd] fuel
          return (k, v) :: (← flowEntries false fuel)
        else
          let k ← node false false fuel
          return (k, empty) :: (← flowEntries false fuel)

end

/-- The directives before a document; a version other than the first and a repetition are
refused. -/
def directives (seen : Bool) : Nat → Growing Unit
  | 0 => return
  | fuel + 1 => do
      match ← peek with
      | some (.version major) =>
          drop
          if seen ∨ major ≠ 1 then malformed else directives true fuel
      | some (.handle name stands) =>
          drop
          let name := String.ofList name
          if ((← get).handles.lookup name).isSome then malformed
          else
            modify fun s => { s with handles := (name, String.ofList stands) :: s.handles }
            directives seen fuel
      | some .directive =>
          drop
          directives seen fuel
      | _ => return

def isDirective : Token → Bool
  | .version _ => true
  | .handle _ _ => true
  | .directive => true
  | _ => false

/-- Passes all ends of documents. -/
def documentEnds : Nat → Growing Unit
  | 0 => return
  | fuel + 1 => do
      if ← pass .documentEnd then documentEnds fuel

/-- The node of a document whose start is marked. -/
def marked (fuel : Nat) : Growing Node := do
  directives false fuel
  expect .documentStart
  modify fun s =>
    { s with handles := s.handles ++ Tag.handles.filter fun h => (s.handles.lookup h.1).isNone }
  match ← peek with
  | none => return empty
  | some t =>
      if isDirective t ∨ t = .documentStart ∨ t = .documentEnd then return empty
      else node true false fuel

/-- The node of the only document; `none` if there is no document. -/
def document (fuel : Nat) : Growing (Option Node) := do
  match ← peek with
  | none => return none
  | some t =>
      let root ←
        if isDirective t ∨ t = .documentStart then marked fuel
        else do
          modify fun s => { s with handles := Tag.handles }
          node true false fuel
      documentEnds fuel
      if (← peek).isNone then return some root
      else
        modify fun s => { s with handles := [] }
        directives false fuel
        let _ ← peek
        malformed

end Growing

namespace Node

/-- The tree that tokens spell; `none` if there are none. -/
def ofTokens (lexed : Lexed) : Outcome (Option Node) :=
  let growth : Growth :=
    { tokens := lexed.tokens, stop := lexed.stop.map (·.cause), anchors := [], handles := [] }
  ((Growing.document (4 * lexed.tokens.length + 4)).run growth).map (·.1)

end Node

end StorageLoad.Markup
