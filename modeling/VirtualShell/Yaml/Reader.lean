import VirtualShell.Keyed
import VirtualShell.Yaml.Lexer

/-!
Tokens as a document. A text holds one document at most; one without any is void. An anchor is numbered by
how many names there are, so a later anchor can take over the number of an earlier one.
-/
namespace VirtualShell.Yaml

structure Reader where
  rest : List Token
  /-- What stands for the handles of tags. -/
  handles : List (String × Tag)
  /-- The number of each anchor. -/
  names : Keyed Nat
  /-- For each number its node's place among the anchored ones, the latest first. -/
  places : List (Nat × Nat)
  /-- The anchored nodes by place. -/
  nodes : List (Nat × Node)

/-- Reading nodes off the tokens. -/
abbrev Reading (α : Type) := StateT Reader (Except YamlError) α

namespace Reader

def refuse {α : Type} (problem : String) : Reading α := throw (.badStructure problem)

def peek : Reading Token := return (← get).rest.head?.getD .streamEnd

def advance : Reading Unit := modify fun reader => { reader with rest := reader.rest.tail }

/-- Gives the next anchored node its number and place. -/
def nameNode (name : String) : Reading Nat := do
  let reader ← get
  let number := reader.names.length
  let place := reader.places.length
  set { reader with
    names := Keyed.insert name number reader.names
    places := (number, place) :: reader.places }
  return place

def placeNode (place : Option Nat) (node : Node) : Reading Node := do
  match place with
  | some place => modify fun reader => { reader with nodes := (place, node) :: reader.nodes }
  | none => pure ()
  return node

/-- A tag with its handle worked out. -/
def expandTag (handle : String) (suffix : Tag) : Reading Tag := do
  if handle.isEmpty then return suffix
  match (← get).handles.find? fun h => h.1 == handle with
  | some (_, stem) => return stem ++ suffix
  | none => refuse "found undefined tag handle"

/-- The anchor and the tag that stand before a node, in either order. -/
def properties : Reading (Option String × Option Tag) := do
  let anchor : Reading (Option String) := do
    match ← peek with
    | .anchor name => advance; return some name
    | _ => return none
  let tag : Reading (Option Tag) := do
    match ← peek with
    | .tag handle suffix => advance; return some (← expandTag handle suffix)
    | _ => return none
  match ← anchor with
  | some name => return (some name, ← tag)
  | none =>
    let found ← tag
    let name ← if found.isSome then anchor else pure none
    return (name, found)

mutual

/-- A node; in a block context it may be a block collection, behind a key also one that is not indented. -/
def node : Nat → Bool → Bool → Reading Node
  | 0, _, _ => refuse "did not find expected node content"
  | fuel + 1, block, hanging => do
    if let .alias name ← peek then
      advance
      match Keyed.find? name (← get).names with
      | some number => return .alias number
      | none => throw (.unknownAnchor name)
    let (anchor, tag) ← properties
    let named : Reading (Option Nat) := do
      match anchor with
      | some name => return some (← nameNode name)
      | none => return none
    match ← peek with
    | .scalar text style =>
      advance
      placeNode (← named) (.scalar ⟨text, style, tag⟩)
    | .flowSequence =>
      let place ← named
      advance
      placeNode place (.sequence tag (← flowItems fuel true))
    | .flowMapping =>
      let place ← named
      advance
      placeNode place (.mapping tag (← flowEntries fuel true))
    | token =>
      if token == .entry && hanging then
        let place ← named
        placeNode place (.sequence tag (← blockItems fuel true))
      else if token == .blockSequence && block then
        let place ← named
        advance
        placeNode place (.sequence tag (← blockItems fuel false))
      else if token == .blockMapping && block then
        let place ← named
        advance
        placeNode place (.mapping tag (← blockEntries fuel))
      else if anchor.isSome || tag.isSome then
        placeNode (← named) (.scalar ⟨"", .plain, tag⟩)
      else refuse "did not find expected node content"

/-- The items of a block sequence; a hanging one ends where no dash follows. -/
def blockItems : Nat → Bool → Reading (List Node)
  | 0, _ => refuse "did not find expected '-' indicator"
  | fuel + 1, hanging => do
    match ← peek with
    | .entry =>
      advance
      let next ← peek
      let isEmpty := next == .entry || next == .blockEnd || (hanging && (next == .key || next == .value))
      let item ← if isEmpty then pure (.scalar .empty) else node fuel true false
      return item :: (← blockItems fuel hanging)
    | token =>
      if hanging then return []
      else if token == .blockEnd then
        advance
        return []
      else refuse "did not find expected '-' indicator"

/-- The node behind a key or value sign of a block mapping, which may be left out. -/
def blockPart : Nat → Reading Node
  | 0 => refuse "did not find expected node content"
  | fuel + 1 => do
    advance
    let next ← peek
    if next == .key || next == .value || next == .blockEnd then return .scalar .empty
    else node fuel true true

/-- The entries of a block mapping. -/
def blockEntries : Nat → Reading (List (Node × Node))
  | 0 => refuse "did not find expected key"
  | fuel + 1 => do
    match ← peek with
    | .key =>
      let key ← blockPart fuel
      let value ← if (← peek) == .value then blockPart fuel else pure (.scalar .empty)
      return (key, value) :: (← blockEntries fuel)
    | .blockEnd =>
      advance
      return []
    | _ => refuse "did not find expected key"

/-- The value behind a key in brackets that end in a given token. -/
def flowValue : Nat → Token → Reading Node
  | 0, _ => refuse "did not find expected node content"
  | fuel + 1, close => do
    if (← peek) != .value then return .scalar .empty
    advance
    let next ← peek
    if next == .comma || next == close then return .scalar .empty else node fuel false false

/-- The items of a sequence in brackets; one of them may be a single entry of a mapping. -/
def flowItems : Nat → Bool → Reading (List Node)
  | 0, _ => refuse "did not find expected ',' or ']'"
  | fuel + 1, first => do
    if (← peek) == .flowSequenceEnd then
      advance
      return []
    if !first then
      if (← peek) == .comma then advance else refuse "did not find expected ',' or ']'"
    match ← peek with
    | .key =>
      advance
      let next ← peek
      let key ← if next == .value || next == .comma || next == .flowSequenceEnd then do
          advance
          pure (.scalar .empty)
        else node fuel false false
      let value ← flowValue fuel .flowSequenceEnd
      return .mapping none [(key, value)] :: (← flowItems fuel false)
    | .flowSequenceEnd =>
      advance
      return []
    | _ => return (← node fuel false false) :: (← flowItems fuel false)

/-- The entries of a mapping in braces. -/
def flowEntries : Nat → Bool → Reading (List (Node × Node))
  | 0, _ => refuse "did not find expected ',' or '\x7d'"
  | fuel + 1, first => do
    if (← peek) == .flowMappingEnd then
      advance
      return []
    if !first then
      if (← peek) == .comma then advance else refuse "did not find expected ',' or '\x7d'"
    match ← peek with
    | .key =>
      advance
      let next ← peek
      let key ← if next == .value || next == .comma || next == .flowMappingEnd then pure (.scalar .empty)
        else node fuel false false
      let value ← flowValue fuel .flowMappingEnd
      return (key, value) :: (← flowEntries fuel false)
    | .flowMappingEnd =>
      advance
      return []
    | _ =>
      let key ← node fuel false false
      return (key, .scalar .empty) :: (← flowEntries fuel false)

end

/-- The handles that need no directive. -/
def standardHandles : List (String × Tag) :=
  [("!", .ofString "!"), ("!!", .ofString "tag:yaml.org,2002:")]

/-- The directives before a document. -/
def directives : Nat → Bool → Reading Unit
  | 0, _ => pure ()
  | fuel + 1, versioned => do
    match ← peek with
    | .version major minor =>
      if versioned then refuse "found duplicate %YAML directive"
      if major != 1 || (minor != 1 && minor != 2) then refuse "found incompatible YAML document"
      advance
      directives fuel true
    | .tagHandle handle stem =>
      if (← get).handles.any fun h => h.1 == handle then refuse "found duplicate %TAG directive"
      modify fun reader => { reader with handles := (handle, stem) :: reader.handles }
      advance
      directives fuel versioned
    | _ => modify fun reader => { reader with handles := reader.handles ++ standardHandles }

/-- The content of a document, which may be left out behind its mark. -/
def content (fuel : Nat) (marked : Bool) : Reading Node := do
  match ← peek with
  | .version .. | .tagHandle .. | .documentStart | .documentEnd | .streamEnd =>
    if marked then return .scalar .empty else node fuel true false
  | _ => node fuel true false

def skipEnds : Nat → Reading Unit
  | 0 => pure ()
  | fuel + 1 => do
    if (← peek) == .documentEnd then
      advance
      skipEnds fuel

/-- The only document of a stream. -/
def stream (fuel : Nat) : Reading Node := do
  if (← peek) == .streamEnd then return .void
  let root ← match ← peek with
    | .version .. | .tagHandle .. | .documentStart => do
      directives fuel false
      if (← peek) != .documentStart then refuse "did not find expected <document start>"
      advance
      content fuel true
    | _ => do
      directives fuel false
      content fuel false
  skipEnds fuel
  if (← peek) == .streamEnd then return root else throw .severalDocuments

end Reader

/-- The document that a text holds. -/
def Document.parse (text : String) : Except YamlError Document := do
  let tokens ← tokens text.toList
  let (root, reader) ← (Reader.stream (4 * tokens.length + 8)).run ⟨tokens, [], [], [], []⟩
  let anchors := reader.places.filterMap fun (number, place) =>
    (reader.nodes.find? fun n => n.1 == place).map fun n => (number, n.2)
  return ⟨root, anchors⟩

end VirtualShell.Yaml
