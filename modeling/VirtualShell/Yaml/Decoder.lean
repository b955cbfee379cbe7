import VirtualShell.Json.Basic
import VirtualShell.Yaml.Reader
import VirtualShell.Yaml.Resolution

/-!
Typed values from the nodes of a document. A wanted text is taken from any scalar, a wanted number or truth
value from a plain one only; an empty plain scalar is also an empty collection.
-/
namespace VirtualShell.Yaml

/-- Decoding within a document; the state is how many more aliases may be followed. -/
abbrev Decode (α : Type) := ReaderT Document (StateT Nat (Except YamlError)) α

/-- How a value is decoded from a node. -/
abbrev Decoder (α : Type) := Node → Decode α

namespace Decoder

def mismatch {α : Type} (wanted : String) : Decode α := throw (.mismatch wanted)

/-- How deeply collections may nest. -/
def depthLimit : Nat := 128

/-- The node itself, or the one that an alias stands for. -/
def target : Node → Decode Node
  | .alias number => do
    match ← get with
    | 0 => throw .tooManyAliases
    | left + 1 =>
      set left
      match (← read).anchors.find? fun anchor => anchor.1 == number with
      | some (_, node) => return node
      | none => throw (.unknownAnchor (toString number))
  | node => return node

def nullTag : Tag := .ofString "tag:yaml.org,2002:null"
def boolTag : Tag := .ofString "tag:yaml.org,2002:bool"
def intTag : Tag := .ofString "tag:yaml.org,2002:int"
def floatTag : Tag := .ofString "tag:yaml.org,2002:float"

/-- The exclamation mark that a local tag starts with. -/
def localMark : UInt8 := 33

/-- The name of a local tag, without its exclamation mark unless it is nothing else. -/
def localName? : Option Tag → Option String
  | some (mark :: name) =>
    if mark == localMark then
      String.fromUTF8? ⟨(if name.isEmpty then [mark] else name).toArray⟩
    else none
  | _ => none

def isLocalTag (tag : Option Tag) : Bool := (localName? tag).isSome

/-- Whether a scalar may stand for a value of the type that a tag names. -/
def isTyped (tag : Tag) (scalar : Scalar) : Bool :=
  scalar.style == .plain || (scalar.style == .literal && scalar.tag == some tag)

/-- Whether a node is an empty collection without being written as one. -/
def isNothing : Node → Bool
  | .scalar scalar => scalar.text.isEmpty && scalar.style == .plain
  | .void => true
  | _ => false

def text : Decoder String := fun node => do
  match ← target node with
  | .scalar scalar => return scalar.text
  | _ => mismatch "a string"

/-- A natural number below a limit. -/
def natural (limit : Nat) : Decoder Nat := fun node => do
  match ← target node with
  | .scalar scalar =>
    match Resolved.natural? UInt64.size scalar.text.toList with
    | some n => if isTyped intTag scalar && n < limit then return n else mismatch "an integer"
    | none => mismatch "an integer"
  | _ => mismatch "an integer"

def bool : Decoder Bool := fun node => do
  match ← target node with
  | .scalar scalar =>
    match Resolved.boolOf? scalar.text with
    | some b => if isTyped boolTag scalar then return b else mismatch "a boolean"
    | none => mismatch "a boolean"
  | _ => mismatch "a boolean"

def float : Decoder Number.Binary64 := fun node => do
  match ← target node with
  | .scalar scalar =>
    match Resolved.float? scalar.text.toList with
    | some x => if isTyped floatTag scalar then return x else mismatch "a float"
    | none => mismatch "a float"
  | _ => mismatch "a float"

/-- A value that may be left out or null. -/
def option {α : Type} (decoder : Decoder α) : Decoder (Option α) := fun node => do
  match ← target node with
  | .void => return none
  | .scalar scalar =>
    if scalar.style != .plain then return some (← decoder (.scalar scalar))
    match scalar.tag with
    | some tag =>
      if tag != nullTag then return some (← decoder (.scalar scalar))
      if Resolved.isNullWord scalar.text then return none else mismatch "null"
    | none =>
      if scalar.text.isEmpty || Resolved.isNullWord scalar.text then return none
      return some (← decoder (.scalar scalar))
  | node => return some (← decoder node)

def list {α : Type} (decoder : Decoder α) : Decoder (List α) := fun node => do
  match ← target node with
  | .sequence _ items => items.mapM decoder
  | node => if isNothing node then return [] else mismatch "a sequence"

/-- The entries of a mapping with their keys as texts, in the order written. -/
def entries : Decoder (List (String × Node)) := fun node => do
  match ← target node with
  | .mapping _ entries => entries.mapM fun (key, value) => return (← text key, value)
  | node => if isNothing node then return [] else mismatch "a map"

/-- A mapping; of two entries with one key the later wins. -/
def keyed {α : Type} (decoder : Decoder α) : Decoder (Keyed α) := fun node => do
  let pairs ← (← entries node).mapM fun (key, value) => return (key, ← decoder value)
  return Keyed.ofList pairs

/-- The known fields of a mapping, each at most once; other entries are passed over. -/
def fields (known : List String) : Decoder (List (String × Node)) := fun node => do
  let found := (← entries node).filter fun entry => known.contains entry.1
  match found.find? fun entry => (found.filter fun other => other.1 == entry.1).length > 1 with
  | some (key, _) => throw (.repeatedKey key)
  | none => return found

/-- The value of a field, or a default if it is not there. -/
def field {α : Type} (name : String) (decoder : Decoder α) (absent : α)
    (fields : List (String × Node)) : Decode α := do
  match fields.find? fun entry => entry.1 == name with
  | some (_, node) => decoder node
  | none => return absent

/-- One of several names, written as a scalar or as the tag of an empty one. -/
def choice {α : Type} (ofName? : String → Option α) : Decoder α := fun node => do
  let named (name : String) : Decode α :=
    match ofName? name with
    | some x => return x
    | none => mismatch "a known name"
  let node ← target node
  let tag := match node with
    | .scalar scalar => scalar.tag
    | .sequence tag _ => tag
    | .mapping tag _ => tag
    | _ => none
  match localName? tag, node with
  | some name, .scalar scalar =>
    if scalar.style == .plain && (scalar.text.isEmpty || Resolved.isNullWord scalar.text) then named name
    else mismatch "nothing behind the tag"
  | some _, _ => mismatch "nothing behind the tag"
  | _, .scalar scalar => named scalar.text
  | _, _ => mismatch "a name"

/-- What a scalar stands for by its tag, its style and its text; `tagged` if the tag is already dealt with. -/
def resolution (tagged : Bool) (scalar : Scalar) : Decode Resolved :=
  let cs := scalar.text.toList
  let untyped := if scalar.style == .plain then resolve scalar.text else .text
  let wanted (x : Option Resolved) (what : String) : Decode Resolved :=
    match x with
    | some x => return x
    | none => mismatch what
  match if tagged then none else scalar.tag with
  | some tag =>
    if tag == boolTag then wanted ((Resolved.boolOf? scalar.text).map .bool) "a boolean"
    else if tag == intTag then wanted (Resolved.whole? cs) "an integer"
    else if tag == floatTag then wanted ((Resolved.float? cs).map .float) "a float"
    else if tag == nullTag then wanted (if Resolved.isNullWord scalar.text then some .null else none) "null"
    else return if tag.head? == some localMark then untyped else .text
  | none => return untyped

def jsonScalar (scalar : Scalar) : Decode Json := do
  if isLocalTag scalar.tag then mismatch "a value without a local tag"
  match ← resolution false scalar with
  | .null => return .null
  | .bool b => return .bool b
  | .natural n => return .number (.natural n)
  | .negative n => return .number (.negative n)
  | .wide => mismatch "an integer of 64 bits"
  | .float x => return if x.isFinite then .number (.float x) else .null
  | .text => return .string scalar.text

/-- A value of any type, with at most `depth` collections around each other. -/
def json : Nat → Decoder Json
  | depth, node => do
    match ← target node with
    | .void => return .null
    | .scalar scalar => jsonScalar scalar
    | .sequence tag items =>
      if isLocalTag tag then mismatch "a value without a local tag"
      match depth with
      | 0 => throw .tooDeep
      | depth + 1 => return .array (← items.mapM (json depth))
    | .mapping tag members =>
      if isLocalTag tag then mismatch "a value without a local tag"
      match depth with
      | 0 => throw .tooDeep
      | depth + 1 =>
        let pairs ← members.mapM fun (key, value) => return (← text key, ← json depth value)
        return .object (Keyed.ofList pairs)
    | .alias _ => throw .tooManyAliases

/-- A value in which tags, and keys of any type, are kept. -/
inductive Value where
  | null
  | bool (b : Bool)
  | natural (n : UInt64)
  | negative (n : UInt64)
  | float (x : Number.Binary64)
  | text (s : String)
  | sequence (items : List Value)
  | mapping (entries : List (Value × Value))
  | tagged (tag : String) (value : Value)
  deriving Repr, Inhabited

namespace Value

/-- The text beneath any tags. -/
def text? : Value → Option String
  | .text s => some s
  | .tagged _ value => value.text?
  | _ => none

/-- The name of a tag without one exclamation mark at its start, unless it is nothing else. -/
def bareName (tag : String) : String :=
  match tag.toList with
  | '!' :: c :: rest => .ofList (c :: rest)
  | _ => tag

def sameFloat (x y : Number.Binary64) : Bool := x == y || x.same y

/-- Whether two values of a bounded depth are equal as keys. -/
def same : Nat → Value → Value → Bool
  | 0, _, _ => false
  | fuel + 1, x, y =>
    match x, y with
    | .null, .null => true
    | .bool a, .bool b => a == b
    | .natural m, .natural n => m == n
    | .negative m, .negative n => m == n
    | .float a, .float b => sameFloat a b
    | .text s, .text t => s == t
    | .sequence xs, .sequence ys =>
      xs.length == ys.length && (xs.zip ys).all fun (x, y) => same fuel x y
    | .mapping xs, .mapping ys =>
      xs.length == ys.length &&
        xs.all fun (k, v) => ys.any fun (l, w) => same fuel k l && same fuel v w
    | .tagged s x, .tagged t y => bareName s == bareName t && same fuel x y
    | _, _ => false

end Value

def valueScalar (tagged : Bool) (scalar : Scalar) : Decode Value := do
  match ← resolution tagged scalar with
  | .null => return .null
  | .bool b => return .bool b
  | .natural n => return .natural n
  | .negative n => return .negative n
  | .wide => mismatch "an integer of 64 bits"
  | .float x => return .float x
  | .text => return .text scalar.text

/-- The entries of a mapping in which no key comes twice. -/
def distinct : List (Value × Value) → Decode (List (Value × Value))
  | [] => return []
  | (key, value) :: rest => do
    if rest.any fun entry => Value.same depthLimit key entry.1 then throw (.repeatedKey "of a mapping")
    return (key, value) :: (← distinct rest)

/-- A value of any type with its tags. -/
def value : Nat → Decoder Value
  | depth, node => do
    let wrap (tag : Option Tag) (value : Value) : Value :=
      match localName? tag with
      | some name => .tagged name value
      | none => value
    match ← target node with
    | .void => return .null
    | .scalar scalar => return wrap scalar.tag (← valueScalar (isLocalTag scalar.tag) scalar)
    | .sequence tag items =>
      match depth with
      | 0 => throw .tooDeep
      | depth + 1 => return wrap tag (.sequence (← items.mapM (value depth)))
    | .mapping tag entries =>
      match depth with
      | 0 => throw .tooDeep
      | depth + 1 =>
        let pairs ← entries.mapM fun (k, v) => return (← value depth k, ← value depth v)
        return wrap tag (.mapping (← distinct pairs))
    | .alias _ => throw .tooManyAliases

end Decoder

/-- The value of a document. -/
def Document.decode {α : Type} (document : Document) (decoder : Decoder α) : Except YamlError α :=
  let limit := 100 * document.root.steps
  ((decoder document.root).run document).run' limit

/-- The value that a text stands for. -/
def decode {α : Type} (decoder : Decoder α) (text : String) : Except YamlError α := do
  (← Document.parse text).decode decoder

mutual

/-- A JSON value as a node: texts between quotes, all else plain. -/
def ofJson (numberText : JsonNumber → String) : Json → Node
  | .null => .scalar ⟨"null", .plain, none⟩
  | .bool b => .scalar ⟨if b then "true" else "false", .plain, none⟩
  | .number n => .scalar ⟨numberText n, .plain, none⟩
  | .string s => .scalar ⟨s, .double, none⟩
  | .array items => .sequence none (ofJsonItems numberText items)
  | .object members => .mapping none (ofJsonMembers numberText members)

def ofJsonItems (numberText : JsonNumber → String) : List Json → List Node
  | [] => []
  | x :: rest => ofJson numberText x :: ofJsonItems numberText rest

def ofJsonMembers (numberText : JsonNumber → String) : List (String × Json) → List (Node × Node)
  | [] => []
  | (key, x) :: rest => (.scalar ⟨key, .double, none⟩, ofJson numberText x) :: ofJsonMembers numberText rest

end

end VirtualShell.Yaml
