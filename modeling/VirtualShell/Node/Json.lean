import VirtualShell.Node.Basic
import VirtualShell.Json.Printer
import VirtualShell.Json.Skip

/-! Node metadata as JSON text, the form in which a bucket keeps it. -/
namespace VirtualShell.Node

/-- The members of a node in the order in which they are written; an absent size is left out. -/
def members (node : Node) : List (String × Json) :=
  [("name", .string node.name), ("is_dir", .bool node.isDir), ("parent_path", .string node.parentPath),
    ("created_at", .number (.natural node.createdAt)), ("modified_at", .number (.natural node.modifiedAt))]
  ++ match node.size with
    | some n => [("size", .number (.natural n))]
    | none => []

def toJson (node : Node) : String := (Json.object node.members).compact

def fieldNames : List String := ["name", "is_dir", "parent_path", "created_at", "modified_at", "size"]

/-- The value of a field that may be given once. -/
def field? (members : List (String × Json)) (name : String) : Except JsonError (Option Json) :=
  match members.filter fun m => m.1 == name with
  | [] => .ok none
  | [(_, value)] => .ok (some value)
  | _ => .error (.repeated name)

/-- A field read by its type, or its default when it is not given. -/
def typed {α : Type} (name : String) (read : Json → Option α) (absent : Option α) :
    Option Json → Except JsonError α
  | some value => match read value with
    | some x => .ok x
    | none => .error (.mismatch name)
  | none => match absent with
    | some x => .ok x
    | none => .error (.missing name)

/-- A size: a whole number, or null for none. -/
def size? : Json → Option (Option UInt64)
  | .null => some none
  | value => value.natural?.map some

/-- A node from the values of its fields. -/
def ofFields (field : String → Except JsonError (Option Json)) : Except JsonError Node := do
  return {
    name := ← typed "name" Json.string? none (← field "name")
    isDir := ← typed "is_dir" Json.bool? none (← field "is_dir")
    parentPath := ← typed "parent_path" Json.string? (some "") (← field "parent_path")
    createdAt := ← typed "created_at" Json.natural? (some 0) (← field "created_at")
    modifiedAt := ← typed "modified_at" Json.natural? (some 0) (← field "modified_at")
    size := ← typed "size" size? (some none) (← field "size") }

/-- A node from an object of named fields, or from the fields in their order. -/
def ofValue : Json → Except JsonError Node
  | .object members => ofFields (field? members)
  | .array items =>
    if items.length > fieldNames.length then .error .trailing
    else ofFields fun name => .ok (((fieldNames.zip items).find? fun p => p.1 == name).map Prod.snd)
  | _ => .error (.mismatch "node")

/-- Reads what `toJson` writes; unknown fields are passed over. -/
def ofJson (text : String) : Except JsonError Node := do
  ofValue (← Json.readRecord fieldNames text)

end VirtualShell.Node
