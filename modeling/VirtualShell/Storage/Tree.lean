import VirtualShell.Storage.Basic
import VirtualShell.Storage.Forest

/-! The store that holds its tree in memory. Before it is set up it holds nothing and refuses everything. -/
namespace VirtualShell

structure Tree where
  /-- The root directory, once the store is set up. -/
  root : Option Entry
  deriving Repr, DecidableEq

namespace Tree

def empty : Tree := ⟨none⟩

/-- The entry at a path. -/
def find? (path : String) (tree : Tree) : Option Entry :=
  match tree.root with
  | some root => root.find? (Path.segments path)
  | none => none

/-- Changes the entry at a path, and tells whether that was done. -/
def alter (f : Entry → Option Entry) (path : String) : Storing Tree Bool := do
  match (← get).root with
  | some root =>
    match root.alter f (Path.segments path) with
    | some root =>
      set (Tree.mk (some root))
      return true
    | none => return false
  | none => return false

/-- The entry of a node when it is new: empty, under its directory, a file with size zero. -/
def newEntry (node : Node) : Entry :=
  let node := { node with parentPath := Path.normalize node.parentPath }
  if node.isDir then .dir node .nil else .file { node with size := some 0 } ""

/-- A directory with one entry more, unless the name is taken. -/
def adding (node : Node) : Entry → Option Entry
  | .dir parent below =>
    if (below.find? node.name).isSome then none else some (.dir parent (below.put node.name (newEntry node)))
  | .file .. => none

/-- A directory without one of its entries, unless that is missing or holds entries itself. -/
def removing (name : String) : Entry → Option Entry
  | .dir parent below =>
    match below.find? name with
    | some (.file ..) => some (.dir parent (below.erase name))
    | some (.dir _ .nil) => some (.dir parent (below.erase name))
    | _ => none
  | .file .. => none

def rewriting (now : Timestamp) (content : String) : Entry → Option Entry
  | .file node _ =>
    some (.file { node with size := some content.utf8ByteSize.toUInt64, modifiedAt := now } content)
  | .dir .. => none

def touching (now : Timestamp) (entry : Entry) : Option Entry :=
  some (entry.withNode { entry.node with modifiedAt := now })

def emptying : Entry → Option Entry
  | .dir node _ => some (.dir node .nil)
  | .file .. => none

/-- What a directory holds; nothing for a file. -/
def contents : Option Entry → Forest
  | some (.dir _ below) => below
  | _ => .nil

instance : Storage Tree where
  name _ := "memory"
  capacity tree := (contents tree.root).count + 1
  setUp now := do
    if (← get).root.isNone then set (Tree.mk (some (.dir (Node.root now) .nil)))
    return true
  info path := return ((← get).find? path).map Entry.node
  create node := do
    if !Path.isName node.name then return false
    alter (adding node) node.parentPath
  list path := return (contents ((← get).find? path)).names
  write now path content := alter (rewriting now content) path
  read path := do
    match (← get).find? path with
    | some (.file _ content) => return some content
    | _ => return none
  delete path := do
    let (parent, name) := Path.split path
    if name.isEmpty then return false
    alter (removing name) parent
  touch now path := alter (touching now) path
  stats := do
    let tree ← get
    let below := contents tree.root
    let (files, bytes) := below.files
    let directories := (if tree.root.isSome then 1 else 0) + (below.count - files)
    return ⟨"memory", files, directories, bytes, none, none⟩
  cleanup := do
    let (files, bytes) := (contents ((← get).find? tempDir)).files
    let _ ← alter emptying tempDir
    return ⟨files, bytes⟩

end Tree
end VirtualShell
