import VirtualShell.Path

/-! Metadata of files and directories. -/
namespace VirtualShell

/-- Milliseconds since the epoch, as a clock shows them. -/
abbrev Timestamp := UInt64

/--
Metadata of one entry. The root alone has an empty name and an empty parent; every other node names
the directory that holds it.
-/
structure Node where
  name : String
  isDir : Bool
  parentPath : String
  createdAt : Timestamp
  modifiedAt : Timestamp
  /-- Length of the content in bytes, for files. -/
  size : Option UInt64
  deriving DecidableEq, Repr, Inhabited

namespace Node

/-- A node stamped with the time of its creation. -/
def new (now : Timestamp) (name : String) (isDir : Bool) (parentPath : String) : Node :=
  ⟨name, isDir, parentPath, now, now, if isDir then none else some 0⟩

def directory (now : Timestamp) (name parentPath : String) : Node := new now name true parentPath

def file (now : Timestamp) (name parentPath : String) : Node := new now name false parentPath

def root (now : Timestamp) : Node := new now "" true ""

/-- The node at a path; at the root it is a directory whatever was asked for. -/
def forPath (now : Timestamp) (path : String) (isDir : Bool) : Node :=
  let (parent, name) := Path.split path
  if name.isEmpty then root now else new now name isDir parent

def isRoot (node : Node) : Bool := node.name.isEmpty && node.parentPath.isEmpty

/-- The path of a node: its name joined to its parent as written. -/
def path (node : Node) : String :=
  if node.name.isEmpty then "/" else Path.join node.parentPath node.name

end Node
end VirtualShell
