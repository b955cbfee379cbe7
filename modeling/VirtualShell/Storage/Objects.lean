import VirtualShell.Node.Json
import VirtualShell.Storage.Client
import VirtualShell.Text.Utf8

/-!
The store over an object service. A node is a sidecar under `nodes` with its metadata as JSON and, for
a file, a body under `content`. Writing and creating put the body before the sidecar, and deleting
removes it before the sidecar.
-/
namespace VirtualShell

structure Objects where
  client : Client
  bucket : String
  /-- What every key starts with; no slash at either end. -/
  keyPrefix : String

namespace Objects

/-- A store in a bucket; slashes around the start of its keys are dropped. -/
def new (client : Client) (bucket keyPrefix : String) : Objects :=
  ⟨client, bucket, .ofList (Path.trimSlashes (keyPrefix.toList.dropWhile (· == '/')))⟩

/-- The key of a path in one of the two parts of the bucket. -/
def key (objects : Objects) (kind path : String) : String :=
  if objects.keyPrefix.isEmpty then kind ++ path else objects.keyPrefix ++ "/" ++ kind ++ path

def nodeKey (objects : Objects) (path : String) : String := objects.key "nodes" path

def contentKey (objects : Objects) (path : String) : String := objects.key "content" path

/-- What the keys of everything below a directory start with. -/
def childrenKey (objects : Objects) (dir : String) : String :=
  objects.nodeKey (if dir == "/" then "/" else dir ++ "/")

def request {α : Type} (act : Storing Client α) : Storing Objects α :=
  act.within Objects.client fun client objects => { objects with client }

/-- The metadata in a sidecar. -/
def decode (body : ByteArray) : Storing Objects Node :=
  match Node.ofJson (Text.decodeLossy body) with
  | .ok node => return node
  | .error e => throw (.serialization e.message)

/-- The metadata of a path in normal form. -/
def load (path : String) : Storing Objects (Option Node) := do
  let objects ← get
  match ← request (Client.fetch objects.bucket (objects.nodeKey path)) with
  | some body => return some (← decode body)
  | none => return none

def putNode (path : String) (node : Node) : Storing Objects Unit := do
  let objects ← get
  request (Client.put objects.bucket (objects.nodeKey path) node.toJson.toUTF8)

def putContent (path content : String) : Storing Objects Unit := do
  let objects ← get
  request (Client.put objects.bucket (objects.contentKey path) content.toUTF8)

/-- The single name that a key adds to the start of its directory's keys, if it adds just one. -/
def childName? (start key : String) : Option String :=
  let rest := key.toList.drop start.toList.length
  if start.toList.isPrefixOf key.toList && !rest.isEmpty && !rest.contains '/' then some (.ofList rest)
  else none

/-- The names in a directory. -/
def children (dir : String) : Storing Objects (List String) := do
  let objects ← get
  let start := objects.childrenKey dir
  return (← request (Client.list objects.bucket start)).filterMap (childName? start)

/-- Adds one node to the numbers of a store. -/
def tally (stats : StorageStats) (node : Node) : StorageStats :=
  if node.isDir then { stats with directories := stats.directories + 1 }
  else { stats with files := stats.files + 1, bytes := addBytes stats.bytes (node.size.getD 0).toNat }

/-- The numbers over the sidecars of the given keys. -/
def survey (bucket : String) : List String → StorageStats → Storing Objects StorageStats
  | [], stats => return stats
  | key :: rest, stats => do
    match ← request (Client.fetch bucket key) with
    | some body => survey bucket rest (tally stats (← decode body))
    | none => survey bucket rest stats

def deletePath (path : String) : Storing Objects Bool := do
  let path := Path.normalize path
  if path == "/" then return false
  match ← load path with
  | none => return false
  | some node =>
    let objects ← get
    if node.isDir then
      if !(← children path).isEmpty then return false
    else request (Client.delete objects.bucket (objects.contentKey path))
    request (Client.delete objects.bucket (objects.nodeKey path))
    return true

def listPath (path : String) : Storing Objects (List String) := do
  let path := Path.normalize path
  match ← load path with
  | some node => if node.isDir then children path else return []
  | none => return []

/-- Whether the preconditions of creating a node hold. -/
def canCreate (node : Node) : Storing Objects Bool := do
  if !Path.isName node.name then return false
  if (← load (Path.normalize node.path)).isSome then return false
  match ← load (Path.normalize node.parentPath) with
  | some parent => return parent.isDir
  | none => return false

def createNode (node : Node) : Storing Objects Bool := do
  if !(← canCreate node) then return false
  let node := { node with parentPath := Path.normalize node.parentPath }
  if node.isDir then
    putNode node.path node
  else
    putContent node.path ""
    putNode node.path { node with size := some 0 }
  return true

def writePath (now : Timestamp) (path content : String) : Storing Objects Bool := do
  let path := Path.normalize path
  match ← load path with
  | none => return false
  | some node =>
    if node.isDir then return false
    putContent path content
    putNode path { node with size := some content.utf8ByteSize.toUInt64, modifiedAt := now }
    return true

def readPath (path : String) : Storing Objects (Option String) := do
  let path := Path.normalize path
  match ← load path with
  | none => return none
  | some node =>
    if node.isDir then return none
    let objects ← get
    let body ← request (Client.fetch objects.bucket (objects.contentKey path))
    return some (Text.decodeLossy (body.getD .empty))

def touchPath (now : Timestamp) (path : String) : Storing Objects Bool := do
  let path := Path.normalize path
  match ← load path with
  | none => return false
  | some node =>
    putNode path { node with modifiedAt := now }
    return true

def setUp (now : Timestamp) : Storing Objects Bool := do
  request (Client.ensureBucket (← get).bucket)
  if (← load "/").isNone then putNode "/" (Node.root now)
  return true

def statsOf : Storing Objects StorageStats := do
  let objects ← get
  let keys ← request (Client.list objects.bucket (objects.nodeKey ""))
  survey objects.bucket keys
    ⟨"s3", 0, 0, 0, some (.bucket objects.bucket objects.keyPrefix), none⟩

/-- Everything but cleaning up, which is made from the other calls. -/
local instance basic : Storage Objects where
  name _ := "s3"
  capacity objects := ((Keyed.find? objects.bucket objects.client.buckets).getD []).length
  setUp := setUp
  info path := load (Path.normalize path)
  create := createNode
  list := listPath
  write := writePath
  read := readPath
  delete := deletePath
  touch := touchPath
  stats := statsOf
  cleanup := return ⟨0, 0⟩

instance : Storage Objects := { basic with cleanup := Storage.cleanupByDelete }

end Objects
end VirtualShell
