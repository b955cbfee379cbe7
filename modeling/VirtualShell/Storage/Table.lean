import VirtualShell.Storage.DatabaseName

/-!
The store that keeps one row per node in a table keyed by path. Times of `2 ^ 63` and later do not fit
its signed columns and come back as zero.
-/
namespace VirtualShell

structure Row where
  path : String
  name : String
  parentPath : String
  isDir : Bool
  size : Option UInt64
  createdAt : Timestamp
  modifiedAt : Timestamp
  content : String
  deriving DecidableEq, Repr

structure Table where
  name : DatabaseName
  /-- Whether nothing can be written. -/
  frozen : Bool
  /-- The rows, once the table has been created. -/
  rows : Option (List Row)
  deriving DecidableEq, Repr

namespace Table

/-- What a signed column gives back for an unsigned time. -/
def stored (time : Timestamp) : Timestamp := if time.toNat < 1 <<< 63 then time else 0

def Row.node (row : Row) : Node :=
  ⟨row.name, row.isDir, row.parentPath, stored row.createdAt, stored row.modifiedAt, row.size⟩

/-- The rows, or the error of a database without the table. -/
def rowsOf : Storing Table (List Row) := do
  match (← get).rows with
  | some rows => return rows
  | none => throw (.database "no such table: nodes")

def setRows (rows : List Row) : Storing Table Unit :=
  modify fun table => { table with rows := some rows }

/-- The row of a path in normal form. -/
def at? (path : String) (rows : List Row) : Option Row := rows.find? fun row => row.path == path

/-- The names of the rows of a directory, sorted. -/
def childNames (dir : String) (rows : List Row) : List String :=
  ((rows.filter fun row => row.parentPath == dir && row.path != "/").map Row.name).mergeSort
    fun a b => a ≤ b

/-- Changes the rows that are picked, and tells whether there was one. -/
def update (picked : Row → Bool) (change : Row → Row) : Storing Table Bool := do
  let rows ← rowsOf
  setRows (rows.map fun row => if picked row then change row else row)
  return rows.any picked

def rootRow (now : Timestamp) : Row := ⟨"/", "", "", true, none, now, now, ""⟩

def newRow (node : Node) (parent path : String) : Row :=
  ⟨path, node.name, parent, node.isDir, if node.isDir then none else some 0, node.createdAt,
    node.modifiedAt, ""⟩

/-- Whether a path lies below the directory for temporary data. -/
def isTemporary (row : Row) : Bool := (tempDir ++ "/").toList.isPrefixOf row.path.toList

def bytesOf (rows : List Row) : Nat :=
  rows.foldr (fun row bytes => (row.size.getD 0).toNat + bytes) 0

instance : Storage Table where
  name _ := "sqlite"
  capacity table := (table.rows.getD []).length
  setUp now := do
    if (← get).frozen then throw (.database "attempt to write a readonly database")
    let rows := (← get).rows.getD []
    setRows (if (at? "/" rows).isSome then rows else rows ++ [rootRow now])
    return true
  info path := return (at? (Path.normalize path) (← rowsOf)).map Row.node
  create node := do
    if !Path.isName node.name then return false
    let parent := Path.normalize node.parentPath
    let path := Path.join parent node.name
    let rows ← rowsOf
    if !((at? parent rows).any Row.isDir) then return false
    if (at? path rows).isSome then return false
    setRows (rows ++ [newRow node parent path])
    return true
  list path := do
    let path := Path.normalize path
    let rows ← rowsOf
    return if (at? path rows).any Row.isDir then childNames path rows else []
  write now path content := do
    let path := Path.normalize path
    update (fun row => row.path == path && !row.isDir) fun row =>
      { row with content, size := some content.utf8ByteSize.toUInt64, modifiedAt := now }
  read path := do
    let path := Path.normalize path
    let row := (← rowsOf).find? fun row => row.path == path && !row.isDir
    return row.map Row.content
  delete path := do
    let path := Path.normalize path
    if path == "/" then return false
    let rows ← rowsOf
    match at? path rows with
    | none => return false
    | some row =>
      if row.isDir && rows.any (fun row => row.parentPath == path) then return false
      setRows (rows.filter fun row => row.path != path)
      return true
  touch now path := do
    let path := Path.normalize path
    update (fun row => row.path == path) fun row => { row with modifiedAt := now }
  stats := do
    let rows ← rowsOf
    let (dirs, files) := rows.partition Row.isDir
    return ⟨"sqlite", files.length, dirs.length, bytesOf files, some (.database (← get).name.text), none⟩
  cleanup := do
    let rows ← rowsOf
    let gone := rows.filter fun row => isTemporary row && !row.isDir
    setRows (rows.filter fun row => !isTemporary row)
    return ⟨gone.length, bytesOf gone⟩

end Table
end VirtualShell
