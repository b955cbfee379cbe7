import VirtualShell.Storage.Provider
import VirtualShell.Json.Reader

/-!
The machine that the shell is started on: its directories and files, some of which are databases. A path
leads through directories only, but the name of a database is worked out as text first.
-/
namespace VirtualShell

inductive HostFile where
  | text (content : String)
  | database (rows : List Row)
  /-- A file that is neither. -/
  | binary
  deriving DecidableEq, Repr

structure Host where
  /-- The directory that names of files start from. -/
  workDir : String
  /-- The files by path in normal form. -/
  files : Keyed HostFile
  /-- Directories that are known to exist, besides those that hold files. -/
  dirs : List String

namespace Host

def resolve (host : Host) (path : String) : String := Path.resolve host.workDir path

def insert (path : String) (file : HostFile) (host : Host) : Host :=
  { host with files := Keyed.insert (host.resolve path) file host.files }

/-- Whether a path in normal form is known to be that of a directory. -/
def hasDir (host : Host) (dir : String) : Bool :=
  dir == "/tmp" || Path.isWithin host.workDir dir || host.dirs.contains dir
    || host.files.keys.any fun file => file != dir && Path.isWithin file dir

/-- The components of the place where a path starts, the innermost first. -/
def origin (host : Host) (path : List Char) : List Path.Component :=
  if path.head? = some '/' then [] else (Path.components host.workDir.toList).reverse

/-- The path of components in normal form. -/
def pathOf (stack : List Path.Component) : String := .ofList (Path.render stack.reverse)

/-- Goes through the parts of a path; all but the last lead into directories. -/
def walk (host : Host) (stack : List Path.Component) : List Path.Component → Option String
  | [] => some (pathOf stack)
  | part :: rest =>
    let next := Path.push stack part
    if rest.isEmpty || host.hasDir (pathOf next) then walk host next rest else none

/-- The longest path that is followed, in bytes. -/
def pathLimit : Nat := 4095

/-- The path in normal form that a path leads to. -/
def locate? (host : Host) (path : String) : Option String :=
  if path.utf8ByteSize > pathLimit then none
  else host.walk (host.origin path.toList) (path.toList.splitOn '/')

/-- The content of a text file. -/
def readText? (host : Host) (path : String) : Option String :=
  match (host.locate? path).bind fun path => Keyed.find? path host.files with
  | some (.text content) => some content
  | _ => none

/-- Whether a path leads to a file or a directory; the empty path leads nowhere. -/
def exists_ (host : Host) (path : String) : Bool :=
  !path.isEmpty && (host.locate? path).any fun path => host.hasDir path || (Keyed.find? path host.files).isSome

/-- The directories on the way of a path. -/
def passed (stack : List Path.Component) : List Path.Component → List String
  | [] => []
  | [_] => []
  | part :: rest => pathOf (Path.push stack part) :: passed (Path.push stack part) rest

/-- Adds a file that a path was found to lead to. -/
def reach (path : String) (file : HostFile) (host : Host) : Host :=
  { host.insert path file with
    dirs := passed (host.origin path.toList) (path.toList.splitOn '/') ++ host.dirs }

/-! ### Databases -/

/-- How many bytes the name of a file may have. -/
def nameLimit : Nat := 255

/-- How many bytes the path of a database may have, with the ending that its journal has. -/
def databasePathLimit : Nat := 512

/-- What the name of the journal of a database has behind that of the database. -/
def journalEnding : String := "-journal"

def cannotOpen {α : Type} : Except StorageError α := .error (.database "unable to open database file")

def keyOf (stack : List Path.Component) : String := DatabaseName.textOf (Path.render stack.reverse)

/--
The components of the file of a database, the innermost first. They are worked out without a look at the
directories on the way, but a name cannot be looked up below a file.
-/
def databaseStack (host : Host) (file : List Char) : Except StorageError (List Path.Component) := do
  let start := if file.head? = some '/' then []
    else (Path.components (DatabaseName.bytesOf host.workDir)).reverse
  let stack ← (file.splitOn '/').foldlM
    (fun stack part =>
      let next := Path.push stack part
      if stack.length < next.length && (part.length > nameLimit
          || (Path.render next.reverse).length + 1 > databasePathLimit
          || (Keyed.find? (keyOf stack) host.files).isSome) then cannotOpen
      else pure next)
    start
  if stack.isEmpty || (Path.render stack.reverse).length + journalEnding.length > databasePathLimit then
    cannotOpen
  else return stack

/-- Opens a database; one can be made wherever a file can, and out of a file without content. -/
def databases (host : Host) : Databases := fun name => do
  match name.file with
  | none => return ⟨name, name.frozen, none⟩
  | some file =>
    let stack ← host.databaseStack file
    let isPlace := !host.hasDir (keyOf stack) && host.hasDir (keyOf stack.tail)
    if !isPlace || name.likeFile.any fun like_ => !host.exists_ (DatabaseName.textOf like_) then cannotOpen
    let hasJournal := (stack.head?.getD []).length + journalEnding.length ≤ nameLimit
    let opened (rows : Option (List Row)) : Table := ⟨name, name.frozen || !hasJournal, rows⟩
    match Keyed.find? (keyOf stack) host.files with
    | none => if name.access == .making then return opened none else cannotOpen
    | some (.database rows) => return opened (some rows)
    | some (.text content) =>
      if content.utf8ByteSize ≤ 1 then return opened none
      else throw (.database "file is not a database")
    | some .binary => throw (.database "file is not a database")

/-- The path of the file of a database. -/
def databasePath? (host : Host) (name : DatabaseName) : Option String := do
  return keyOf (← (host.databaseStack (← name.file)).toOption)

/-- Makes the file of a database, if it is not there and opening the database makes it. -/
def makeDatabase (name : DatabaseName) (host : Host) : Host :=
  match host.databases name, host.databasePath? name with
  | .ok _, some path =>
    if (Keyed.find? path host.files).isSome then host
    else { host with files := Keyed.insert path (.text "") host.files }
  | _, _ => host

/-- Keeps a store that has its place in a file. -/
def keep (store : Provider) (host : Host) : Host :=
  match store with
  | .table ⟨name, _, some rows⟩ =>
    match host.databasePath? name with
    | some path => { host with files := Keyed.insert path (.database rows) host.files }
    | none => host
  | _ => host

/-! ### Database files -/

/-- The first line of a database file. -/
def databaseMark : String := "vshell table 1\n"

def rowJson (row : Row) : Json :=
  .array [.string row.path, .string row.name, .string row.parentPath, .bool row.isDir,
    match row.size with
      | some n => .number (.natural n)
      | none => .null,
    .number (.natural row.createdAt), .number (.natural row.modifiedAt), .string row.content]

def rowOfJson? : Json → Option Row
  | .array [.string path, .string name, .string parentPath, .bool isDir, size,
      .number (.natural createdAt), .number (.natural modifiedAt), .string content] =>
    some ⟨path, name, parentPath, isDir, size.natural?, createdAt, modifiedAt, content⟩
  | _ => none

/-- The content of the file that a database is kept in. -/
def databaseText (rows : List Row) : String := databaseMark ++ (Json.array (rows.map rowJson)).compact

/-- The rows of the database that a text is the content of. -/
def databaseOfText? (text : String) : Option (List Row) :=
  let cs := text.toList
  if databaseMark.toList.isPrefixOf cs then
    match Json.read (.ofList (cs.drop databaseMark.length)) with
    | .ok (.array items) => items.mapM rowOfJson?
    | _ => none
  else none

/-- The file that holds some bytes. -/
def fileOfBytes (bytes : ByteArray) : HostFile :=
  match String.fromUTF8? bytes with
  | none => .binary
  | some text => (databaseOfText? text).elim (.text text) .database

end Host
end VirtualShell
