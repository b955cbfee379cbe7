import VirtualShell.Node.Basic

/-!
What every store of nodes can do. A call that fails for a structural reason, such as a missing parent
or a full directory, answers `false` or nothing; errors are left to the store itself.
-/
namespace VirtualShell

inductive StorageError where
  /-- A fault of the service or device behind a store. -/
  | backend (reason : String)
  | database (reason : String)
  | serialization (reason : String)
  | unknownProvider (name : String)
  | invalidArgument (reason : String)
  | invalidPattern (reason : String)
  /-- A session that was left in the middle of a change can no longer be used. -/
  | lockPoisoned
  deriving DecidableEq, Repr

def StorageError.message : StorageError → String
  | .backend reason => "storage backend error: " ++ reason
  | .database reason => "sqlite error: " ++ reason
  | .serialization reason => "serialization error: " ++ reason
  | .unknownProvider name => "unknown storage provider: " ++ name
  | .invalidArgument reason => "invalid provider argument: " ++ reason
  | .invalidPattern reason => "invalid pattern: " ++ reason
  | .lockPoisoned => "storage lock poisoned"

/-- Where a store keeps its data, as far as it tells. -/
inductive Location where
  | database (path : String)
  | bucket (name keyPrefix : String)
  deriving DecidableEq, Repr

/-- The limits that a guard reports beside the numbers of its store. -/
structure Limits where
  maxFileSize : UInt64
  maxTotalSize : UInt64
  readOnly : Bool
  allowedPaths : List String
  violations : Nat
  deriving DecidableEq, Repr

structure StorageStats where
  provider : String
  files : Nat
  /-- The root counts. -/
  directories : Nat
  bytes : Nat
  location : Option Location
  limits : Option Limits
  deriving DecidableEq, Repr

structure CleanupStats where
  filesRemoved : Nat
  bytesFreed : Nat
  deriving DecidableEq, Repr, Inhabited

/-- The sum of two numbers of bytes; these are kept in 64 bits. -/
def addBytes (m n : Nat) : Nat := (m + n) % UInt64.size

/-- An action on a store; also one that fails may have changed it. -/
abbrev Storing (σ : Type) : Type → Type := ExceptT StorageError (StateM σ)

/-- An action on a part of a store. -/
def Storing.within {σ τ α : Type} (get : τ → σ) (set : σ → τ → τ) (act : Storing σ α) : Storing τ α :=
  ExceptT.mk fun whole =>
    let (result, part) := act (get whole)
    (result, set part whole)

/-- A store of nodes. Paths may be given in any form; a store works on their normal form. -/
class Storage (σ : Type) where
  name : σ → String
  /-- A bound on the depth of the tree that is held. -/
  capacity : σ → Nat
  /-- Makes the store ready and creates the root; a store that is ready stays as it is. -/
  setUp : Timestamp → Storing σ Bool
  info : String → Storing σ (Option Node)
  /-- Adds an empty file or directory under an existing directory, unless the name is taken. -/
  create : Node → Storing σ Bool
  /-- The names in a directory, sorted; nothing for what is no directory. -/
  list : String → Storing σ (List String)
  /-- Replaces the content of an existing file. -/
  write : Timestamp → String → String → Storing σ Bool
  read : String → Storing σ (Option String)
  /-- Removes a file or an empty directory, never the root. -/
  delete : String → Storing σ Bool
  touch : Timestamp → String → Storing σ Bool
  stats : Storing σ StorageStats
  /-- Removes everything below the directory for temporary data. -/
  cleanup : Storing σ CleanupStats

/-- The directory for temporary data. -/
def tempDir : String := "/tmp"

namespace Storage
variable {σ : Type} [Storage σ]

/-- Creates the missing directories of a chain of names below a directory. -/
def createDirs (now : Timestamp) (current : String) : List String → Storing σ Bool
  | [] => return true
  | part :: rest => do
    let next := Path.join current part
    match ← info next with
    | some node => if node.isDir then createDirs now next rest else return false
    | none =>
      if ← create (Node.directory now part current) then createDirs now next rest else return false

/-- Creates a directory with all its ancestors, unless one of them is a file. -/
def createDirAll (now : Timestamp) (dir : String) : Storing σ Bool :=
  createDirs now "/" (Path.segments dir)

/-- The nodes of the given names in a directory; a name without a node is passed over. -/
def lookUp (dir : String) : List String → Storing σ (List (String × Node))
  | [] => return []
  | name :: rest => do
    let child := Path.join dir name
    match ← info child with
    | some node => return (child, node) :: (← lookUp dir rest)
    | none => lookUp dir rest

/-- The nodes below the directories of a stack, each directory visited after it is found. -/
def descend : Nat → List String → List Node → Storing σ (List Node)
  | 0, _, found => return found
  | _ + 1, [], found => return found
  | fuel + 1, dir :: stack, found => do
    let children ← lookUp dir (← list dir)
    let dirs := (children.filter fun c => c.2.isDir).map Prod.fst
    descend fuel (dirs.reverse ++ stack) (found ++ children.map Prod.snd)

/-- Every node below the directory for temporary data, deepest first. -/
def tempDescendants : Storing σ (List Node) := do
  let found ← descend (capacity (← get) + 1) [tempDir] []
  return found.mergeSort fun a b => Path.depth b.path ≤ Path.depth a.path

/-- Deletes nodes one after the other and counts the files among those that went. -/
def deleteAll : List Node → CleanupStats → Storing σ CleanupStats
  | [], done => return done
  | node :: rest, done => do
    if (← delete node.path) && !node.isDir then
      deleteAll rest ⟨done.filesRemoved + 1, addBytes done.bytesFreed (node.size.getD 0).toNat⟩
    else deleteAll rest done

/-- Cleaning up by single deletions. -/
def cleanupByDelete : Storing σ CleanupStats := do
  deleteAll (← tempDescendants) ⟨0, 0⟩

end Storage
end VirtualShell
