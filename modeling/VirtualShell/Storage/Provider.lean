import VirtualShell.Json.Printer
import VirtualShell.Storage.Faulty
import VirtualShell.Storage.Objects
import VirtualShell.Storage.Table
import VirtualShell.Storage.Tree
import VirtualShell.Text.Printable

/-! The stores that can be asked for by name, and the register of the names. -/
namespace VirtualShell

inductive Provider where
  | tree (store : Tree)
  | table (store : Table)
  | objects (store : Objects)
  /-- A tree with failures put in. -/
  | faulty (store : Faulty Tree)

namespace Provider

/-- Runs whatever action fits the store that is there. -/
def dispatch {α : Type} (onTree : Storing Tree α) (onTable : Storing Table α)
    (onObjects : Storing Objects α) (onFaulty : Storing (Faulty Tree) α) : Storing Provider α :=
  ExceptT.mk fun
    | .tree store => let (result, store) := onTree store; (result, .tree store)
    | .table store => let (result, store) := onTable store; (result, .table store)
    | .objects store => let (result, store) := onObjects store; (result, .objects store)
    | .faulty store => let (result, store) := onFaulty store; (result, .faulty store)

instance : Storage Provider where
  name
    | .tree store => Storage.name store
    | .table store => Storage.name store
    | .objects store => Storage.name store
    | .faulty store => Storage.name store
  capacity
    | .tree store => Storage.capacity store
    | .table store => Storage.capacity store
    | .objects store => Storage.capacity store
    | .faulty store => Storage.capacity store
  setUp now := dispatch (Storage.setUp now) (Storage.setUp now) (Storage.setUp now) (Storage.setUp now)
  info path := dispatch (Storage.info path) (Storage.info path) (Storage.info path) (Storage.info path)
  create node :=
    dispatch (Storage.create node) (Storage.create node) (Storage.create node) (Storage.create node)
  list path := dispatch (Storage.list path) (Storage.list path) (Storage.list path) (Storage.list path)
  write now path content :=
    dispatch (Storage.write now path content) (Storage.write now path content)
      (Storage.write now path content) (Storage.write now path content)
  read path := dispatch (Storage.read path) (Storage.read path) (Storage.read path) (Storage.read path)
  delete path :=
    dispatch (Storage.delete path) (Storage.delete path) (Storage.delete path) (Storage.delete path)
  touch now path :=
    dispatch (Storage.touch now path) (Storage.touch now path) (Storage.touch now path)
      (Storage.touch now path)
  stats := dispatch Storage.stats Storage.stats Storage.stats Storage.stats
  cleanup := dispatch Storage.cleanup Storage.cleanup Storage.cleanup Storage.cleanup

end Provider

/-- What a store is made from: named values. -/
abbrev ProviderArgs := Keyed Json

/-- Makes a store that is not yet set up. -/
abbrev Constructor := ProviderArgs → Except StorageError Provider

/-- The databases on the machine, each opened by its name. -/
abbrev Databases := DatabaseName → Except StorageError Table

namespace Constructor

/-- A text argument, or its default when it is missing or null. -/
def text (key absent : String) (args : ProviderArgs) : Except StorageError String :=
  match Keyed.find? key args with
  | none => .ok absent
  | some .null => .ok absent
  | some (.string s) => .ok s
  | some other => .error (.invalidArgument s!"{key} must be a string, got {other.compact}")

def tree : Constructor := fun _ => .ok (.tree Tree.empty)

/-- The name of the database that is wanted. -/
def databaseName (args : ProviderArgs) : Except StorageError DatabaseName := do
  DatabaseName.ofText (← text "db_path" DatabaseName.inMemory args)

def table (databases : Databases) : Constructor := fun args => do
  return .table (← databases (← databaseName args))

def objects : Constructor := fun args => do
  let bucket ← text "bucket_name" "vshell" args
  let keyPrefix ← text "prefix" "" args
  return .objects (Objects.new Client.new bucket keyPrefix)

end Constructor

/-- The names under which stores can be made. -/
structure Registry where
  constructors : Keyed Constructor

namespace Registry

def empty : Registry := ⟨[]⟩

/-- Puts a constructor under a name, in place of the one there. -/
def register (name : String) (constructor : Constructor) (registry : Registry) : Registry :=
  ⟨Keyed.insert name constructor registry.constructors⟩

def builtin (databases : Databases) : Registry :=
  empty |>.register "memory" Constructor.tree
    |>.register "sqlite" (Constructor.table databases)
    |>.register "s3" Constructor.objects

def names (registry : Registry) : List String := registry.constructors.keys

/-- A store made by name and set up. -/
def create (registry : Registry) (now : Timestamp) (name : String) (args : ProviderArgs) :
    Except StorageError Provider := do
  match Keyed.find? name registry.constructors with
  | none => throw (.unknownProvider name)
  | some constructor =>
    let (result, provider) := (Storage.setUp now).run.run (← constructor args)
    let _ ← result
    return provider

/-- A name between quotes, with what does not stand alone in print written as a number. -/
def quoted (name : String) : String :=
  let escape (c : Char) : List Char :=
    if c = '\"' then ['\\', '\"']
    else if c = '\\' then ['\\', '\\']
    else if c = '\n' then ['\\', 'n']
    else if c = '\r' then ['\\', 'r']
    else if c = '\t' then ['\\', 't']
    else if c.toNat = 0 then ['\\', '0']
    else if Text.standsAlone c then [c]
    else ['\\', 'u', '\x7b'] ++ Nat.toDigits 16 c.toNat ++ ['\x7d']
  .ofList ('\"' :: name.toList.flatMap escape ++ ['\"'])

/-- The registry as it is shown to a developer. -/
def describe (registry : Registry) : String :=
  "ProviderRegistry \x7b providers: [" ++ ", ".intercalate (registry.names.map quoted) ++ "] \x7d"

end Registry
end VirtualShell
