import VirtualShell.Storage.Basic

/-! A store whose calls may be told to fail. A call that fails leaves the store beneath as it was. -/
namespace VirtualShell

/-- The calls that a store answers, with the path that each is given. -/
inductive Call where
  | setUp
  | info (path : String)
  | create (path : String)
  | list (path : String)
  | write (path : String)
  | read (path : String)
  | delete (path : String)
  | touch (path : String)
  | stats
  | cleanup
  deriving DecidableEq, Repr

namespace Call

def name : Call → String
  | .setUp => "initialize"
  | .info _ => "get_node_info"
  | .create _ => "create_node"
  | .list _ => "list_directory"
  | .write _ => "write_file"
  | .read _ => "read_file"
  | .delete _ => "delete_node"
  | .touch _ => "touch"
  | .stats => "get_storage_stats"
  | .cleanup => "cleanup"

def path? : Call → Option String
  | .setUp => none
  | .info path => some path
  | .create path => some path
  | .list path => some path
  | .write path => some path
  | .read path => some path
  | .delete path => some path
  | .touch path => some path
  | .stats => none
  | .cleanup => none

end Call

structure Faulty (σ : Type) where
  store : σ
  name : String
  /-- How many calls were made so far. -/
  calls : Nat
  /-- Whether the call of a given number fails. -/
  fails : Nat → Call → Bool

namespace Faulty
variable {σ : Type}

/-- Makes a call on the store beneath, unless it is to fail. -/
def attempt {α : Type} (call : Call) (act : Storing σ α) : Storing (Faulty σ) α := do
  let faulty ← get
  set { faulty with calls := faulty.calls + 1 }
  if faulty.fails faulty.calls call then throw (.backend (call.name ++ " failed"))
  act.within Faulty.store fun store faulty => { faulty with store }

instance [Storage σ] : Storage (Faulty σ) where
  name faulty := faulty.name
  capacity faulty := Storage.capacity faulty.store
  setUp now := attempt .setUp (Storage.setUp now)
  info path := attempt (.info path) (Storage.info path)
  create node := attempt (.create node.path) (Storage.create node)
  list path := attempt (.list path) (Storage.list path)
  write now path content := attempt (.write path) (Storage.write now path content)
  read path := attempt (.read path) (Storage.read path)
  delete path := attempt (.delete path) (Storage.delete path)
  touch now path := attempt (.touch path) (Storage.touch now path)
  stats := attempt .stats Storage.stats
  cleanup := attempt .cleanup Storage.cleanup

end Faulty
end VirtualShell
