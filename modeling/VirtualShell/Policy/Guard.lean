import VirtualShell.Policy.Basic

/-!
A store under a policy. A change that the policy denies is answered like any other that cannot be made,
and noted in a log; reading is never restricted.
-/
namespace VirtualShell

/-- The changes that a policy is asked about. -/
inductive Operation where
  | create
  | write
  | delete
  | touch
  | cleanup
  deriving DecidableEq, Repr

def Operation.name : Operation → String
  | .create => "create_node"
  | .write => "write_file"
  | .delete => "delete_node"
  | .touch => "touch"
  | .cleanup => "cleanup"

/-- One change that was denied; the moment of it is left out, as nothing reads it. -/
structure Violation where
  operation : Operation
  path : String
  denial : Denial
  deriving DecidableEq, Repr

structure Guard (σ : Type) where
  store : σ
  checker : Checker
  /-- The denied changes, the oldest first. -/
  violations : List Violation

namespace Guard
variable {σ : Type}

def policy (guard : Guard σ) : Policy := guard.checker.policy

/-- An action on the store beneath the policy. -/
def beneath {α : Type} (act : Storing σ α) : Storing (Guard σ) α :=
  act.within Guard.store fun store guard => { guard with store }

/-- Notes a denial, and tells whether the change may go on. -/
def settle (operation : Operation) (path : String) : Option Denial → Storing (Guard σ) Bool
  | none => return true
  | some denial => do
    modify fun guard => { guard with violations := guard.violations ++ [⟨operation, path, denial⟩] }
    return false

/-- Asks the path rules about a change. -/
def allows (operation : Operation) (path : String) : Storing (Guard σ) Bool := do
  settle operation path ((← get).checker.checkPath path)

variable [Storage σ]

/-- Writes as far as the path and size rules allow; the bytes in store are counted only when they matter. -/
def write (now : Timestamp) (path content : String) : Storing (Guard σ) Bool := do
  let target := Path.normalize path
  if !(← allows .write target) then return false
  let node ← beneath (Storage.info target)
  let existing := ((node.bind Node.size).getD 0).toNat
  let new := content.utf8ByteSize
  let checker := (← get).checker
  let total ← if new ≤ checker.policy.maxFileSize.toNat && checker.limitsTotal then
      pure (← beneath Storage.stats).bytes
    else pure 0
  if !(← settle .write target (checker.checkSize new existing total)) then return false
  beneath (Storage.write now target content)

/-- The numbers of the store, under the guard's name and with its limits. -/
def stats : Storing (Guard σ) StorageStats := do
  let stats ← beneath Storage.stats
  let guard ← get
  let policy := guard.policy
  return { stats with
    provider := "security(" ++ Storage.name guard.store ++ ")"
    limits := some ⟨policy.maxFileSize, policy.maxTotalSize, policy.readOnly, policy.allowedPaths,
      guard.violations.length⟩ }

instance : Storage (Guard σ) where
  name guard := "security(" ++ Storage.name guard.store ++ ")"
  capacity guard := Storage.capacity guard.store
  setUp now := beneath (Storage.setUp now)
  info path := beneath (Storage.info path)
  create node := do
    if !(← allows .create node.path) then return false
    beneath (Storage.create node)
  list path := beneath (Storage.list path)
  write := write
  read path := beneath (Storage.read path)
  delete path := do
    let target := Path.normalize path
    if !(← allows .delete target) then return false
    beneath (Storage.delete target)
  touch now path := do
    let target := Path.normalize path
    if !(← allows .touch target) then return false
    beneath (Storage.touch now target)
  stats := stats
  cleanup := do
    if (← get).policy.readOnly then
      let _ ← settle .cleanup tempDir (some .readOnly)
      return ⟨0, 0⟩
    beneath Storage.cleanup

/-- Creates the directories that a policy names as allowed, as far as that can be done. -/
def createAllowed (now : Timestamp) : List String → Storing σ Unit
  | [] => return ()
  | path :: rest => do
    if Path.normalize path != "/" then
      let _ ← Storage.createDirAll now path
    createAllowed now rest

/-- Creates a file if it is missing and writes it, asking no policy. -/
def seed (now : Timestamp) (path content : String) : Storing σ Bool := do
  let path := Path.normalize path
  if (← Storage.info path).isNone then
    if !(← Storage.create (Node.forPath now path false)) then return false
  Storage.write now path content

/--
Puts a store under a policy: compiles the patterns, creates the allowed directories and then, still
unchecked, does what is to be done before the rules hold.
-/
def install (now : Timestamp) (policy : Policy) (before : Storing σ Unit) : Storing σ (Guard σ) := do
  match Checker.compile policy with
  | .error e => throw e
  | .ok checker =>
    createAllowed now policy.allowedPaths
    before
    return ⟨← get, checker, []⟩

end Guard
end VirtualShell
