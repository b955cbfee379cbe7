import VirtualShell.FileSystem.Walk
import VirtualShell.Glob
import VirtualShell.Policy.Guard

/-!
A file system over any store: a working directory, at most one policy, and the usual operations. Paths
are read from the working directory.
-/
namespace VirtualShell

/-- A store as it is mounted: by itself or under a policy. -/
inductive Mount (σ : Type) where
  | plain (store : σ)
  | guarded (guard : Guard σ)

namespace Mount
variable {σ : Type}

/-- The store beneath any policy. -/
def store : Mount σ → σ
  | .plain store => store
  | .guarded guard => guard.store

def withStore (store : σ) : Mount σ → Mount σ
  | .plain _ => .plain store
  | .guarded guard => .guarded { guard with store }

def guard? : Mount σ → Option (Guard σ)
  | .plain _ => none
  | .guarded guard => some guard

/-- An action on the store beneath any policy. -/
def beneath {α : Type} (act : Storing σ α) : Storing (Mount σ) α := act.within store withStore

/-- Runs the action that fits the mount. -/
def dispatch {α : Type} (onPlain : Storing σ α) (onGuarded : Storing (Guard σ) α) : Storing (Mount σ) α :=
  ExceptT.mk fun
    | .plain store => let (result, store) := onPlain store; (result, .plain store)
    | .guarded guard => let (result, guard) := onGuarded guard; (result, .guarded guard)

instance [Storage σ] : Storage (Mount σ) where
  name
    | .plain store => Storage.name store
    | .guarded guard => Storage.name guard
  capacity mount := Storage.capacity mount.store
  setUp now := dispatch (Storage.setUp now) (Storage.setUp now)
  info path := dispatch (Storage.info path) (Storage.info path)
  create node := dispatch (Storage.create node) (Storage.create node)
  list path := dispatch (Storage.list path) (Storage.list path)
  write now path content := dispatch (Storage.write now path content) (Storage.write now path content)
  read path := dispatch (Storage.read path) (Storage.read path)
  delete path := dispatch (Storage.delete path) (Storage.delete path)
  touch now path := dispatch (Storage.touch now path) (Storage.touch now path)
  stats := dispatch Storage.stats Storage.stats
  cleanup := dispatch Storage.cleanup Storage.cleanup

end Mount

structure FileSystem (σ : Type) where
  mount : Mount σ
  /-- The working directory, in normal form. -/
  cwd : String
  /-- The time that is stamped on what changes. -/
  clock : Timestamp

/-- An action on a file system. -/
abbrev Filing (σ : Type) : Type → Type := Storing (FileSystem σ)

namespace FileSystem
variable {σ : Type}

/-- An action on the mounted store. -/
def call {α : Type} (act : Storing (Mount σ) α) : Filing σ α :=
  act.within FileSystem.mount fun mount fs => { fs with mount }

/-- A path read from the working directory. -/
def resolve (fs : FileSystem σ) (path : String) : String := Path.resolve fs.cwd path

/-- Whether removing a path would take the working directory with it. -/
def holdsCwd (fs : FileSystem σ) (full : String) : Bool := Path.isWithin fs.cwd full

def violations (fs : FileSystem σ) : List Violation :=
  match fs.mount.guard? with
  | some guard => guard.violations
  | none => []

def isReadOnly (fs : FileSystem σ) : Bool := fs.mount.guard?.any fun guard => guard.policy.readOnly

/-- Forgets the denied changes. -/
def clearViolations (fs : FileSystem σ) : FileSystem σ :=
  match fs.mount with
  | .plain _ => fs
  | .guarded guard => { fs with mount := .guarded { guard with violations := [] } }

variable [Storage σ]

def providerName (fs : FileSystem σ) : String := Storage.name fs.mount

/-- A bound on the depth of the tree. -/
def capacity (fs : FileSystem σ) : Nat := Storage.capacity fs.mount + 1

/-- The directories that every file system starts with. -/
def baseLayout : List String := ["/bin", "/home", "/tmp", "/etc", "/var"]

/-- Creates directories as far as that can be done. -/
def layOut (now : Timestamp) : List String → Storing σ Unit
  | [] => return ()
  | dir :: rest => do
    let _ ← Storage.createDirAll now dir
    layOut now rest

/-- A file system over a store, which is set up and given the base layout. -/
def open_ (now : Timestamp) (store : σ) : Except StorageError (FileSystem σ) :=
  let act : Storing σ Unit := do
    let _ ← Storage.setUp now
    layOut now baseLayout
  let (result, store) := act.run.run store
  result.map fun _ => ⟨.plain store, "/", now⟩

/-- Puts the store under a policy, in place of any before; the log starts anew. -/
def applyPolicy (policy : Policy) : Filing σ Unit :=
  ExceptT.mk fun fs =>
    let (result, store) := (Guard.install fs.clock policy (return ())).run.run fs.mount.store
    match result with
    | .ok guard => (.ok (), { fs with mount := .guarded guard })
    | .error e => (.error e, { fs with mount := fs.mount.withStore store })

def info (path : String) : Filing σ (Option Node) := do
  call (Storage.info ((← get).resolve path))

def exists_ (path : String) : Filing σ Bool := return (← info path).isSome

def isDir (path : String) : Filing σ Bool := return (← info path).any Node.isDir

def isFile (path : String) : Filing σ Bool := return (← info path).any fun node => !node.isDir

/-- Creates a directory under one that exists. -/
def mkdir (path : String) : Filing σ Bool := do
  let fs ← get
  let full := fs.resolve path
  let (parent, name) := Path.split full
  if name.isEmpty then return false
  if (← call (Storage.info full)).isSome then return false
  if !((← call (Storage.info parent)).any Node.isDir) then return false
  call (Storage.create (Node.directory fs.clock name parent))

/-- Creates a directory and all its ancestors; it may exist already. -/
def mkdirAll (path : String) : Filing σ Bool := do
  let fs ← get
  call (Storage.createDirAll fs.clock (fs.resolve path))

/-- Creates an empty file, or renews the time of one that exists. -/
def touch (path : String) : Filing σ Bool := do
  let fs ← get
  let full := fs.resolve path
  match ← call (Storage.info full) with
  | some node => if node.isDir then return false else call (Storage.touch fs.clock full)
  | none => call (Storage.create (Node.forPath fs.clock full false))

/-- Writes a file, and takes it away again if it was `created` for this and the write does not succeed. -/
def fill (created : Bool) (full content : String) : Filing σ Bool := do
  match ← Storing.caught (call (Storage.write (← get).clock full content)) with
  | .ok true => return true
  | .ok false =>
    if created then
      let _ ← call (Mount.beneath (Storage.delete full))
    return false
  | .error e =>
    if created then
      let _ ← Storing.caught (call (Mount.beneath (Storage.delete full)))
    throw e

/-- Replaces the content of a file, which is created if it is missing. -/
def write (path content : String) : Filing σ Bool := do
  let fs ← get
  let full := fs.resolve path
  match ← call (Storage.info full) with
  | some node => if node.isDir then return false else fill false full content
  | none =>
    if full == "/" then return false
    if !(← call (Storage.create (Node.forPath fs.clock full false))) then return false
    fill true full content

def read (path : String) : Filing σ (Option String) := do
  call (Storage.read ((← get).resolve path))

/-- Adds to the end of a file, which is created if it is missing. -/
def append (path content : String) : Filing σ Bool := do
  write path ((← read path).getD "" ++ content)

/-- Removes a file or an empty directory, but never the root or what holds the working directory. -/
def rm (path : String) : Filing σ Bool := do
  let fs ← get
  let full := fs.resolve path
  if full == "/" || fs.holdsCwd full then return false
  call (Storage.delete full)

/-- Removes an empty directory. -/
def rmdir (path : String) : Filing σ Bool := do
  if ← isDir path then rm path else return false

/-- Does something to each name of a directory until it cannot be done. -/
def whileTrue (act : String → Filing σ Bool) : List String → Filing σ Bool
  | [] => return true
  | name :: rest => do
    if ← act name then whileTrue act rest else return false

/-- Removes a node and all below it, up to a depth, and stops where that cannot be done. -/
def removeTree : Nat → String → Filing σ Bool
  | 0, _ => return false
  | fuel + 1, path => do
    let fs ← get
    let full := fs.resolve path
    if full == "/" || fs.holdsCwd full then return false
    match ← call (Storage.info full) with
    | none => return false
    | some node =>
      if node.isDir then
        let names ← call (Storage.list full)
        if !(← whileTrue (fun name => removeTree fuel (Path.join full name)) names) then return false
      call (Storage.delete full)

def rmRecursive (path : String) : Filing σ Bool := do
  removeTree (← get).capacity path

/-- The names in a directory. -/
def ls (path : String) : Filing σ (List String) := do
  call (Storage.list ((← get).resolve path))

/-- Makes an existing directory the working directory. -/
def cd (path : String) : Filing σ Bool := do
  let full := (← get).resolve path
  if !((← call (Storage.info full)).any Node.isDir) then return false
  modify fun fs => { fs with cwd := full }
  return true

/-- Where a copy goes: into `dst` if that is a directory. -/
def destination (src dst : String) : Filing σ String := do
  let dst := (← get).resolve dst
  if (← call (Storage.info dst)).any Node.isDir then return Path.join dst (Path.basename src)
  return dst

/-- Copies a node and all below it, up to a depth; directories that are there already are filled. -/
def copyTree : Nat → String → String → Bool → Filing σ Bool
  | 0, _, _, _ => return false
  | fuel + 1, src, dst, dir => do
    if !dir then
      match ← call (Storage.read src) with
      | none => return false
      | some content => write dst content
    else
      if !(← isDir dst) then
        if !(← mkdir dst) then return false
      let names ← call (Storage.list src)
      whileTrue (fun name => do
        match ← call (Storage.info (Path.join src name)) with
        | none => return true
        | some node => copyTree fuel (Path.join src name) (Path.join dst name) node.isDir) names

/-- Copies a file or a directory tree, but no directory into itself. -/
def cp (src dst : String) : Filing σ Bool := do
  let src := (← get).resolve src
  match ← call (Storage.info src) with
  | none => return false
  | some node =>
    let dst ← destination src dst
    if dst == src || (node.isDir && Path.isWithin dst src) then return false
    copyTree (← get).capacity src dst node.isDir

/-- Copies and then removes the source, unless that holds the working directory. -/
def mv (src dst : String) : Filing σ Bool := do
  let fs ← get
  let src := fs.resolve src
  if src == "/" || fs.holdsCwd src then return false
  if !(← cp src dst) then return false
  rmRecursive src

/-- Does something to every source, and tells whether all went well. -/
def every (act : String → Filing σ Bool) : List String → Filing σ Bool
  | [] => return true
  | src :: rest => do
    let here ← act src
    let later ← every act rest
    return here && later

/-- Copies several sources into a directory. -/
def cpMany (sources : List String) (dst : String) : Filing σ Bool := do
  if ← isDir dst then every (fun src => cp src dst) sources else return false

/-- Moves several sources into a directory. -/
def mvMany (sources : List String) (dst : String) : Filing σ Bool := do
  if ← isDir dst then every (fun src => mv src dst) sources else return false

/-- The paths below a directory whose last component is wanted. -/
def seek (wanted : String → Bool) (path : String) (deep : Bool) : Filing σ Traversal := do
  let fs ← get
  call (Storage.walk deep wanted fs.capacity (fs.resolve path))

/-- The paths below a directory. -/
def find (path : String) (deep : Bool) : Filing σ Traversal := seek (fun _ => true) path deep

/-- The paths below a directory whose last component matches a glob. -/
def search (path pattern : String) (deep : Bool) : Filing σ Traversal :=
  match Glob.compile pattern with
  | .error e => throw (.invalidPattern e.message)
  | .ok glob => seek glob.isMatch path deep

def stats : Filing σ StorageStats := call Storage.stats

def cleanup : Filing σ CleanupStats := call Storage.cleanup

end FileSystem
end VirtualShell
