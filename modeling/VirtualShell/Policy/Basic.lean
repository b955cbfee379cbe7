import VirtualShell.Path
import VirtualShell.Regex.Reader
import VirtualShell.Storage.Basic

/-! What may be changed in a store: limits and path rules, their named presets, and the check itself. -/
namespace VirtualShell

/-- Why a change is refused. -/
inductive Denial where
  | readOnly
  | deniedPath
  | deniedPattern
  | notAllowed
  | tooDeep
  | fileTooLarge
  | quota
  deriving DecidableEq, Repr

def Denial.message : Denial → String
  | .readOnly => "read-only mode"
  | .deniedPath => "Path in denied paths list"
  | .deniedPattern => "Path matches denied pattern"
  | .notAllowed => "Path not in allowed paths list"
  | .tooDeep => "Path depth exceeds maximum"
  | .fileTooLarge => "File size exceeds maximum"
  | .quota => "Total storage quota exceeded"

/-- The value that stands for no limit. -/
def unlimited : UInt64 := UInt64.ofNat (UInt64.size - 1)

structure Policy where
  /-- The most bytes one file may hold. -/
  maxFileSize : UInt64
  /-- The most bytes all files may hold together. -/
  maxTotalSize : UInt64
  readOnly : Bool
  /-- Changes must lie under one of these, if there are any. -/
  allowedPaths : List String
  /-- Nothing at or below these may change. -/
  deniedPaths : List String
  /-- Regular expressions that no path, and no component of one, may match. -/
  deniedPatterns : List String
  /-- The most components a path may have. -/
  maxPathDepth : UInt64
  deriving DecidableEq, Repr

inductive Profile where
  | standard
  | strict
  | readOnly
  | untrusted
  | testing
  deriving DecidableEq, Repr

namespace Profile

def all : List Profile := [.standard, .strict, .readOnly, .untrusted, .testing]

def name : Profile → String
  | .standard => "default"
  | .strict => "strict"
  | .readOnly => "readonly"
  | .untrusted => "untrusted"
  | .testing => "testing"

def ofName? (name : String) : Option Profile := all.find? fun profile => profile.name == name

/-- The answer to a name that no profile has. -/
def unknownMessage (name : String) : String := "unknown security profile: " ++ name

end Profile

namespace Policy

/-- The policy that allows everything. -/
def unrestricted : Policy := ⟨unlimited, unlimited, false, [], [], [], unlimited⟩

def kib : UInt64 := 1024
def mib : UInt64 := 1024 * kib
def gib : UInt64 := 1024 * mib

def systemPaths : List String := ["/etc/passwd", "/etc/shadow", "/etc/sudoers"]

def riskyNames : List String := ["\\.(exe|dll|so|dylib|bat|cmd)$", "^\\.env$"]

def hiddenNames : String := "^\\."

/-- The policy behind a profile. -/
def ofProfile : Profile → Policy
  | .standard => ⟨10 * mib, 100 * mib, false, ["/"], systemPaths, riskyNames, 10⟩
  | .strict => ⟨mib, 20 * mib, false, ["/home", "/tmp"], systemPaths, riskyNames ++ [hiddenNames], 5⟩
  | .readOnly => ⟨10 * mib, 100 * mib, true, ["/"], systemPaths, riskyNames, 10⟩
  | .untrusted =>
    ⟨512 * kib, 5 * mib, false, ["/sandbox", "/tmp"], systemPaths, riskyNames ++ [hiddenNames], 5⟩
  | .testing => ⟨100 * mib, gib, false, ["/"], [], [], 20⟩

end Policy

/-- Parts of a policy to be set in place of those of another. -/
structure Overrides where
  maxFileSize : Option UInt64
  maxTotalSize : Option UInt64
  readOnly : Option Bool
  allowedPaths : Option (List String)
  deniedPaths : Option (List String)
  deniedPatterns : Option (List String)
  maxPathDepth : Option UInt64
  deriving DecidableEq, Repr

def Overrides.none : Overrides := ⟨.none, .none, .none, .none, .none, .none, .none⟩

/-- A policy with some of its parts replaced. -/
def Policy.override (policy : Policy) (parts : Overrides) : Policy where
  maxFileSize := parts.maxFileSize.getD policy.maxFileSize
  maxTotalSize := parts.maxTotalSize.getD policy.maxTotalSize
  readOnly := parts.readOnly.getD policy.readOnly
  allowedPaths := parts.allowedPaths.getD policy.allowedPaths
  deniedPaths := parts.deniedPaths.getD policy.deniedPaths
  deniedPatterns := parts.deniedPatterns.getD policy.deniedPatterns
  maxPathDepth := parts.maxPathDepth.getD policy.maxPathDepth

/-- A policy together with its patterns, each as the question whether a text matches it. -/
structure Checker where
  policy : Policy
  patterns : List (String → Bool)

namespace Checker

/-- The patterns of a policy, ready to be asked. -/
def compilePatterns : List String → Except StorageError (List (String → Bool))
  | [] => .ok []
  | pattern :: rest =>
    match Regex.compile pattern with
    | .error e => .error (.invalidPattern (pattern ++ ": " ++ e.message))
    | .ok regex => (compilePatterns rest).map (regex.isMatch :: ·)

def compile (policy : Policy) : Except StorageError Checker :=
  (compilePatterns policy.deniedPatterns).map fun patterns => ⟨policy, patterns⟩

/-- Whether a pattern matches a path or one of its components. -/
def matchesPattern (checker : Checker) (path : String) : Bool :=
  checker.patterns.any fun pattern => pattern path || (Path.segments path).any pattern

/-- The first rule that forbids changing a path, if there is one. -/
def checkPath (checker : Checker) (path : String) : Option Denial :=
  let path := Path.normalize path
  let policy := checker.policy
  if policy.readOnly then some .readOnly
  else if policy.deniedPaths.any (Path.isWithin path) then some .deniedPath
  else if checker.matchesPattern path then some .deniedPattern
  else if !policy.allowedPaths.isEmpty && !policy.allowedPaths.any (Path.isWithin path) then some .notAllowed
  else if Path.depth path > policy.maxPathDepth.toNat then some .tooDeep
  else none

/-- Whether the bytes of all files together are limited. -/
def limitsTotal (checker : Checker) : Bool := checker.policy.maxTotalSize != unlimited

/-- The rule that forbids putting `new` bytes in place of `existing` ones of a `total`, if there is one. -/
def checkSize (checker : Checker) (new existing total : Nat) : Option Denial :=
  if new > checker.policy.maxFileSize.toNat then some .fileTooLarge
  else if min (total - existing + new) (UInt64.size - 1) > checker.policy.maxTotalSize.toNat then some .quota
  else none

end Checker
end VirtualShell
