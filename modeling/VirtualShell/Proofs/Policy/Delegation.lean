import VirtualShell.Proofs.Policy.Verdict
import VirtualShell.Proofs.Storage.InUse
import VirtualShell.Proofs.Storage.Total

/-!
A guard denies a change or hands it on, and does nothing else. It judges a change by the normal form of its path, which is where
a store makes the change, however the path is written; the rules are asked in their order, and the first that applies is noted.
-/
namespace VirtualShell
open Storing Viewed Counting

/-! ### The rules in their order -/

/-- The first of some rules that applies. -/
def firstDenial (rules : List (Denial × Bool)) : Option Denial := (rules.find? Prod.snd).map Prod.fst

@[simp] theorem firstDenial_nil : firstDenial [] = none := rfl

@[simp] theorem firstDenial_cons (rule : Denial × Bool) (rules : List (Denial × Bool)) :
    firstDenial (rule :: rules) = if rule.2 then some rule.1 else firstDenial rules := by
  rw [firstDenial, List.find?_cons]
  cases rule.2 <;> rfl

theorem firstDenial_append (a b : List (Denial × Bool)) : firstDenial (a ++ b) = (firstDenial a).or (firstDenial b) := by
  rw [firstDenial, List.find?_append, firstDenial, firstDenial]
  cases a.find? Prod.snd <;> rfl

namespace Checker

/-- The path rules, each with whether it forbids changing a path in normal form. -/
def pathRules (checker : Checker) (path : String) : List (Denial × Bool) :=
  let policy := checker.policy
  [(.readOnly,policy.readOnly),
    (.deniedPath,policy.deniedPaths.any (Path.isWithin path)),
    (.deniedPattern,checker.matchesPattern path),
    (.notAllowed,!policy.allowedPaths.isEmpty && !policy.allowedPaths.any (Path.isWithin path)),
    (.tooDeep,Path.depth path > policy.maxPathDepth.toNat)]

/-- The size rules, each with whether it forbids putting `new` bytes in place of `existing` ones of a `total`. -/
def sizeRules (checker : Checker) (new existing total : Nat) : List (Denial × Bool) :=
  let policy := checker.policy
  [(.fileTooLarge,new > policy.maxFileSize.toNat),
    (.quota,policy.maxTotalSize ≠ unlimited && total - existing + new > policy.maxTotalSize.toNat)]

theorem checkPath_eq (checker : Checker) (path : String) :
    checker.checkPath path = firstDenial (checker.pathRules (Path.normalize path)) := by
  simp only [checkPath, pathRules, firstDenial_cons, firstDenial_nil, decide_eq_true_eq]

/-- Sums that stop at the largest number of 64 bits exceed no limit that the exact ones keep. -/
theorem checkSize_eq (checker : Checker) (new existing total : Nat) :
    checker.checkSize new existing total = firstDenial (checker.sizeRules new existing total) := by
  have hquota : min (total - existing + new) (UInt64.size - 1) > checker.policy.maxTotalSize.toNat ↔
      checker.policy.maxTotalSize ≠ unlimited ∧ total - existing + new > checker.policy.maxTotalSize.toNat := by
    have hunlimited : unlimited.toNat = UInt64.size - 1 := by decide
    rw [ne_eq, ← UInt64.toNat_inj, hunlimited]
    have hlt := checker.policy.maxTotalSize.toNat_lt
    simp only [UInt64.size] at hlt ⊢
    omega
  simp only [checkSize, hquota, sizeRules, firstDenial_cons, firstDenial_nil, decide_eq_true_eq, Bool.and_eq_true]

end Checker

/-! ### Changes -/

/-- The changes that a store can be asked for, but for cleaning up. -/
inductive Change where
  | create (node : Node)
  | write (path content : String)
  | delete (path : String)
  | touch (path : String)

namespace Change
variable {σ : Type} [Storage σ]

def operation : Change → Operation
  | create _ => .create
  | write .. => .write
  | delete _ => .delete
  | touch _ => .touch

/-- The path that is asked for; the path of a node is made from its parent as written and its name. -/
def path : Change → String
  | create node => node.path
  | write path _ => path
  | delete path => path
  | touch path => path

/-- The path that a guard judges. -/
def target (change : Change) : String := Path.normalize change.path

def run (now : Timestamp) : Change → Storing σ Bool
  | create node => Storage.create node
  | write path content => Storage.write now path content
  | delete path => Storage.delete path
  | touch path => Storage.touch now path

end Change

/-- The size that a store reports of what stands at a path. -/
def reportedSize {σ : Type} [Storage σ] (store : σ) (path : String) : Nat :=
  match ((Storage.info path).on store).1 with
  | .ok node => ((node.bind Node.size).getD 0).toNat
  | .error _ => 0

/-- The bytes that a store reports of all files. -/
def reportedTotal {σ : Type} [Storage σ] (store : σ) : Nat :=
  match (Storage.stats.on store).1 with
  | .ok stats => stats.bytes
  | .error _ => 0

namespace Guard
variable {guard : Guard Provider} {path : String} {now : Timestamp}

/-- The first rule against a change: the path rules, and for a write the size rules on what the store reports. -/
def denial (guard : Guard Provider) (change : Change) : Option Denial :=
  let pathRules := guard.checker.pathRules change.target
  match change with
  | .write _ content =>
    firstDenial (pathRules ++ guard.checker.sizeRules content.utf8ByteSize (reportedSize guard.store change.target)
      (reportedTotal guard.store))
  | _ => firstDenial pathRules

/-- What is to come of a change, an answer and a guard: the change was denied and noted, or it was the store's own. -/
def Resolves (guard : Guard Provider) (now : Timestamp) (change : Change) (outcome : Except StorageError Bool × Guard Provider) :
    Prop :=
  let (answer, after) := outcome
  after.checker = guard.checker ∧
  match guard.denial change with
  | some denial => answer = .ok false ∧ rested after.store = rested guard.store ∧
      ∃ path, Path.normalize path = change.target ∧ after.violations = guard.violations ++ [⟨change.operation,path,denial⟩]
  | none => answer = ((change.run now).on guard.store).1 ∧ rested after.store = rested ((change.run now).on guard.store).2 ∧
      after.violations = guard.violations

/-! ### What the size rules go by -/

private theorem reportedSize_eq (h : guard.store.InUse) (hdir : view guard.store (Path.segments path) ≠ some .dir) :
    reportedSize guard.store path = (view guard.store).sizeAt (Path.segments path) := by
  obtain ⟨node,after,he,_,hnode⟩ := LenientNodes.info path h.used
  have hfound : node.map Node.untimed = (view guard.store).node? (Path.segments path) := by
    rw [← hnode]
    cases node with
    | none => rfl
    | some found =>
      obtain ⟨item,hitem,hshown⟩ := Option.map_eq_some_iff.mp hnode.symm
      have hkind : found.isDir = item.isDir := (congrArg Node.isDir hshown).symm
      have hfile : found.isDir = false := by
        rw [hkind, Bool.eq_false_iff, ne_eq, item.isDir_iff]
        rintro rfl
        exact hdir hitem
      rw [Option.map_some, Option.map_some, Function.comp_apply, Node.trimmed_of_file hfile]
  simp only [reportedSize, he]
  exact View.sizeAt_eq hfound

private theorem reportedTotal_reports (h : guard.store.InUse) : (view guard.store).Reports (reportedTotal guard.store) := by
  obtain ⟨stats,after,he,hmeasures⟩ := LenientNodes.stats h.used
  rw [reportedTotal, he]
  exact hmeasures.reports

/-! ### What a guard decides -/

private theorem denial_write (guard : Guard Provider) (path content : String) :
    guard.denial (.write path content) = (guard.checker.checkPath (Path.normalize path)).or (guard.checker.checkSize
      content.utf8ByteSize (reportedSize guard.store (Path.normalize path)) (reportedTotal guard.store)) := by
  rw [Checker.checkPath_eq, Checker.checkSize_eq, Path.normalize_normalize, ← firstDenial_append]
  rfl

/-- The verdict on a write is that of the rules, and to reach it changes nothing but counts. -/
private theorem verdict_yields (h : guard.store.InUse) (path content : String) :
    (guard.checker.verdict (Path.normalize path) content.utf8ByteSize).Yields guard.store fun denial seen =>
      denial = guard.denial (.write path content) ∧ Alike guard.store seen := by
  rw [denial_write, Checker.verdict]
  cases hdenied : guard.checker.checkPath (Path.normalize path) with
  | some denial => exact .pure ⟨rfl,.refl h.works⟩
  | none =>
    obtain ⟨node,seen,hinfo,_⟩ := LenientNodes.info (Path.normalize path) h.used
    have hseen : Alike guard.store seen := by
      have hidle := Provider.info_idle (Path.normalize path) guard.store (Alike.refl h.works)
      rwa [hinfo] at hidle
    obtain ⟨stats,counted,hstats,_⟩ := LenientNodes.stats h.used
    obtain ⟨last,hlast,hcounted⟩ : ∃ last, (Storage.stats : Storing Provider StorageStats).on seen = (.ok stats,last) ∧
        Alike guard.store last := by
      refine ⟨_,Prod.ext ?_ rfl,Provider.stats_idle seen hseen⟩
      rw [← (Provider.stats_agrees guard.store seen hseen).1, hstats]
    have hmeasured := guard.checker.checkSize_measured content.utf8ByteSize (reportedSize guard.store (Path.normalize path))
      (reportedTotal guard.store)
    simp only [Option.none_or, reportedSize, reportedTotal, hinfo, hstats] at hmeasured ⊢
    refine (Yields.of_on (P := fun found t => found = node ∧ t = seen) hinfo ⟨rfl,rfl⟩).bind ?_
    rintro _ _ ⟨rfl,rfl⟩
    dsimp only
    split
    · refine (Yields.of_on (P := fun found t => found = stats ∧ t = last) hlast ⟨rfl,rfl⟩).bind ?_
      rintro _ _ ⟨rfl,rfl⟩
      exact .pure ⟨rfl,hcounted⟩
    · rename_i hscan
      rw [if_neg hscan] at hmeasured
      exact .pure ⟨hmeasured,hseen⟩

variable {verdict : Storing Provider (Option Denial)} {act : Storing Provider Bool}

/-- What is ruled by the verdict on a change is decided as it is to be, if the store itself cannot tell how it was looked at. -/
private theorem ruled_resolves (change : Change) {noted : String} (hnoted : Path.normalize noted = change.target)
    (h : verdict.Yields guard.store fun denial seen => denial = guard.denial change ∧ rested seen = rested guard.store ∧
      (act.on seen).1 = ((change.run now).on guard.store).1 ∧
      rested (act.on seen).2 = rested ((change.run now).on guard.store).2) :
    guard.Resolves now change ((ruled change.operation noted verdict act).on guard) := by
  obtain ⟨ruling,seen,hverdict,hruling,hrested,hanswer,hafter⟩ := h
  subst hruling
  unfold Resolves
  cases hdenial : guard.denial change with
  | some denial =>
    rw [hdenial] at hverdict
    rw [on_ruled_denied hverdict]
    exact ⟨rfl,rfl,hrested,noted,hnoted,rfl⟩
  | none =>
    rw [hdenial] at hverdict
    rw [on_ruled_allowed hverdict]
    exact ⟨rfl,hanswer,hafter,rfl⟩

theorem resolves (h : guard.store.InUse) (now : Timestamp) (change : Change) :
    guard.Resolves now change ((change.run now).on guard) := by
  cases change with
  | create node =>
    rw [Change.run, on_create]
    exact ruled_resolves (.create node) rfl (.pure ⟨guard.checker.checkPath_eq _,rfl,rfl,rfl⟩)
  | write path content =>
    rw [Change.run, on_write]
    refine ruled_resolves (.write path content) (Path.normalize_normalize path) ((verdict_yields h path content).mono ?_)
    intro denial seen ⟨hdenial,halike⟩
    obtain ⟨hanswer,_,_,hafter⟩ := Provider.write_agrees now path content guard.store seen halike
    rw [Provider.on_write_normalize halike.2.1]
    exact ⟨hdenial,halike.2.2.symm,hanswer.symm,hafter.symm⟩
  | delete path =>
    rw [Change.run, on_delete]
    refine ruled_resolves (.delete path) (Path.normalize_normalize path) (.pure ⟨?_,rfl,?_⟩)
    · rw [Checker.checkPath_eq, Path.normalize_normalize]
      rfl
    · rw [Provider.on_delete_normalize h.works]
      exact ⟨rfl,rfl⟩
  | touch path =>
    rw [Change.run, on_touch]
    refine ruled_resolves (.touch path) (Path.normalize_normalize path) (.pure ⟨?_,rfl,?_⟩)
    · rw [Checker.checkPath_eq, Path.normalize_normalize]
      rfl
    · rw [Provider.on_touch_normalize h.works]
      exact ⟨rfl,rfl⟩

/-- What a store creates lies at the normal form of the path of the node, where nothing was before. -/
private theorem created_at {store after : Provider} (h : store.InUse) {node : Node}
    (hon : (Storage.create node).on store = (.ok true,after)) :
    let target := Path.segments (Path.normalize node.path)
    view store target = none ∧ view after = (view store).set target (some (.new node.isDir)) := by
  obtain ⟨done,_,he,hcan,hview⟩ := LenientNodes.create node h.used
  obtain ⟨rfl,rfl⟩ : done = true ∧ _ = after := by simpa [he] using hon
  have hcreatable := hcan.mp rfl
  rw [Path.segments_normalize, node.segments_path hcreatable.1]
  exact ⟨hcreatable.2.2,hview⟩

/--
A guard over a store of which no call fails denies a change and notes it once, with the first rule that applies, or it answers as
the store would and leaves the store as that would, but for its counts of calls. The size rules go by the exact bytes, kept in 64
bits, of what stands at the path and of all files; a directory may have been given a size, but it is never written. Whatever the
store creates lies at the path that was judged, and reading is the store's own.
-/
theorem denied_or_delegated (h : guard.store.InUse) (now : Timestamp) :
    (∀ change, guard.Resolves now change ((change.run now).on guard)) ∧
    (∀ path, view guard.store (Path.segments path) ≠ some .dir →
      reportedSize guard.store path = (view guard.store).sizeAt (Path.segments path)) ∧
    (view guard.store).Reports (reportedTotal guard.store) ∧
    (∀ node after, (Storage.create node).on guard.store = (.ok true,after) →
      let target := Path.segments (Change.create node).target
      view guard.store target = none ∧ view after = (view guard.store).set target (some (.new node.isDir))) ∧
    ∀ path,
      (Storage.info path).on guard =
        (((Storage.info path).on guard.store).1,{ guard with store := ((Storage.info path).on guard.store).2 }) ∧
      (Storage.list path).on guard =
        (((Storage.list path).on guard.store).1,{ guard with store := ((Storage.list path).on guard.store).2 }) ∧
      (Storage.read path).on guard =
        (((Storage.read path).on guard.store).1,{ guard with store := ((Storage.read path).on guard.store).2 }) :=
  ⟨resolves h now,fun _ => reportedSize_eq h,reportedTotal_reports h,fun _ _ => created_at h,fun _ => ⟨rfl,rfl,rfl⟩⟩

/-- A parent with dots in it leads no way around a denied path. -/
theorem dotted_parent_denied :
    let policy : Policy := { Policy.unrestricted with deniedPaths := ["/etc"] }
    let guard : Guard Provider := ⟨.tree ⟨some (.dir (Node.root 0) .nil)⟩,⟨policy,[]⟩,[]⟩
    let change : Change := .create (Node.file 1 "passwd" "/tmp/../etc")
    guard.store.InUse ∧ ∃ after path, (change.run 1).on guard = (.ok false,after) ∧
      rested after.store = rested guard.store ∧ Path.normalize path = "/etc/passwd" ∧
      after.violations = [⟨.create,path,.deniedPath⟩] := by
  intro policy guard change
  have hsetUp : ((Storage.setUp 0).on (Provider.tree Tree.empty)).2 = guard.store := rfl
  have hinUse : guard.store.InUse := hsetUp ▸ .setUp 0 .tree
  have hdenial : guard.denial change = some .deniedPath := by decide +kernel
  have htarget : change.target = "/etc/passwd" := by decide +kernel
  have hresolved := (denied_or_delegated hinUse 1).1 change
  rw [Resolves, hdenial, htarget] at hresolved
  obtain ⟨_,hanswer,hrested,path,hpath,hviolations⟩ := hresolved
  exact ⟨hinUse,((change.run 1).on guard).2,path,Prod.ext hanswer rfl,hrested,hpath,hviolations⟩

end Guard

end VirtualShell
