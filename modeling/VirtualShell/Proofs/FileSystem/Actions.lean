import VirtualShell.FileSystem.Basic
import VirtualShell.Proofs.Storage.Invariant

/-!
Runs of a file system. An invariant of the mounted store that single calls keep is kept by every operation, if
taking back a file that was just created keeps it too.
-/
namespace VirtualShell.FileSystem
open Storing
variable {σ : Type}

/-- The operations of a file system; putting it under a policy is not among them. -/
inductive Action where
  | mkdir (path : String)
  | mkdirAll (path : String)
  | touch (path : String)
  | write (path content : String)
  | append (path content : String)
  | rm (path : String)
  | rmdir (path : String)
  | rmRecursive (path : String)
  | cp (src dst : String)
  | mv (src dst : String)
  | cpMany (sources : List String) (dst : String)
  | mvMany (sources : List String) (dst : String)
  | cd (path : String)
  | info (path : String)
  | exists_ (path : String)
  | isDir (path : String)
  | isFile (path : String)
  | read (path : String)
  | ls (path : String)
  | find (path : String) (deep : Bool)
  | search (path pattern : String) (deep : Bool)
  | stats
  | cleanup
  deriving DecidableEq

namespace Action
variable [Storage σ]

/-- Does an action; what it answers is passed over. -/
def run : Action → Filing σ Unit
  | mkdir path => discard (FileSystem.mkdir path)
  | mkdirAll path => discard (FileSystem.mkdirAll path)
  | touch path => discard (FileSystem.touch path)
  | write path content => discard (FileSystem.write path content)
  | append path content => discard (FileSystem.append path content)
  | rm path => discard (FileSystem.rm path)
  | rmdir path => discard (FileSystem.rmdir path)
  | rmRecursive path => discard (FileSystem.rmRecursive path)
  | cp src dst => discard (FileSystem.cp src dst)
  | mv src dst => discard (FileSystem.mv src dst)
  | cpMany sources dst => discard (FileSystem.cpMany sources dst)
  | mvMany sources dst => discard (FileSystem.mvMany sources dst)
  | cd path => discard (FileSystem.cd path)
  | info path => discard (FileSystem.info path)
  | exists_ path => discard (FileSystem.exists_ path)
  | isDir path => discard (FileSystem.isDir path)
  | isFile path => discard (FileSystem.isFile path)
  | read path => discard (FileSystem.read path)
  | ls path => discard (FileSystem.ls path)
  | find path deep => discard (FileSystem.find path deep)
  | search path pattern deep => discard (FileSystem.search path pattern deep)
  | stats => discard FileSystem.stats
  | cleanup => discard FileSystem.cleanup

end Action

/-- A file system at a later time, after an action that may have failed. -/
def step [Storage σ] (fs : FileSystem σ) (event : Timestamp × Action) : FileSystem σ :=
  (event.2.run.on { fs with clock := event.1 }).2

/-- A file system after a sequence of actions. -/
def after [Storage σ] (fs : FileSystem σ) (events : List (Timestamp × Action)) : FileSystem σ := events.foldl step fs

/-! ### Calls of the mounted store -/

section
variable {fs : FileSystem σ} {α : Type} {onPlain : Storing σ α} {onGuarded : Storing (Guard σ) α}

theorem call_yields_plain {store : σ} (hmount : fs.mount = .plain store) {wanted : α → σ → Prop}
    (h : onPlain.Yields store wanted) : (call (Mount.dispatch onPlain onGuarded)).Yields fs fun a after =>
      ∃ store', after = { fs with mount := .plain store' } ∧ wanted a store' := by
  obtain ⟨a,store',he,hw⟩ := h
  refine ⟨a,{ fs with mount := .plain store' },?_,store',rfl,hw⟩
  rw [call, on_within, hmount]
  change ((onPlain.on store).1, ({ fs with mount := .plain (onPlain.on store).2 } : FileSystem σ)) = _
  rw [he]

theorem call_yields_guarded {guard : Guard σ} (hmount : fs.mount = .guarded guard) {wanted : α → Guard σ → Prop}
    (h : onGuarded.Yields guard wanted) : (call (Mount.dispatch onPlain onGuarded)).Yields fs fun a after =>
      ∃ guard', after = { fs with mount := .guarded guard' } ∧ wanted a guard' := by
  obtain ⟨a,guard',he,hw⟩ := h
  refine ⟨a,{ fs with mount := .guarded guard' },?_,guard',rfl,hw⟩
  rw [call, on_within, hmount]
  change ((onGuarded.on guard).1, ({ fs with mount := .guarded (onGuarded.on guard).2 } : FileSystem σ)) = _
  rw [he]

end

/-! ### What every operation keeps -/

/-- An invariant of the mounted store, as one of the file system. -/
def Over (inv : Mount σ → Prop) (fs : FileSystem σ) : Prop := inv fs.mount

/-- An invariant of the mounted store while the working directory stays. -/
def Staying (cwd : String) (inv : Mount σ → Prop) (fs : FileSystem σ) : Prop := fs.cwd = cwd ∧ inv fs.mount

/-- A file that could just be created is taken back beneath the policy without breaking the invariant. -/
def UndoKeeps [Storage σ] (inv : Mount σ → Prop) : Prop :=
  ∀ now full mount mount', inv mount → (Storage.create (Node.forPath now full false)).on mount = (.ok true, mount') →
    Preserves inv (Mount.beneath (Storage.delete full))

variable {cwd : String} {inv : Mount σ → Prop}

private theorem preserves_call {α : Type} {act : Storing (Mount σ) α} (h : Preserves inv act) :
    Preserves (Staying cwd inv) (call act) :=
  h.within (fun _ ht => ht.2) fun _ _ ht hs => ⟨ht.1,hs⟩

private theorem preserves_whileTrue {act : String → Filing σ Bool} (h : ∀ name, Preserves (Staying cwd inv) (act name))
    (names : List String) : Preserves (Staying cwd inv) (whileTrue act names) := by
  induction names with
  | nil => exact .pure true
  | cons name rest ih => exact (h name).bind fun _ => .ite ih (.pure false)

private theorem preserves_every {act : String → Filing σ Bool} (h : ∀ src, Preserves (Staying cwd inv) (act src))
    (sources : List String) : Preserves (Staying cwd inv) (every act sources) := by
  induction sources with
  | nil => exact .pure true
  | cons src rest ih => exact (h src).bind fun _ => ih.bind fun _ => .pure _

/-- What is removed after a look at the working directory does not hold it. -/
private theorem preserves_spared {fs : FileSystem σ} {full : String} {act : Filing σ Bool} (hcwd : fs.cwd = cwd)
    (hact : Path.isWithin cwd full = false → Preserves (Staying cwd inv) act) :
    Preserves (Staying cwd inv) (if full == "/" || fs.holdsCwd full then return false else act) := by
  split
  · exact .pure false
  · rename_i hspared
    simp only [holdsCwd, hcwd, Bool.or_eq_true, not_or, Bool.not_eq_true] at hspared
    exact hact hspared.2

variable [Storage σ] (h : Storage.KeepsAround cwd inv)
include h

private theorem preserves_info (path : String) : Preserves (Staying cwd inv) (info path) :=
  .bind .get fun _ => preserves_call (h.info _)

private theorem preserves_isDir (path : String) : Preserves (Staying cwd inv) (isDir path) :=
  (preserves_info h path).bind fun _ => .pure _

private theorem preserves_read (path : String) : Preserves (Staying cwd inv) (read path) :=
  .bind .get fun _ => preserves_call (h.read _)

private theorem preserves_mkdir (path : String) : Preserves (Staying cwd inv) (mkdir path) := by
  refine .bind .get fun fs => .ite (.pure _) ?_
  refine (preserves_call (h.info _)).bind fun _ => .ite (.pure _) ?_
  refine (preserves_call (h.info _)).bind fun _ => .ite (.pure _) ?_
  exact preserves_call (h.create _ (Node.sized_new _ _ _ _))

private theorem preserves_touch (path : String) : Preserves (Staying cwd inv) (touch path) := by
  refine .bind .get fun fs => (preserves_call (h.info _)).bind fun found => ?_
  cases found with
  | some node => exact .ite (.pure _) (preserves_call (h.touch _ _))
  | none => exact preserves_call (h.create _ (Node.sized_forPath _ _ _))

/-- Filling a file keeps the invariant if taking it back does, when it would be taken back. -/
private theorem preserves_fill {created : Bool} {full : String} (content : String)
    (hundo : created = true → Preserves inv (Mount.beneath (Storage.delete full))) :
    Preserves (Staying cwd inv) (fill created full content) := by
  refine .bind .get fun fs => (preserves_call (h.write _ _ _)).caught.bind fun outcome => ?_
  rcases outcome with e | _ | _
  · cases created with
    | false => exact .throw e
    | true => exact (preserves_call (hundo rfl)).caught.bind fun _ => .throw e
  · cases created with
    | false => exact .pure false
    | true => exact (preserves_call (hundo rfl)).bind fun _ => .pure false
  · exact .pure true

private theorem preserves_write (hundo : UndoKeeps inv) (path content : String) : Preserves (Staying cwd inv) (write path content) := by
  refine .bind .get fun fs => (preserves_call (h.info _)).bind fun found => ?_
  cases found with
  | some node => exact .ite (.pure _) (preserves_fill h content (by simp))
  | none =>
    refine .ite (.pure _) ?_
    refine (preserves_call (h.create _ (Node.sized_forPath _ _ _))).bind_of fun done s s' hs he => ?_
    cases done with
    | false => exact .pure false
    | true =>
      obtain ⟨mount',hm⟩ : ∃ mount', (Storage.create (Node.forPath fs.clock (fs.resolve path) false)).on s.mount =
          (.ok true, mount') := ⟨_,Prod.ext (Prod.mk.inj he).1 rfl⟩
      exact preserves_fill h content fun _ => hundo _ _ _ _ hs.2 hm

private theorem preserves_append (hundo : UndoKeeps inv) (path content : String) : Preserves (Staying cwd inv) (append path content) :=
  (preserves_read h path).bind fun _ => preserves_write h hundo _ _

private theorem preserves_rm (path : String) : Preserves (Staying cwd inv) (rm path) :=
  .get_bind fun _ hfs => preserves_spared hfs.1 fun hspared => preserves_call (h.delete _ hspared)

private theorem preserves_removeTree (fuel : Nat) (path : String) : Preserves (Staying cwd inv) (removeTree fuel path) := by
  induction fuel generalizing path with
  | zero => exact .pure _
  | succ fuel ih =>
    refine .get_bind fun fs hfs => preserves_spared hfs.1 fun hspared => (preserves_call (h.info _)).bind fun found => ?_
    cases found with
    | none => exact .pure _
    | some node =>
      have hdelete : Preserves (Staying cwd inv) (call (Storage.delete (fs.resolve path))) := preserves_call (h.delete _ hspared)
      refine .ite ((preserves_call (h.list _)).bind fun names => ?_) hdelete
      exact (preserves_whileTrue (fun name => ih _) names).bind fun _ => .ite (.pure _) hdelete

private theorem preserves_rmRecursive (path : String) : Preserves (Staying cwd inv) (rmRecursive path) :=
  .bind .get fun _ => preserves_removeTree h _ _

private theorem preserves_copyTree (hundo : UndoKeeps inv) (fuel : Nat) (src dst : String) (dir : Bool) :
    Preserves (Staying cwd inv) (copyTree fuel src dst dir) := by
  induction fuel generalizing src dst dir with
  | zero => exact .pure _
  | succ fuel ih =>
    refine .ite ((preserves_call (h.read src)).bind fun found => ?_) ?_
    · cases found with
      | none => exact .pure _
      | some content => exact preserves_write h hundo dst content
    · refine (preserves_isDir h dst).bind fun _ => .ite ((preserves_mkdir h dst).bind fun _ => .ite (.pure _) ?_) ?_
      -- What is in a directory is copied in the same way into one that was there and one that was made.
      all_goals
        refine (preserves_call (h.list src)).bind fun names => preserves_whileTrue (fun name => ?_) names
        refine (preserves_call (h.info _)).bind fun found => ?_
        cases found with
        | none => exact .pure _
        | some node => exact ih _ _ _

private theorem preserves_destination (src dst : String) : Preserves (Staying cwd inv) (destination src dst) :=
  .bind .get fun _ => (preserves_call (h.info _)).bind fun _ => .ite (.pure _) (.pure _)

private theorem preserves_cp (hundo : UndoKeeps inv) (src dst : String) : Preserves (Staying cwd inv) (cp src dst) := by
  refine .bind .get fun fs => (preserves_call (h.info _)).bind fun found => ?_
  cases found with
  | none => exact .pure _
  | some node =>
    refine (preserves_destination h _ dst).bind fun target => .ite (.pure _) ?_
    exact .bind .get fun _ => preserves_copyTree h hundo _ _ _ _

private theorem preserves_mv (hundo : UndoKeeps inv) (src dst : String) : Preserves (Staying cwd inv) (mv src dst) := by
  refine .bind .get fun fs => .ite (.pure _) ?_
  exact (preserves_cp h hundo _ dst).bind fun _ => .ite (.pure _) (preserves_rmRecursive h _)

private theorem preserves_seek (wanted : String → Bool) (path : String) (deep : Bool) :
    Preserves (Staying cwd inv) (seek wanted path deep) :=
  .bind .get fun _ => preserves_call (h.walk _ _ _ _)

private theorem preserves_search (path pattern : String) (deep : Bool) : Preserves (Staying cwd inv) (search path pattern deep) := by
  unfold search
  split
  · exact .throw _
  · exact preserves_seek h _ path deep

/-- Every operation but changing the working directory keeps what the calls keep; cleaning up is a call of its own. -/
theorem Action.preserves_staying (hundo : UndoKeeps inv) (action : Action) (hcd : ∀ path, action ≠ .cd path)
    (hcleanup : action = .cleanup → Preserves inv (Storage.cleanup : Storing (Mount σ) CleanupStats)) :
    Preserves (Staying cwd inv) (action.run) := by
  cases action with
  | mkdir path => exact (preserves_mkdir h path).map _
  | mkdirAll path => exact .map _ (.bind .get fun _ => preserves_call (h.createDirAll _ _))
  | touch path => exact (preserves_touch h path).map _
  | write path content => exact (preserves_write h hundo path content).map _
  | append path content => exact (preserves_append h hundo path content).map _
  | rm path => exact (preserves_rm h path).map _
  | rmdir path => exact .map _ ((preserves_isDir h path).bind fun _ => .ite (preserves_rm h path) (.pure _))
  | rmRecursive path => exact (preserves_rmRecursive h path).map _
  | cp src dst => exact (preserves_cp h hundo src dst).map _
  | mv src dst => exact (preserves_mv h hundo src dst).map _
  | cpMany sources dst =>
    refine .map _ ((preserves_isDir h dst).bind fun _ => .ite ?_ (.pure _))
    exact preserves_every (fun src => preserves_cp h hundo src dst) sources
  | mvMany sources dst =>
    refine .map _ ((preserves_isDir h dst).bind fun _ => .ite ?_ (.pure _))
    exact preserves_every (fun src => preserves_mv h hundo src dst) sources
  | cd path => exact absurd rfl (hcd path)
  | info path => exact (preserves_info h path).map _
  | exists_ path => exact .map _ ((preserves_info h path).bind fun _ => .pure _)
  | isDir path => exact (preserves_isDir h path).map _
  | isFile path => exact .map _ ((preserves_info h path).bind fun _ => .pure _)
  | read path => exact (preserves_read h path).map _
  | ls path => exact .map _ (.bind .get fun _ => preserves_call (h.list _))
  | find path deep => exact (preserves_seek h _ path deep).map _
  | search path pattern deep => exact (preserves_search h path pattern deep).map _
  | stats => exact .map _ (preserves_call h.stats)
  | cleanup => exact .map _ (preserves_call (hcleanup rfl))

omit h in
private theorem preserves_cd (h : Storage.Keeps inv) (path : String) : Preserves (Over inv) (cd path) := by
  have hinfo (full : String) : Preserves (Over inv) (call (Storage.info full)) :=
    (h.info full).within (fun _ ht => ht) fun _ _ _ hs => hs
  refine .bind .get fun fs => (hinfo _).bind fun _ => .ite (.pure _) ?_
  exact .bind (fun s hs => hs) fun _ => .pure _

omit h in
/-- Every operation keeps what the calls keep; cleaning up is a call of its own. -/
theorem Action.preserves_run (h : Storage.Keeps inv) (hundo : UndoKeeps inv) (action : Action)
    (hcleanup : action = .cleanup → Preserves inv (Storage.cleanup : Storing (Mount σ) CleanupStats)) :
    Preserves (Over inv) (action.run) := by
  intro fs hfs
  by_cases hcd : ∃ path, action = .cd path
  · obtain ⟨path,rfl⟩ := hcd
    exact (preserves_cd h path).map _ fs hfs
  · exact (action.preserves_staying (h.around fs.cwd) hundo (fun path he => hcd ⟨path,he⟩) hcleanup fs ⟨rfl,hfs⟩).2

omit h in
/-- So does every run. -/
theorem after_keeps (h : Storage.Keeps inv) (hundo : UndoKeeps inv) {fs : FileSystem σ} (events : List (Timestamp × Action))
    (hcleanup : ∀ event ∈ events, event.2 = .cleanup →
      Preserves inv (Storage.cleanup : Storing (Mount σ) CleanupStats)) (hinv : inv fs.mount) :
    inv (fs.after events).mount := by
  induction events generalizing fs with
  | nil => exact hinv
  | cons event events ih =>
    have hstep := event.2.preserves_run h hundo (hcleanup event (by simp)) { fs with clock := event.1 } hinv
    exact ih (fun e he => hcleanup e (by simp [he])) hstep

end VirtualShell.FileSystem
