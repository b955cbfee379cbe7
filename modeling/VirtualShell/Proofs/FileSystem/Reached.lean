import VirtualShell.Proofs.FileSystem.Actions
import VirtualShell.Proofs.Policy.Guard

/-!
The file systems that can come about: one is opened over a store, works on it and is put under policies, again and
again. An invariant of stores that every call keeps holds of the store beneath all of them.
-/
namespace VirtualShell
open Storing
variable {σ : Type} [Storage σ]

namespace Storage
variable {inv : σ → Prop}

theorem KeepsGrowing.layOut (h : KeepsGrowing inv) (now : Timestamp) (dirs : List String) : Preserves inv (FileSystem.layOut now dirs) := by
  induction dirs with
  | nil => exact .pure _
  | cons dir rest ih => exact (h.createDirAll now dir).bind fun _ => ih

private theorem KeepsGrowing.createAllowed (h : KeepsGrowing inv) (now : Timestamp) (paths : List String) :
    Preserves inv (Guard.createAllowed now paths) := by
  induction paths with
  | nil => exact .pure _
  | cons path rest ih => exact .ite ((h.createDirAll now path).bind fun _ => ih) ih

theorem KeepsGrowing.install (h : KeepsGrowing inv) (now : Timestamp) (policy : Policy) :
    Preserves inv (Guard.install now policy (pure ())) := by
  unfold Guard.install
  split
  · exact .throw _
  · exact (h.createAllowed _ _).bind fun _ => .bind (.pure _) fun _ => .bind .get fun _ => .pure _

/-- A guard lets all of its changes through to calls that keep the invariant. -/
private theorem KeepsGrowing.guard (h : KeepsGrowing inv) (checker : Checker) : Guard.KeepsGrowing checker inv where
  info := h.info
  create node hsized _ := h.create node hsized
  list := h.list
  write now path content := Guard.preserves_write h.info h.stats now path content fun _ => h.write _ _ _
  read := h.read
  touch now path _ := h.touch now path
  stats := h.stats

theorem Keeps.guard (h : Keeps inv) (checker : Checker) : Guard.Keeps checker inv :=
  ⟨h.toKeepsGrowing.guard checker,fun path _ => h.delete path⟩

theorem KeepsAround.guard {cwd : String} (h : KeepsAround cwd inv) (checker : Checker) :
    KeepsAround cwd (Guard.Over checker inv) :=
  ⟨(h.toKeepsGrowing.guard checker).over,fun path hspared => Guard.preserves_delete path fun _ =>
    h.delete _ (by rwa [Path.isWithin, Path.normalize_normalize])⟩

end Storage

namespace Guard

/-- What has been put over a store stands over it with the checker of the policy. -/
theorem install_eq_ok {now : Timestamp} {policy : Policy} {store after : σ} {guard : Guard σ}
    (h : (install now policy (pure ())).on store = (.ok guard, after)) :
    Checker.compile policy = .ok guard.checker ∧ guard.store = after := by
  unfold install at h
  split at h
  · simp at h
  · rename_i checker hc
    rw [on_bind] at h
    cases hs : (createAllowed now policy.allowedPaths).on store with
    | mk result created =>
      cases result with
      | error e => simp [hs] at h
      | ok done =>
        simp only [hs] at h
        obtain ⟨hguard,rfl⟩ := Prod.mk.inj h
        obtain rfl := Except.ok.inj hguard
        exact ⟨hc,rfl⟩

end Guard

namespace FileSystem
variable {kind inv : σ → Prop} {fs : FileSystem σ}

/-- A file system opened over a store of some kind, after actions and policies. -/
inductive Reached (kind : σ → Prop) : FileSystem σ → Prop
  | opened {store : σ} {now : Timestamp} {fs : FileSystem σ} : kind store → open_ now store = .ok fs → Reached kind fs
  | acted {fs : FileSystem σ} (event : Timestamp × Action) : Reached kind fs → Reached kind (fs.step event)
  | policed {fs : FileSystem σ} (policy : Policy) : Reached kind fs → Reached kind ((applyPolicy policy).on fs).2

theorem Reached.after {events : List (Timestamp × Action)} (h : Reached kind fs) : Reached kind (fs.after events) := by
  induction events generalizing fs with
  | nil => exact h
  | cons event events ih => exact ih (h.acted event)

/-- The file system that a store is opened to; where that fails, over the store as it is. -/
def opening (store : σ) : FileSystem σ := (open_ 0 store).toOption.getD ⟨.plain store,"/",0⟩

theorem Reached.opening {store : σ} (hk : kind store) (h : (open_ 0 store).isOk = true) : Reached kind (opening store) :=
  .opened hk (eq_ok_of_isOk h _)

private theorem opened_keeps (h : Storage.KeepsGrowing inv) (hsetUp : ∀ now store done after, kind store →
      (Storage.setUp now).on store = (.ok done, after) → inv after)
    {store : σ} {now : Timestamp} (hk : kind store) (ho : open_ now store = .ok fs) : inv fs.mount.store := by
  have hopen : open_ now store = ((do
      let _ ← Storage.setUp now
      layOut now baseLayout : Storing σ Unit).on store).1.map fun _ => ⟨.plain ((do
        let _ ← Storage.setUp now
        layOut now baseLayout : Storing σ Unit).on store).2,"/",now⟩ := rfl
  rw [hopen, on_bind] at ho
  obtain ⟨result,after,hs⟩ : ∃ result after, (Storage.setUp now).on store = (result, after) := ⟨_,_,rfl⟩
  rw [hs] at ho
  cases result with
  | error e => simp [Except.map] at ho
  | ok done =>
    have hout := h.layOut now baseLayout after (hsetUp now store done after hk hs)
    cases hl : (layOut now baseLayout).on after with
    | mk result final =>
      rw [hl] at hout
      simp only [hl] at ho
      cases result with
      | error e => simp [Except.map] at ho
      | ok done =>
        obtain rfl := Except.ok.inj ho
        exact hout

/-- What putting a file system under a policy comes to. -/
theorem on_applyPolicy (policy : Policy) (fs : FileSystem σ) :
    let after := ((Guard.install fs.clock policy (pure ())).on fs.mount.store).2
    (∃ guard, (applyPolicy policy).on fs = (.ok (), { fs with mount := .guarded guard }) ∧
      Checker.compile policy = .ok guard.checker ∧ guard.store = after) ∨
    ∃ e, (applyPolicy policy).on fs = (.error e, { fs with mount := fs.mount.withStore after }) := by
  obtain ⟨result,after,hs⟩ : ∃ result after, (Guard.install fs.clock policy (pure ())).on fs.mount.store = (result, after) :=
    ⟨_,_,rfl⟩
  have hrun : (Guard.install fs.clock policy (pure ())).run.run fs.mount.store = (result, after) := hs
  rw [hs]
  cases result with
  | error e => exact .inr ⟨e,by simp only [on, applyPolicy, ExceptT.mk, hrun]⟩
  | ok guard => exact .inl ⟨guard,by simp only [on, applyPolicy, ExceptT.mk, hrun],Guard.install_eq_ok hs⟩

omit [Storage σ] in
theorem store_withStore (mount : Mount σ) (store : σ) : (mount.withStore store).store = store := by cases mount <;> rfl

theorem policed_keeps (h : Storage.KeepsGrowing inv) (policy : Policy) (hinv : inv fs.mount.store) :
    inv ((applyPolicy policy).on fs).2.mount.store := by
  have hafter := h.install fs.clock policy _ hinv
  rcases on_applyPolicy policy fs with ⟨guard,he,_,hs⟩ | ⟨e,he⟩
  · rw [he]
    change inv guard.store
    rwa [hs]
  · rw [he]
    dsimp only
    rwa [store_withStore]

theorem step_keeps (h : Storage.Keeps inv) (hcleanup : Preserves inv (Storage.cleanup : Storing σ CleanupStats))
    (event : Timestamp × Action) (hinv : inv fs.mount.store) : inv (fs.step event).mount.store := by
  obtain ⟨checker,hmount⟩ := Mount.exists_holds hinv
  have hkeeps := Mount.keeps_holds h (h.guard checker).over
  have hclean : Preserves (Mount.Holds inv (Guard.Over checker inv)) (Storage.cleanup : Storing (Mount σ) CleanupStats) :=
    Mount.preserves_dispatch hcleanup (Guard.preserves_cleanup fun _ => hcleanup)
  have hundo : UndoKeeps (Mount.Holds inv (Guard.Over checker inv)) := fun _ _ _ _ _ _ =>
    Mount.preserves_beneath (h.delete _) (h.delete _)
  have hafter := event.2.preserves_run hkeeps hundo (fun _ => hclean) { fs with clock := event.1 } hmount
  exact hafter.store

/-- Taking back a file keeps an invariant of the mount if it keeps that of the store. -/
private theorem undo_holds {checker : Checker} (hundo : ∀ now full store store', inv store →
      (Storage.create (Node.forPath now full false)).on store = (.ok true, store') →
      Preserves inv (Storage.delete full : Storing σ Bool)) :
    UndoKeeps (Mount.Holds inv (Guard.Over checker inv)) := by
  intro now full mount mount' hinv hc
  have hdelete : Preserves inv (Storage.delete full : Storing σ Bool) := by
    cases mount with
    | plain store =>
      have hon : (Storage.create (Node.forPath now full false)).on store = (.ok true, _) := Prod.ext (Prod.mk.inj hc).1 rfl
      exact hundo now full store _ hinv hon
    | guarded guard =>
      have hon : (Storage.create (Node.forPath now full false)).on guard = (.ok true, _) := Prod.ext (Prod.mk.inj hc).1 rfl
      exact hundo now full guard.store _ hinv.2 (Guard.on_create_of_create hon)
  exact Mount.preserves_beneath hdelete hdelete

/-- A step that does not change the working directory keeps what may depend on it. -/
theorem step_staying (h : Storage.KeepsAround fs.cwd inv) (hundo : ∀ now full store store', inv store →
      (Storage.create (Node.forPath now full false)).on store = (.ok true, store') →
      Preserves inv (Storage.delete full : Storing σ Bool))
    (event : Timestamp × Action) (hcd : ∀ path, event.2 ≠ .cd path)
    (hcleanup : event.2 = .cleanup → Preserves inv (Storage.cleanup : Storing σ CleanupStats)) (hinv : inv fs.mount.store) :
    (fs.step event).cwd = fs.cwd ∧ inv (fs.step event).mount.store := by
  obtain ⟨checker,hmount⟩ := Mount.exists_holds hinv
  have hclean (hc : event.2 = .cleanup) :
      Preserves (Mount.Holds inv (Guard.Over checker inv)) (Storage.cleanup : Storing (Mount σ) CleanupStats) :=
    Mount.preserves_dispatch (hcleanup hc) (Guard.preserves_cleanup fun _ => hcleanup hc)
  have hafter := event.2.preserves_staying (Mount.keepsAround_holds h (h.guard checker)) (undo_holds hundo) hcd hclean
    { fs with clock := event.1 } ⟨rfl,hmount⟩
  exact ⟨hafter.1,hafter.2.store⟩

/-- Only an action that goes elsewhere changes the working directory. -/
theorem cwd_after (events : List (Timestamp × Action)) (hcd : ∀ event ∈ events, ∀ path, event.2 ≠ .cd path) :
    (fs.after events).cwd = fs.cwd := by
  have hany : Storage.KeepsAround fs.cwd (fun _ : σ => True) := Storage.keeps_constant.around fs.cwd
  induction events generalizing fs with
  | nil => rfl
  | cons event events ih =>
    have hstep : (fs.step event).cwd = fs.cwd :=
      (step_staying hany (fun _ _ _ _ _ _ _ _ => trivial) event (hcd event (by simp)) (fun _ _ _ => trivial) trivial).1
    exact (ih (fun e he => hcd e (by simp [he])) (hstep ▸ hany)).trans hstep

/-- The store beneath a file system satisfies whatever setting up brings about where it succeeds and every call keeps. -/
theorem Reached.holds_of_ok (hfs : Reached kind fs) (h : Storage.Keeps inv)
    (hsetUp : ∀ now store done after, kind store → (Storage.setUp now).on store = (.ok done, after) → inv after)
    (hcleanup : Preserves inv (Storage.cleanup : Storing σ CleanupStats)) : inv fs.mount.store := by
  induction hfs with
  | opened hk ho => exact opened_keeps h.toKeepsGrowing hsetUp hk ho
  | acted event _ ih => exact step_keeps h hcleanup event ih
  | policed policy _ ih => exact policed_keeps h.toKeepsGrowing policy ih

theorem Reached.holds (hfs : Reached kind fs) (h : Storage.Keeps inv)
    (hsetUp : ∀ now store, kind store → inv ((Storage.setUp now).on store).2)
    (hcleanup : Preserves inv (Storage.cleanup : Storing σ CleanupStats)) : inv fs.mount.store := by
  refine hfs.holds_of_ok h (fun now store done after hk he => ?_) hcleanup
  have hup := hsetUp now store hk
  rwa [he] at hup

/-! ### Under a policy -/

/-- A file system that a policy has been put over is under its checker. -/
theorem under_of_applyPolicy {policy : Policy} {checker : Checker} {guarded : FileSystem σ}
    (hcompile : Checker.compile policy = .ok checker) (happlied : (applyPolicy policy).on fs = (.ok (), guarded))
    (hinv : inv guarded.mount.store) : Mount.Under checker inv guarded.mount := by
  obtain ⟨guard,hon,hguard,_⟩ | ⟨e,hon⟩ := on_applyPolicy policy fs
  · obtain ⟨_,rfl⟩ := Prod.mk.inj (happlied.symm.trans hon)
    exact ⟨guard,rfl,Except.ok.inj (hguard.symm.trans hcompile),hinv⟩
  · exact absurd (Prod.mk.inj (happlied.symm.trans hon)).1 (by simp)

/--
Taking back a file keeps what permitted deletions keep: the file was created through the guard, so its path is one
that may change.
-/
private theorem undo_keeps {checker : Checker} (h : Guard.Keeps checker inv) : UndoKeeps (Mount.Under checker inv) := by
  rintro now full _ mount' ⟨guard,rfl,rfl,_⟩ hc
  obtain ⟨guard',hguard⟩ : ∃ guard', (Storage.create (Node.forPath now full false)).on guard = (.ok true, guard') :=
    ⟨_,Prod.ext (Prod.mk.inj hc).1 rfl⟩
  have hallowed := Guard.checkPath_of_create hguard
  rw [guard.checker.checkPath_congr (Node.segments_forPath now full false)] at hallowed
  exact Mount.preserves_beneath_under (h.delete full hallowed)

/-- A run under a policy leaves the policy, and beneath it whatever permitted changes keep. -/
theorem after_under {checker : Checker} (h : Guard.Keeps checker inv) (events : List (Timestamp × Action))
    (hcleanup : ∀ event ∈ events, event.2 = .cleanup → checker.policy.readOnly = false →
      Preserves inv (Storage.cleanup : Storing σ CleanupStats))
    (hmount : Mount.Under checker inv fs.mount) : Mount.Under checker inv (fs.after events).mount :=
  after_keeps (Mount.keeps_under h) (undo_keeps h) events
    (fun event he hc => Mount.preserves_cleanup_under (hcleanup event he hc)) hmount

end FileSystem
end VirtualShell
