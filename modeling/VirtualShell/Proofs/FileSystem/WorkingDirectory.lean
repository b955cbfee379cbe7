import VirtualShell.Proofs.FileSystem.Calls

/-!
The working directory over a store that does not fail. Every operation that removes or moves something spares it, and
so do undone writes and policies; only cleaning up does not ask where the file system stands.
-/
namespace VirtualShell

/-- What does not hold a directory is at another place. -/
theorem Path.segments_ne_of_not_within {cwd path : String} (hcwd : normalize cwd = cwd) (h : isWithin cwd path = false) :
    segments cwd ≠ segments path := by
  intro he
  have hsame : cwd = normalize path := hcwd.symm.trans ((normalize_eq_iff _ _).mpr he)
  simp [isWithin, ← hsame] at h

namespace View
variable {view after : View} {names : List String} {done : Bool}

/-! ### Directories that stay -/

theorem Creates.keeps_dir {node : Node} (h : view.Creates node done after) (hd : view names = some .dir) :
    after names = some .dir := by
  obtain ⟨hdone,rfl⟩ := h
  split
  · rw [set_ne, hd]
    rintro rfl
    simp [(hdone.mp ‹_›).2.2] at hd
  · exact hd

theorem Writes.keeps_dir {written : List String} {content : String} (h : view.Writes written content done after)
    (hd : view names = some .dir) : after names = some .dir := by
  obtain ⟨hdone,rfl⟩ := h
  split
  · rw [set_ne, hd]
    rintro rfl
    obtain ⟨old,ho⟩ := hdone.mp ‹_›
    simp [ho] at hd
  · exact hd

theorem Deletes.keeps_dir {deleted : List String} (h : view.Deletes deleted done after) (hne : names ≠ deleted)
    (hd : view names = some .dir) : after names = some .dir := by
  obtain ⟨_,rfl⟩ := h
  split
  · rw [set_ne _ _ hne, hd]
  · exact hd

end View

namespace FileSystem
open Storing Viewed

section
variable {σ : Type} [Storage σ] {fs : FileSystem σ}

/-- The store answers with a directory for the working directory. -/
def Stands (fs : FileSystem σ) : Prop := (Storage.info fs.cwd).Yields fs.mount.store fun node _ => node.any Node.isDir = true

/-- The working directory is temporary, and no policy keeps cleaning up from removing it. -/
def AtRisk (fs : FileSystem σ) : Prop := View.Temporary (Path.segments fs.cwd) ∧ fs.isReadOnly = false

variable [LawfulStorage σ]

/-- A sound store with a directory at a path. -/
abbrev Standing (cwd : String) : σ → Prop := Shows fun view => view (Path.segments cwd) = some .dir

theorem stands_iff (hs : Sound fs.mount.store) : fs.Stands ↔ Standing fs.cwd fs.mount.store := by
  obtain ⟨node,after,he,_,_,hnode⟩ := LawfulNodes.info fs.cwd hs
  have hdir := View.any_isDir_iff hnode
  constructor
  · rintro ⟨_,_,he',hd⟩
    obtain rfl := Except.ok.inj (Prod.mk.inj (he.symm.trans he')).1
    exact ⟨hs,hdir.mp hd⟩
  · exact fun hd => ⟨node,after,he,hdir.mpr hd.2⟩

private theorem keepsAround_standing {cwd : String} (hcwd : Path.normalize cwd = cwd) :
    Storage.KeepsAround cwd (Standing cwd : σ → Prop) where
  info path := preserves_of_meets (LawfulNodes.info path) fun _ hd hi => hi.1 ▸ hd
  create node hsized := preserves_of_meets (LawfulNodes.create node · hsized) fun _ hd hc => hc.keeps_dir hd
  list path := preserves_of_meets (LawfulNodes.list path) fun _ hd hl => hl.1 ▸ hd
  write now path content := preserves_of_meets (LawfulNodes.write now path content) fun _ hd hw => hw.keeps_dir hd
  read path := preserves_of_meets (LawfulNodes.read path) fun _ hd hr => hr.1 ▸ hd
  delete path hspared := preserves_of_meets (LawfulNodes.delete path) fun _ hd hdel =>
    hdel.keeps_dir (Path.segments_ne_of_not_within hcwd hspared) hd
  touch now path := preserves_of_meets (LawfulNodes.touch now path) fun _ hd ht => ht.2 ▸ hd
  stats := preserves_of_meets LawfulNodes.stats fun _ hd hm => hm.1 ▸ hd

/-- A file that could be created is not where a directory stands. -/
private theorem undo_standing {cwd : String} (now : Timestamp) (full : String) (store store' : σ) (hstore : Standing cwd store)
    (hc : (Storage.create (Node.forPath now full false)).on store = (.ok true, store')) :
    Preserves (Standing cwd) (Storage.delete full : Storing σ Bool) := by
  obtain ⟨done,after,he,_,hdone,_⟩ := LawfulNodes.create (Node.forPath now full false) hstore.1 (Node.sized_forPath _ _ _)
  obtain rfl := Except.ok.inj (Prod.mk.inj (hc.symm.trans he)).1
  obtain ⟨hname,_,hfree⟩ := hdone.mp rfl
  have hfull : Path.segments full = (Node.forPath now full false).target := by
    rw [← Node.segments_forPath now full false, Node.segments_path _ hname]
  have hne : Path.segments cwd ≠ Path.segments full := by
    intro he
    rw [← hfull, ← he, hstore.2] at hfree
    exact absurd hfree (by simp)
  exact preserves_of_meets (LawfulNodes.delete full) fun _ hd hdel => hdel.keeps_dir hne hd

/-- A step that neither goes elsewhere nor cleans up spares the working directory. -/
private theorem standing_step (hcwd : Path.normalize fs.cwd = fs.cwd) (hstands : Standing fs.cwd fs.mount.store)
    (event : Timestamp × Action) (hcd : ∀ path, event.2 ≠ .cd path) (hclean : event.2 ≠ .cleanup) :
    Standing fs.cwd (fs.step event).mount.store :=
  (step_staying (keepsAround_standing hcwd) undo_standing event hcd (fun hc => absurd hc hclean) hstands).2

/-- Cleaning up takes what is temporary, unless the policy allows no change. -/
private theorem cleanup_yields (hs : Sound fs.mount.store) :
    (cleanup : Filing σ CleanupStats).Yields fs fun _ after => after.cwd = fs.cwd ∧ Sound after.mount.store ∧
      view after.mount.store = if fs.isReadOnly then view fs.mount.store else (view fs.mount.store).cleared := by
  cases hm : fs.mount with
  | plain store =>
    rw [hm] at hs
    refine (call_yields_plain hm (LawfulStorage.cleanup (s := store) hs)).mono ?_
    rintro _ _ ⟨after,rfl,hsound,hview,_⟩
    exact ⟨rfl,hsound,hview.trans (if_neg (by simp [isReadOnly, hm, Mount.guard?])).symm⟩
  | guarded guard =>
    rw [hm] at hs
    cases hread : guard.checker.policy.readOnly with
    | true =>
      have hdenied := Yields.of_on (P := fun _ after => after.store = guard.store) (Guard.on_cleanup_of_readOnly hread) rfl
      refine (call_yields_guarded hm hdenied).mono ?_
      rintro _ _ ⟨after,rfl,hsame⟩
      refine ⟨rfl,(congrArg Sound hsame).mpr hs,?_⟩
      rw [if_pos (by simpa [isReadOnly, hm, Mount.guard?, Guard.policy] using hread)]
      exact congrArg view hsame
    | false =>
      obtain ⟨stats,after,he,_,_,hsound,hview,_⟩ := Guard.beneath_yields (LawfulStorage.cleanup (s := guard.store) hs)
      rw [← Guard.on_cleanup_of_writable hread] at he
      have hcleared := Yields.of_on (P := fun _ after => Sound after.store ∧ view after.store = (view guard.store).cleared)
        he ⟨hsound,hview⟩
      refine (call_yields_guarded hm hcleared).mono ?_
      rintro _ _ ⟨_,rfl,hsound,hview⟩
      exact ⟨rfl,hsound,hview.trans (if_neg (by simpa [isReadOnly, hm, Mount.guard?, Guard.policy] using hread)).symm⟩

omit [LawfulStorage σ] in
private theorem call_yields_info [LawfulNodes σ] (hs : Sound fs.mount.store) (path : String) :
    (call (Storage.info path)).Yields fs fun node after => after.cwd = fs.cwd ∧ Sound after.mount.store ∧
      view after.mount.store = view fs.mount.store ∧ node.map Node.untimed = (view fs.mount.store).node? (Path.segments path) := by
  let _ : FallibleNodes σ := .ofLawful
  exact ((info_tries hs path).yields id).mono fun _ _ h => ⟨congrArg Setting.cwd h.1.setting_eq,h.1.intact,h.2⟩

/-- Changing the working directory leads to a directory, or nowhere. -/
private theorem cd_yields (hs : Sound fs.mount.store) (path : String) :
    (cd path).Yields fs fun _ after =>
      (after.cwd = fs.cwd ∧ view after.mount.store = view fs.mount.store ∧ Sound after.mount.store) ∨
      (Path.normalize after.cwd = after.cwd ∧ Standing after.cwd after.mount.store) := by
  refine (Yields.get (R := fun seen after => seen = fs ∧ after = fs) ⟨rfl,rfl⟩).bind fun seen after ⟨hseen,hafter⟩ => ?_
  rw [hseen, hafter]
  refine (call_yields_info hs _).bind fun node found ⟨hcwd,hsound,hview,hnode⟩ => ?_
  rw [← hview] at hnode
  split
  · exact .pure (.inl ⟨hcwd,hview,hsound⟩)
  · rename_i hdir
    have hstanding : Standing (fs.resolve path) found.mount.store :=
      ⟨hsound,(View.any_isDir_iff hnode).mp (by simpa using hdir)⟩
    exact ⟨true,{ found with cwd := fs.resolve path },rfl,.inr ⟨Path.normalize_resolve _ _,hstanding⟩⟩

/-- Cleaning up spares the working directory unless it is at risk. -/
private theorem step_cleanup (hs : Sound fs.mount.store) (now : Timestamp) : (fs.step (now, .cleanup)).cwd = fs.cwd ∧
    (Standing fs.cwd fs.mount.store → (Standing fs.cwd (fs.step (now, .cleanup)).mount.store ↔ ¬ fs.AtRisk)) := by
  have hlater : Sound ({ fs with clock := now } : FileSystem σ).mount.store := hs
  obtain ⟨stats,after,he,hcwd,hsound,hview⟩ := cleanup_yields hlater
  have hafter : fs.step (now, .cleanup) = after :=
    (congrArg Prod.snd (on_map (fun _ => ()) cleanup _)).trans (congrArg Prod.snd he)
  rw [hafter]
  refine ⟨hcwd,fun hd => ?_⟩
  have hread : ({ fs with clock := now } : FileSystem σ).isReadOnly = fs.isReadOnly := rfl
  rw [hread] at hview
  change Sound _ ∧ view after.mount.store _ = _ ↔ _
  rw [hview, AtRisk]
  cases hr : fs.isReadOnly with
  | true => simpa [hr] using ⟨hsound,hd.2⟩
  | false =>
    by_cases ht : View.Temporary (Path.segments fs.cwd)
    · simp [ht, View.cleared_of_temporary]
    · simpa [ht, View.cleared_of_not_temporary] using ⟨hsound,hd.2⟩

/-- A step goes to a directory or stays, and where it stays it spares a directory unless it cleans up there. -/
private theorem step_cases (hs : Sound fs.mount.store) (hcwd : Path.normalize fs.cwd = fs.cwd) (event : Timestamp × Action) :
    let after := fs.step event
    (Path.normalize after.cwd = after.cwd ∧ Standing after.cwd after.mount.store) ∨
    (after.cwd = fs.cwd ∧ (Standing fs.cwd fs.mount.store → (event.2 = .cleanup → ¬ fs.AtRisk) →
      Standing fs.cwd after.mount.store)) := by
  intro after
  by_cases hcd : ∃ path, event.2 = .cd path
  · obtain ⟨path,hevent⟩ := hcd
    have hlater : Sound ({ fs with clock := event.1 } : FileSystem σ).mount.store := hs
    obtain ⟨done,moved,he,hmoved⟩ := cd_yields hlater path
    have hafter : after = moved := by
      change ((event.2.run).on _).2 = moved
      rw [hevent]
      exact (congrArg Prod.snd (on_map (fun _ => ()) (cd path) _)).trans (congrArg Prod.snd he)
    rw [hafter]
    rcases hmoved with ⟨hsame,hview,hsound⟩ | hmoved
    · exact .inr ⟨hsame,fun hd _ => ⟨hsound,by rw [hview]; exact hd.2⟩⟩
    · exact .inl hmoved
  · have hstays : ∀ path, event.2 ≠ .cd path := fun path he => hcd ⟨path,he⟩
    by_cases hclean : event.2 = .cleanup
    · obtain ⟨now,_⟩ := event
      obtain rfl : _ = Action.cleanup := hclean
      have hstep := step_cleanup hs now
      exact .inr ⟨hstep.1,fun hd hsafe => (hstep.2 hd).mpr (hsafe rfl)⟩
    · refine .inr ⟨?_,fun hd _ => standing_step hcwd hd event hstays hclean⟩
      exact (step_staying (keeps_sound.around _) (fun _ _ _ _ _ _ => keeps_sound.delete _) event hstays
        (fun hc => absurd hc hclean) hs).1

omit [LawfulStorage σ] in
private theorem cwd_cd (fs : FileSystem σ) (path : String) : ((cd path).on fs).2.cwd = fs.cwd ∨
    ((cd path).on fs).1 = .ok true ∧ ((cd path).on fs).2.cwd = fs.resolve path := by
  have hcall : ((call (Storage.info (fs.resolve path))).on fs).2.cwd = fs.cwd := rfl
  rw [cd, on_bind_ok (on_get fs)]
  cases hinfo : (call (Storage.info (fs.resolve path))).on fs with
  | mk result found =>
    rw [hinfo] at hcall
    cases result with
    | error e =>
      rw [on_bind_error hinfo]
      exact .inl hcall
    | ok node =>
      rw [on_bind_ok hinfo]
      split
      · exact .inl hcall
      · exact .inr ⟨rfl,rfl⟩

omit [LawfulStorage σ] in
/-- What does not go to the directory stays where it was. -/
theorem cwd_of_cd (fs : FileSystem σ) (path : String) (h : ((cd path).on fs).1 ≠ .ok true) : ((cd path).on fs).2.cwd = fs.cwd :=
  (cwd_cd fs path).resolve_right fun hmoved => h hmoved.1

omit [LawfulStorage σ] in
theorem cwd_of_open {now : Timestamp} {store : σ} (h : open_ now store = .ok fs) : fs.cwd = "/" := by
  simp only [open_] at h
  split at h
  rename_i result after _
  cases result with
  | error e => simp [Except.map] at h
  | ok done => exact Except.ok.inj h ▸ rfl

omit [LawfulStorage σ] in
theorem cwd_applyPolicy (policy : Policy) (fs : FileSystem σ) : ((applyPolicy policy).on fs).2.cwd = fs.cwd := by
  rcases on_applyPolicy policy fs with ⟨guard,he,_⟩ | ⟨e,he⟩ <;> rw [he]

omit [LawfulStorage σ] in
/-- The working directory is in normal form, also when calls fail. -/
theorem Reached.normalize_cwd {kind : σ → Prop} (hfs : Reached kind fs) : Path.normalize fs.cwd = fs.cwd := by
  induction hfs with
  | opened _ ho =>
    rw [cwd_of_open ho]
    rfl
  | @acted fs event _ ih =>
    by_cases hcd : ∃ path, event.2 = .cd path
    · obtain ⟨path,he⟩ := hcd
      have hstep : (fs.step event).cwd = ((cd path).on { fs with clock := event.1 }).2.cwd := by
        rw [step, he]
        exact congrArg (fun out => FileSystem.cwd (Prod.snd out)) (on_map (fun _ => ()) (cd path) _)
      rcases cwd_cd { fs with clock := event.1 } path with hsame | hmoved
      · rw [hstep, hsame]
        exact ih
      · rw [hstep, hmoved.2]
        exact Path.normalize_resolve _ _
    · rw [show (fs.step event).cwd = fs.cwd from cwd_after [event] (by simpa using fun path he => hcd ⟨path,he⟩)]
      exact ih
  | policed policy _ ih =>
    rw [cwd_applyPolicy]
    exact ih

private theorem standing_applyPolicy (hcwd : Path.normalize fs.cwd = fs.cwd) (hstands : Standing fs.cwd fs.mount.store)
    (policy : Policy) : Standing ((applyPolicy policy).on fs).2.cwd ((applyPolicy policy).on fs).2.mount.store := by
  rw [cwd_applyPolicy]
  exact policed_keeps (keepsAround_standing hcwd).toKeepsGrowing policy hstands

/-- The working directory is in normal form, and there is a directory unless it is temporary. -/
theorem cwd_of_reached {kind : σ → Prop} (hfs : Reached kind fs)
    (hsetUp : ∀ now store, kind store → Sound ((Storage.setUp now).on store).2) :
    Path.normalize fs.cwd = fs.cwd ∧ (Standing fs.cwd fs.mount.store ∨ View.Temporary (Path.segments fs.cwd)) := by
  have hsound {fs : FileSystem σ} (hfs : Reached kind fs) : Sound fs.mount.store :=
    hfs.holds keeps_sound hsetUp (preserves_sound LawfulStorage.cleanup)
  induction hfs with
  | opened hk ho =>
    have hs := hsound (.opened hk ho)
    rw [cwd_of_open ho]
    refine ⟨rfl,.inl ⟨hs,?_⟩⟩
    rw [Path.segments_root]
    exact (LawfulNodes.wellFormed hs).root
  | acted event hfs ih =>
    rcases step_cases (hsound hfs) ih.1 event with ⟨hcwd,hstands⟩ | ⟨hsame,hstays⟩
    · exact ⟨hcwd,.inl hstands⟩
    · rw [hsame]
      refine ⟨ih.1,or_iff_not_imp_right.mpr fun ht => ?_⟩
      exact hstays (ih.2.resolve_right ht) fun _ hrisk => ht hrisk.1
  | policed policy hfs ih =>
    rw [cwd_applyPolicy]
    refine ⟨ih.1,ih.2.imp_left fun hd => ?_⟩
    have hstanding := standing_applyPolicy ih.1 hd policy
    rwa [cwd_applyPolicy] at hstanding

theorem standing_after {kind : σ → Prop} (hfs : Reached kind fs)
    (hsetUp : ∀ now store, kind store → Sound ((Storage.setUp now).on store).2) (hstands : Standing fs.cwd fs.mount.store)
    (events : List (Timestamp × Action))
    (hsafe : ∀ earlier now later, events = earlier ++ (now, .cleanup) :: later → ¬ (fs.after earlier).AtRisk) :
    Standing (fs.after events).cwd (fs.after events).mount.store := by
  induction events generalizing fs with
  | nil => exact hstands
  | cons event events ih =>
    have hstep : Standing (fs.step event).cwd (fs.step event).mount.store := by
      rcases step_cases hstands.1 (cwd_of_reached hfs hsetUp).1 event with ⟨_,hd⟩ | ⟨hsame,hstays⟩
      · exact hd
      · rw [hsame]
        exact hstays hstands fun hc => hsafe [] event.1 events (by rw [← hc]; rfl)
    exact ih (hfs.acted event) hstep fun earlier now later he => hsafe (event :: earlier) now later (by rw [he]; rfl)

end

variable {fs : FileSystem Provider}

/--
The working directory of a file system over a store that does not fail is in normal form, whatever was done, and it
names a directory unless it is temporary. A directory it stays under every policy and through every run, unless the
run cleans up where the file system is at risk; there cleaning up does take the working directory.
-/
theorem working_directory (hfs : Reached Provider.Ready fs) :
    Path.normalize fs.cwd = fs.cwd ∧ (fs.Stands ∨ View.Temporary (Path.segments fs.cwd)) ∧
    (fs.Stands →
      (∀ policy, ((applyPolicy policy).on fs).2.Stands) ∧
      (∀ now, (fs.step (now, .cleanup)).Stands ↔ ¬ fs.AtRisk) ∧
      ∀ events, (∀ earlier now later, events = earlier ++ (now, .cleanup) :: later → ¬ (fs.after earlier).AtRisk) →
        (fs.after events).Stands) := by
  have hsetUp : ∀ now store, Provider.Ready store → Sound ((Storage.setUp now).on store).2 := fun now _ hk => hk.sound_setUp now
  have hiff {fs : FileSystem Provider} (hfs : Reached Provider.Ready fs) : fs.Stands ↔ Standing fs.cwd fs.mount.store :=
    stands_iff (hfs.holds keeps_sound hsetUp (preserves_sound LawfulStorage.cleanup))
  obtain ⟨hcwd,hplace⟩ := cwd_of_reached hfs hsetUp
  rw [hiff hfs]
  refine ⟨hcwd,hplace,fun hd => ⟨fun policy => ?_,fun now => ?_,fun events hsafe => ?_⟩⟩
  · exact (hiff (hfs.policed policy)).mpr (standing_applyPolicy hcwd hd policy)
  · have hclean := step_cleanup hd.1 now
    rw [hiff (hfs.acted _), hclean.1]
    exact hclean.2 hd
  · exact (hiff hfs.after).mpr (standing_after hfs hsetUp hd events hsafe)

private theorem open_tree : open_ 0 (Provider.tree Tree.empty) = .ok ⟨.plain Provider.baseStore,"/",0⟩ := rfl

/-- In a new tree, what would take the working directory is refused, until the file system cleans up. -/
theorem stands_in_tmp :
    let events := [(1, Action.mkdir "/tmp/x"), (2, .cd "/tmp/x"), (3, .rmRecursive "/tmp"), (4, .mv "/tmp/x" "/home")]
    ∃ fs : FileSystem Provider, open_ 0 (.tree Tree.empty) = .ok fs ∧ Reached Provider.Ready fs ∧ fs.Stands ∧
      (fs.after events).cwd = "/tmp/x" ∧ (fs.after events).Stands ∧ ¬ ((fs.after events).step (5, .cleanup)).Stands := by
  intro events
  have hreached : Reached Provider.Ready (⟨.plain Provider.baseStore,"/",0⟩ : FileSystem Provider) := .opened .tree open_tree
  have hopened := working_directory hreached
  have hstands := hopened.2.1.resolve_right (by decide +kernel)
  have hafter := (hopened.2.2 hstands).2.2 events (by simp [events, List.cons_eq_append_iff])
  have hcwd : ((⟨.plain Provider.baseStore,"/",0⟩ : FileSystem Provider).after events).cwd = "/tmp/x" := rfl
  refine ⟨_,open_tree,hreached,hstands,hcwd,hafter,?_⟩
  rw [((working_directory hreached.after).2.2 hafter).2.1, AtRisk, hcwd, not_not]
  exact ⟨by decide +kernel,rfl⟩

/-- Cleaning up leaves a file system in a directory that is no more. -/
theorem cleanup_removes_cwd :
    let events := [(1, Action.mkdir "/tmp/x"), (2, .cd "/tmp/x"), (3, .cleanup)]
    ∃ fs : FileSystem Provider, open_ 0 (.tree Tree.empty) = .ok fs ∧ (fs.after events).cwd = "/tmp/x" ∧
      ¬ (fs.after events).Stands := by
  intro events
  refine ⟨_,open_tree,rfl,?_⟩
  rintro ⟨node,store,he,hdir⟩
  have hgone : ((Storage.info "/tmp/x").on
    ((⟨.plain Provider.baseStore,"/",0⟩ : FileSystem Provider).after events).mount.store).1 = .ok none := rfl
  obtain rfl := Except.ok.inj (hgone.symm.trans (congrArg Prod.fst he))
  simp at hdir

end FileSystem
end VirtualShell
