import VirtualShell.Proofs.FileSystem.Content
import VirtualShell.Proofs.Path.Resolution
import VirtualShell.Proofs.Policy.Verdict
import VirtualShell.Proofs.Storage.Directories

/-!
Creating a directory with its ancestors. Over any store, under a policy or not and whichever calls fail, the missing
directories on the way are made one after the other and nothing else is changed; where a file, the policy or a failure
stops this, those made so far stay.
-/
namespace VirtualShell
open Storing

/-! ### The way to a directory -/

namespace Path

/-- One of the first directories on the way to a directory, without the root. -/
structure OnWay (dir : String) (n : Nat) (path : String) : Prop where
  above : AtOrBelow path dir
  below_root : segments path ≠ []
  depth_le : depth path ≤ n

/-- The next directory on the way. -/
structure NextOnWay (dir : String) (n : Nat) (path : String) : Prop where
  above : AtOrBelow path dir
  depth_eq : depth path = n + 1

variable {dir next path : String} {n : Nat}

theorem not_onWay_zero : ¬ OnWay dir 0 path := fun h =>
  h.below_root (List.eq_nil_of_length_eq_zero (by rw [← depth_eq]; exact Nat.le_zero.mp h.depth_le))

theorem AtOrBelow.onWay (h : AtOrBelow path dir) (hroot : segments path ≠ []) : OnWay dir (depth dir) path :=
  ⟨h,hroot,by rw [depth_eq, depth_eq]; exact List.IsPrefix.length_le h⟩

theorem OnWay.succ (h : OnWay dir n path) : OnWay dir (n + 1) path := ⟨h.above,h.below_root,h.depth_le.trans n.le_succ⟩

namespace NextOnWay

theorem onWay (h : NextOnWay dir n next) (hpath : segments path = segments next) : OnWay dir (n + 1) path := by
  have hdepth : depth path = n + 1 := by rw [Path.depth_eq, hpath, ← Path.depth_eq, h.depth_eq]
  refine ⟨?_,?_,hdepth.le⟩
  · rw [AtOrBelow, hpath]
    exact h.above
  · rw [← List.length_pos_iff_ne_nil, ← Path.depth_eq, hdepth]
    exact n.succ_pos

theorem not_onWay (h : NextOnWay dir n next) (hpath : segments path = segments next) : ¬ OnWay dir n path := by
  intro hon
  have hle := hon.depth_le
  rw [Path.depth_eq, hpath, ← Path.depth_eq, h.depth_eq] at hle
  omega

theorem eq_or_onWay (h : NextOnWay dir n next) (hpath : OnWay dir (n + 1) path) :
    segments path = segments next ∨ OnWay dir n path := by
  rcases Nat.lt_or_eq_of_le hpath.depth_le with hlt | heq
  · exact .inr ⟨hpath.above,hpath.below_root,Nat.le_of_lt_succ hlt⟩
  · refine .inl ((List.prefix_of_prefix_length_le hpath.above h.above ?_).eq_of_length ?_)
    all_goals rw [← Path.depth_eq, ← Path.depth_eq, heq, h.depth_eq]

end NextOnWay
end Path

/-! ### What is built -/

namespace Storage

/-- The lookups of the places of some names, one below the other. -/
def lookAlong {σ : Type} [Storage σ] (current : String) : List String → Storing σ Unit
  | [] => return ()
  | part :: rest => do
    let next := Path.join current part
    let _ ← info next
    lookAlong next rest

variable {σ α : Type} [Storage σ] [Candid σ]

/-- The first directories on the way to a directory are there; those that were missing are new, and all else is as before. -/
structure Built (dir : String) (n : Nat) (before after : σ) : Prop where
  inOrder : Sighted.InOrder after
  directory : ∀ path, Path.OnWay dir n path → DirectoryAt path after
  made : ∀ path, Path.OnWay dir n path → MissingAt path before → NewDirectoryAt path after
  kept : ∀ path, ¬ (Path.OnWay dir n path ∧ MissingAt path before) → sight path after = sight path before

variable {dir next : String} {n : Nat} {before s t : σ}

namespace Built

theorem start (h : Sighted.InOrder before) (dir : String) : Built dir 0 before before where
  inOrder := h
  directory _ hpath := absurd hpath Path.not_onWay_zero
  made _ hpath := absurd hpath Path.not_onWay_zero
  kept _ _ := rfl

/-- Nothing is built where everything is found as before. -/
theorem idle (h : Built dir n before s) (horder : Sighted.InOrder t) (hsame : ∀ path, sight path t = sight path s) :
    Built dir n before t := by
  refine ⟨horder,fun path hpath => ?_,fun path hpath hmissing => ?_,fun path hpath => (hsame path).trans (h.kept path hpath)⟩
  · rw [DirectoryAt, hsame]
    exact h.directory path hpath
  · rw [NewDirectoryAt, hsame]
    exact h.made path hpath hmissing

/-- A directory that is there already is passed. -/
theorem pass (h : Built dir n before s) (hnext : Path.NextOnWay dir n next) (hdir : DirectoryAt next s) : Built dir (n + 1) before s := by
  have hthere {path : String} (hpath : Path.segments path = Path.segments next) : DirectoryAt path s := by
    rw [DirectoryAt, Candid.sight_congr hpath]
    exact hdir
  refine ⟨h.inOrder,fun path hpath => ?_,fun path hpath hmissing => ?_,fun path hpath => h.kept path fun hon => hpath ⟨hon.1.succ,hon.2⟩⟩
  · exact (hnext.eq_or_onWay hpath).elim hthere (h.directory path)
  · rcases hnext.eq_or_onWay hpath with heq | hon
    · obtain ⟨node,hnode,_⟩ := hthere heq
      rw [h.kept path fun hon => hnext.not_onWay heq hon.1, hmissing] at hnode
      simp at hnode
    · exact h.made path hon hmissing

/-- A missing directory is made. -/
theorem make (h : Built dir n before s) (hnext : Path.NextOnWay dir n next) (hmissing : MissingAt next s) (horder : Sighted.InOrder t)
    (helse : ∀ path, Path.segments path ≠ Path.segments next → sight path t = sight path s) (hnew : NewDirectoryAt next t) :
    Built dir (n + 1) before t := by
  have hnew {path : String} (hpath : Path.segments path = Path.segments next) : NewDirectoryAt path t := by
    rw [NewDirectoryAt, Candid.sight_congr hpath, (Path.normalize_eq_iff path next).mpr hpath]
    exact hnew
  have hother {path : String} (hpath : Path.OnWay dir n path) : sight path t = sight path s :=
    helse path fun heq => hnext.not_onWay heq hpath
  refine ⟨horder,fun path hpath => ?_,fun path hpath hmiss => ?_,fun path hpath => ?_⟩
  · rcases hnext.eq_or_onWay hpath with heq | hon
    · exact (hnew heq).directoryAt
    · rw [DirectoryAt, hother hon]
      exact h.directory path hon
  · rcases hnext.eq_or_onWay hpath with heq | hon
    · exact hnew heq
    · rw [NewDirectoryAt, hother hon]
      exact h.made path hon hmiss
  · by_cases heq : Path.segments path = Path.segments next
    · have hbefore := h.kept path fun hon => hnext.not_onWay heq hon.1
      refine absurd ⟨hnext.onWay heq,?_⟩ hpath
      rw [MissingAt, ← hbefore, Candid.sight_congr heq]
      exact hmissing
    · exact (helse path heq).trans (h.kept path fun hon => hpath ⟨hon.1.succ,hon.2⟩)

end Built
end Storage

/-! ### On a mounted store -/

namespace Mount
variable {σ : Type} [Storage σ]

theorem on_info (path : String) (mount : Mount σ) : (Storage.info path).on mount =
    (((Storage.info path).on mount.store).1, mount.withStore ((Storage.info path).on mount.store).2) := by
  cases mount <;> rfl

/-- A creation is the store's own, or the policy denies it and that is noted. -/
theorem on_create (node : Node) (mount : Mount σ) :
    (Storage.create node).on mount =
        (((Storage.create node).on mount.store).1, mount.withStore ((Storage.create node).on mount.store).2) ∨
      ∃ guard denial, mount = .guarded guard ∧ guard.checker.checkPath node.path = some denial ∧
        (Storage.create node).on mount =
          (.ok false, .guarded { guard with violations := guard.violations ++ [⟨.create,node.path,denial⟩] }) := by
  cases mount with
  | plain store => exact .inl rfl
  | guarded guard =>
    have hon : (Storage.create node).on (Mount.guarded guard) =
        (((Storage.create node).on guard).1, .guarded ((Storage.create node).on guard).2) := rfl
    have hverdict : (return guard.checker.checkPath node.path : Storing σ (Option Denial)).on guard.store =
        (.ok (guard.checker.checkPath node.path),guard.store) := rfl
    cases hd : guard.checker.checkPath node.path with
    | none =>
      rw [hd] at hverdict
      rw [hon, Guard.on_create, hd, Guard.on_ruled_allowed hverdict]
      exact .inl rfl
    | some denial =>
      rw [hd] at hverdict
      refine .inr ⟨guard,denial,rfl,hd,?_⟩
      rw [hon, Guard.on_create, hd, Guard.on_ruled_denied hverdict]

variable [Candid σ] {dir current : String} {parts : List String} {n : Nat} {start mount : Mount σ}

/-- Everything is found as before, and the policy and its log are the same. -/
structure Unchanged (before after : Mount σ) : Prop where
  inOrder : Sighted.InOrder after.store
  sight : ∀ path, Storage.sight path after.store = Storage.sight path before.store
  same : after = before.withStore after.store

/-- A lookup changes nothing, and if it answers it tells what is found. -/
theorem info_ends (h : Sighted.InOrder mount.store) (path : String) : (Storage.info path).Ends mount mount.Unchanged
    fun found after => mount.Unchanged after ∧ (Storage.sight path after.store).1 = .ok found := by
  obtain ⟨horder,hsame⟩ := Framed.info path mount.store h
  have htells := Candid.info_tells path mount.store
  have hunchanged (store : σ) (ho : Sighted.InOrder store)
      (hs : ∀ other, Storage.sight other store = Storage.sight other mount.store) : mount.Unchanged (mount.withStore store) := by
    have hstore := FileSystem.store_withStore mount store
    exact ⟨by rwa [hstore],by rwa [hstore],by rw [hstore]⟩
  refine .lift mount.withStore (on_info path mount) ?_
  cases he : (Storage.info path).on mount.store with
  | mk result store =>
    rw [he] at horder hsame
    have hafter := hunchanged store horder fun other => hsame other (Set.notMem_empty _)
    rw [Ends, he]
    cases result with
    | error e => exact hafter
    | ok found => exact ⟨hafter,by rw [hafter.sight]; exact htells.of_ok he⟩

/-- The first directories on the way are built beneath the same policy, and nothing is noted. -/
structure Extended (dir : String) (n : Nat) (before after : Mount σ) : Prop where
  built : Storage.Built dir n before.store after.store
  same : after = before.withStore after.store

/--
Building ended at the next place on the way: a file stands there, or a directory is missing there that was not made. If the
policy denied it, that is noted.
-/
structure Stopped (dir : String) (n : Nat) (before after : Mount σ) : Prop where
  built : Storage.Built dir n before.store after.store
  reason : ∃ path, Path.NextOnWay dir n path ∧
    (after = before.withStore after.store ∧ (Storage.FileAt path before.store ∨ Storage.MissingAt path before.store) ∨
      ∃ guard denial, before = .guarded guard ∧ guard.checker.checkPath path = some denial ∧ Storage.MissingAt path before.store ∧
        after = .guarded { guard with
          store := after.store, violations := guard.violations ++ [⟨.create,path,denial⟩] })

namespace Extended

theorem withStore (h : start.Extended dir n mount) {m : Nat} {store : σ} (hbuilt : Storage.Built dir m start.store store) :
    start.Extended dir m (mount.withStore store) := by
  have hstore : (mount.withStore store).store = store := FileSystem.store_withStore mount store
  refine ⟨by rwa [hstore],?_⟩
  rw [hstore, h.same]
  cases start <;> rfl

theorem unchanged {after : Mount σ} (h : start.Extended dir n mount) (hu : mount.Unchanged after) : start.Extended dir n after := by
  rw [hu.same]
  exact h.withStore (h.built.idle hu.inOrder hu.sight)

/-- Whatever the next place shows, it showed from the start. -/
theorem sight_next (h : start.Extended dir n mount) {next : String} (hnext : Path.NextOnWay dir n next) :
    Storage.sight next mount.store = Storage.sight next start.store :=
  h.built.kept next fun hon => hnext.not_onWay rfl hon.1

theorem create (h : start.Extended dir n mount) {node : Node} (hname : Path.isName node.name = true) (hdir : node.isDir = true)
    (hnext : Path.NextOnWay dir n node.path) (hmissing : Storage.MissingAt node.path mount.store) :
    (Storage.create node).Ends mount (start.Extended dir n) fun done after =>
      if done then start.Extended dir (n + 1) after else start.Stopped dir n after := by
  have hstart : Storage.MissingAt node.path start.store := by
    rw [Storage.MissingAt, ← h.sight_next hnext]
    exact hmissing
  rcases on_create node mount with hon | ⟨guard,denial,hguard,hdenied,hon⟩
  · refine .lift mount.withStore hon ?_
    obtain ⟨horder,helse⟩ := Framed.create node mount.store h.built.inOrder
    have hmakes := Candid.makesDirectory mount.store hname hdir
    cases he : (Storage.create node).on mount.store with
    | mk result store =>
      rw [he] at horder helse
      have hidle (hplace : Storage.sight node.path store = Storage.sight node.path mount.store) :
          Storage.Built dir n start.store store := by
        refine h.built.idle horder fun path => ?_
        by_cases hpath : Path.segments path = Path.segments node.path
        · rw [Candid.sight_congr hpath, hplace, Candid.sight_congr hpath]
        · exact helse path hpath
      rw [Ends, he]
      cases result with
      | error e => exact h.withStore (hidle (hmakes.of_error he))
      | ok done =>
        have hdone := hmakes.of_ok he
        cases done with
        | true => exact h.withStore (h.built.make hnext hmissing horder (fun path hpath => helse path hpath) hdone)
        | false =>
          have hextended := h.withStore (hidle hdone)
          exact ⟨hextended.built,node.path,hnext,.inl ⟨hextended.same,.inr hstart⟩⟩
  · rw [Ends, hon]
    subst hguard
    refine ⟨h.built,node.path,hnext,.inr ?_⟩
    have hsame := h.same
    cases start with
    | plain store => cases hsame
    | guarded first =>
      have hguard := Mount.guarded.inj hsame
      have hchecker : guard.checker = first.checker := by rw [hguard]
      have hlog : guard.violations = first.violations := by rw [hguard]
      exact ⟨first,denial,rfl,by rwa [← hchecker],hstart,by rw [← hlog, hguard]; rfl⟩

end Extended

private theorem segments_onward {part : String} {rest : List String} (hdir : Path.segments dir = Path.segments current ++ part :: rest) :
    Path.segments dir = Path.segments (Path.join current part) ++ rest := by
  have hpart : Path.isName part = true := Path.named_segments dir part (by simp [hdir])
  rw [Path.segments_join current hpart, hdir, List.append_assoc, List.singleton_append]

/-- The place of a name in a directory on the way is the next on it. -/
private theorem nextOnWay_join {part : String} {rest : List String} (hdir : Path.segments dir = Path.segments current ++ part :: rest) :
    Path.NextOnWay dir (Path.depth current) (Path.join current part) := by
  have hpart : Path.isName part = true := Path.named_segments dir part (by simp [hdir])
  refine ⟨⟨rest,(segments_onward hdir).symm⟩,?_⟩
  rw [Path.depth_eq, Path.segments_join current hpart, List.length_append, List.length_singleton, ← Path.depth_eq]

theorem createDirs_extends (now : Timestamp) (hdir : Path.segments dir = Path.segments current ++ parts)
    (h : start.Extended dir (Path.depth current) mount) :
    (Storage.createDirs now current parts).Ends mount (fun after => ∃ n < Path.depth dir, start.Extended dir n after)
      fun done after => if done then start.Extended dir (Path.depth dir) after
        else ∃ n < Path.depth dir, start.Stopped dir n after := by
  -- What is built is carried along; each name makes the way one directory longer, found or made.
  induction parts generalizing current mount with
  | nil =>
    have hdepth : Path.depth dir = Path.depth current := by rw [Path.depth_eq, hdir, List.append_nil, ← Path.depth_eq]
    refine .pure ?_
    rw [hdepth]
    exact h
  | cons part rest ih =>
    have hpart : Path.isName part = true := Path.named_segments dir part (by simp [hdir])
    have hnext := nextOnWay_join hdir
    have hlt : Path.depth current < Path.depth dir := by
      rw [Path.depth_eq, Path.depth_eq, hdir, List.length_append, List.length_cons]
      omega
    have hgoesOn {after : Mount σ} (hafter : start.Extended dir (Path.depth current + 1) after) :=
      ih (segments_onward hdir) (hnext.depth_eq ▸ hafter)
    rw [Storage.createDirs]
    refine .bind ((info_ends h.built.inOrder _).mono (fun after hu => ⟨_,hlt,h.unchanged hu⟩) fun _ _ h => h)
      fun found looked ⟨hu,htold⟩ => ?_
    have hlooked := h.unchanged hu
    cases found with
    | some node =>
      dsimp only
      by_cases hd : node.isDir = true
      · rw [if_pos hd]
        exact hgoesOn ⟨hlooked.built.pass hnext ⟨node,htold,hd⟩,hlooked.same⟩
      · rw [if_neg hd]
        have hfile : Storage.FileAt (Path.join current part) start.store :=
          ⟨node,by rw [← hlooked.sight_next hnext]; exact htold,by simpa using hd⟩
        exact .pure ⟨_,hlt,hlooked.built,_,hnext,.inl ⟨hlooked.same,.inl hfile⟩⟩
    | none =>
      have hpath : (Node.directory now part current).path = Path.join current part :=
        if_neg (by rw [Bool.not_eq_true]; exact Path.name_nonempty hpart)
      have hcreate : (Storage.create (Node.directory now part current)).Ends looked _ _ :=
        hlooked.create hpart rfl (hpath ▸ hnext) (hpath ▸ htold)
      refine .bind (hcreate.mono (fun after hafter => ⟨_,hlt,hafter⟩) fun _ _ h => h) fun done after hafter => ?_
      cases done with
      | true => exact hgoesOn hafter
      | false => exact .pure ⟨_,hlt,hafter⟩

theorem Unchanged.trans {looked after : Mount σ} (h : mount.Unchanged looked) (hl : looked.Unchanged after) : mount.Unchanged after := by
  refine ⟨hl.inOrder,fun path => (hl.sight path).trans (h.sight path),?_⟩
  rw [hl.same, h.same]
  cases mount <;> rfl

/-- Where all directories on the way are there already, they are only looked up. -/
theorem createDirs_looks (now : Timestamp) (hdir : Path.segments dir = Path.segments current ++ parts)
    (horder : Sighted.InOrder mount.store) (h : ∀ path, Path.OnWay dir (Path.depth dir) path → Storage.DirectoryAt path mount.store) :
    (Storage.createDirs now current parts).on mount = ((fun _ => true) <$> Storage.lookAlong current parts).on mount ∧
      mount.Unchanged ((Storage.lookAlong current parts).on mount).2 := by
  induction parts generalizing current mount with
  | nil => exact ⟨rfl,horder,fun _ => rfl,by cases mount <;> rfl⟩
  | cons part rest ih =>
    have hnext := nextOnWay_join hdir
    have hends := info_ends horder (Path.join current part)
    rw [Storage.createDirs, Storage.lookAlong, map_bind]
    cases he : (Storage.info (Path.join current part)).on mount with
    | mk result looked =>
      cases result with
      | error e =>
        rw [on_bind_error he, on_bind_error he, on_bind_error he]
        exact ⟨rfl,hends.of_error he⟩
      | ok found =>
        obtain ⟨hu,htold⟩ := hends.of_ok he
        have hthere {path : String} (hpath : Path.OnWay dir (Path.depth dir) path) : Storage.DirectoryAt path looked.store := by
          rw [Storage.DirectoryAt, hu.sight]
          exact h path hpath
        obtain ⟨node,hnode,hd⟩ : Storage.DirectoryAt (Path.join current part) looked.store :=
          hthere (hnext.above.onWay (hnext.onWay rfl).below_root)
        obtain rfl : found = some node := Except.ok.inj (htold.symm.trans hnode)
        obtain ⟨hsame,hafter⟩ := ih (segments_onward hdir) hu.inOrder fun _ => hthere
        rw [on_bind_ok he, on_bind_ok he, on_bind_ok he]
        dsimp only
        rw [if_pos hd]
        exact ⟨hsame,hu.trans hafter⟩

section
open Legible

omit [Candid σ] in
/-- Without a policy everything that is missing is made, unless a file stands on the way. -/
theorem createDirs_answers [FallibleNodes σ] (now : Timestamp) (hs : Intact mount) (hfree : (setting mount).free = true)
    (hparts : Path.Named parts) (hcurrent : shown mount (Path.segments current) = some .dir) :
    (Storage.createDirs now current parts).Tries Set.univ mount fun done _ =>
      (done = true ↔ ∀ names, names <+: parts → ¬ (shown mount).IsFile (Path.segments current ++ names)) := by
  have hground : ¬ (shown mount).IsFile (Path.segments current ++ []) := by simp [View.IsFile, hcurrent]
  induction parts generalizing mount current with
  | nil => exact .pure hs (by simpa using hground)
  | cons part rest ih =>
    have hpart : Path.isName part = true := hparts part (by simp)
    have hnext := Path.segments_join current hpart
    have hsplit : (∀ names, names <+: part :: rest → ¬ (shown mount).IsFile (Path.segments current ++ names)) ↔
        ∀ names, names <+: rest → ¬ (shown mount).IsFile (Path.segments (Path.join current part) ++ names) := by
      rw [hnext]
      constructor
      · intro h names hn
        simpa using h (part :: names) (List.cons_prefix_cons.mpr ⟨rfl,hn⟩)
      · intro h names hn
        cases names with
        | nil => exact hground
        | cons name names =>
          obtain ⟨rfl,hbelow⟩ := List.cons_prefix_cons.mp hn
          simpa using h names hbelow
    rw [hsplit]
    have hrest : Path.Named rest := fun name hn => hparts name (by simp [hn])
    refine .look (info_tries hs _) hs fun found looked halt hview hfound => ?_
    have hdir := View.any_isDir_iff hfound
    have hgoesOn {t : Mount σ} (ht : Altered Set.univ looked t) (hd : shown t (Path.segments (Path.join current part)) = some .dir) :=
      ih ht.intact (by rw [ht.setting_eq, halt.setting_eq, hfree]) hrest hd (by simp [View.IsFile, hd])
    cases found with
    | some node =>
      dsimp only
      by_cases hd : node.isDir = true
      · rw [if_pos hd, ← hview]
        exact hgoesOn (.refl halt.intact) (by rw [hview]; exact hdir.mp hd)
      · rw [if_neg hd]
        refine .pure halt.intact ⟨fun h => absurd h Bool.false_ne_true,fun hno => absurd ?_ (hno [] List.nil_prefix)⟩
        obtain ⟨item,hitem,_⟩ := Option.map_eq_some_iff.mp hfound.symm
        rw [List.append_nil]
        cases item with
        | dir => exact absurd (hdir.mpr hitem) hd
        | file content => exact ⟨content,hitem⟩
    | none =>
      have hnone : shown mount (Path.segments (Path.join current part)) = none := by simpa [View.node?] using hfound
      have hbare (names : List String) : ¬ (shown mount).IsFile (Path.segments (Path.join current part) ++ names) := by
        simp [View.IsFile, (wellFormed hs).none_under hnone names]
      have htarget : (Node.directory now part current).target = Path.segments (Path.join current part) := hnext.symm
      have hcan : (shown looked).CanCreate (Node.directory now part current) :=
        hview ▸ ⟨hpart,hcurrent,by rwa [htarget]⟩
      have hcreate := create_tries halt.intact (Node.sized_new now part true current)
      refine .bind (hcreate.widen (Set.subset_univ _)) fun made t ht hmade => ?_
      obtain rfl := hmade.done_of_can (halt.setting_eq ▸ hfree) hcan
      have hafter : shown t = (shown mount).set (Path.segments (Path.join current part)) (some .dir) := by
        rw [hmade.after_eq, hview, hnext]
        rfl
      refine (hgoesOn ht (by rw [hafter, View.set_self])).mono fun done _ hdone => ?_
      rw [hdone]
      refine forall₂_congr fun names _ => iff_of_true ?_ (hbare names)
      by_cases hn : names = []
      · simp [hn, View.IsFile, hafter]
      · rw [View.IsFile, hafter, View.set_ne _ _ (by simpa using hn)]
        exact hbare names

end

/-! ### What it comes to -/

/-- The directory is there with all its ancestors, and to create it again only looks for it. -/
structure Completed (dir : String) (before after : Mount σ) : Prop where
  extended : before.Extended dir (Path.depth dir) after
  /-- The root is not made. -/
  directory : Storage.DirectoryAt "/" before.store → ∀ path, Path.AtOrBelow path dir → Storage.DirectoryAt path after.store
  unchanged : ∀ later, after.Unchanged ((Storage.createDirAll later dir).on after).2
  again : ∀ later, ((Storage.lookAlong "/" (Path.segments dir)).on after).1 = .ok () →
    ((Storage.createDirAll later dir).on after).1 = .ok true

private theorem Extended.completed {after : Mount σ} (h : mount.Extended dir (Path.depth dir) after) : mount.Completed dir after := by
  have hsegments : Path.segments dir = Path.segments "/" ++ Path.segments dir := by rw [Path.segments_root, List.nil_append]
  have hlooks (later : Timestamp) := createDirs_looks later hsegments h.built.inOrder h.built.directory
  refine ⟨h,fun hroot path hpath => ?_,fun later => ?_,fun later hfound => ?_⟩
  · by_cases hnil : Path.segments path = []
    · have hkept := h.built.kept path fun hon => hon.1.below_root hnil
      rw [Storage.DirectoryAt, hkept, Candid.sight_congr (hnil.trans Path.segments_root.symm)]
      exact hroot
    · exact h.built.directory path (hpath.onWay hnil)
  · obtain ⟨hsame,hunchanged⟩ := hlooks later
    rw [Storage.createDirAll, hsame, on_map]
    exact hunchanged
  · rw [Storage.createDirAll, (hlooks later).1, on_map, hfound]
    rfl

theorem createDirAll_ends (now : Timestamp) (dir : String) (h : Sighted.InOrder mount.store) :
    (Storage.createDirAll now dir).Ends mount (fun after => ∃ n < Path.depth dir, mount.Extended dir n after)
      fun done after => if done then mount.Completed dir after else ∃ n < Path.depth dir, mount.Stopped dir n after := by
  have hsegments : Path.segments dir = Path.segments "/" ++ Path.segments dir := by rw [Path.segments_root, List.nil_append]
  have hroot : Path.depth "/" = 0 := by rw [Path.depth_eq, Path.segments_root, List.length_nil]
  have hstart : mount.Extended dir (Path.depth "/") mount := by
    rw [hroot]
    exact ⟨.start h dir,by cases mount <;> rfl⟩
  refine (createDirs_extends now hsegments hstart).mono (fun _ h => h) fun done after hafter => ?_
  cases done with
  | true => exact Extended.completed hafter
  | false => exact hafter

end Mount

theorem FileSystem.on_mkdirAll {σ : Type} [Storage σ] (fs : FileSystem σ) (path : String) :
    (mkdirAll path).on fs =
      let run := (Storage.createDirAll fs.clock (fs.resolve path)).on fs.mount
      (run.1, { fs with mount := run.2 }) := rfl

namespace Provider
variable {store : Provider}

/-- A file is found where the tree has one. -/
private theorem fileAt_iff (hs : Legible.Intact store) (path : String) :
    Storage.FileAt path store ↔ (Legible.shown store).IsFile (Path.segments path) := by
  constructor
  · rintro ⟨node,hnode,hfile⟩
    have hnode : (Legible.sights path store).1 = .ok (some node) := hnode
    obtain ⟨item,hitem,hkind⟩ := Legible.shown_of_node hs hnode
    cases item with
    | dir => exact absurd (hkind.symm.trans hfile) (by simp [Item.isDir])
    | file content => exact ⟨content,hitem⟩
  · rintro ⟨content,hcontent⟩
    exact Legible.node_of_shown hs hcontent

private theorem createDirAll_answers (hs : Viewed.Sound store) (now : Timestamp) (dir : String) :
    ∃ done, ((Storage.createDirAll now dir).on (Mount.plain store)).1 = .ok done ∧
      (done = true ↔ ∀ path, Path.AtOrBelow path dir → ¬ Storage.FileAt path store) := by
  have hroot : Legible.shown (Mount.plain store) (Path.segments "/") = some .dir := by
    rw [Path.segments_root]
    exact (LawfulNodes.wellFormed hs).root
  have htries : (Storage.createDirs now "/" (Path.segments dir)).Tries Set.univ (Mount.plain store) _ :=
    Mount.createDirs_answers now hs rfl (Path.named_segments dir) hroot
  obtain ⟨done,after,he,_,hdone⟩ := htries.yields id
  refine ⟨done,by rw [Storage.createDirAll, he],?_⟩
  simp only [hdone, Path.segments_root, List.nil_append]
  constructor
  · intro h path hpath hfile
    exact h _ hpath ((fileAt_iff hs path).mp hfile)
  · intro h names hn hfile
    have hnamed : Path.Named names := fun name hname => Path.named_segments dir name (hn.subset hname)
    have hsegments := Path.segments_ofSegments hnamed
    refine h (Path.ofSegments names) (by rwa [Path.AtOrBelow, hsegments]) ((fileAt_iff hs _).mpr ?_)
    rw [hsegments]
    exact hfile

end Provider

/--
Creating a directory with its ancestors makes just what is missing. Over any store, under a policy or not and whichever calls
and requests fail: if it succeeds, every directory on the way is there, those that were missing are new, all else is found as
before, and to do it again changes nothing and succeeds as long as the lookups do. If it is refused or fails, the first of the
missing directories, up to some place on the way, are new, and all else is found as before; the log tells of a place that the
policy denied. Creating a directory from the working directory is such a run. Over a store that works and under no policy
it answers, and is refused only where a file stands on the way.
-/
theorem missing_directories_made :
    (∀ (mount : Mount (Faulty Provider)) (now : Timestamp) (dir : String), Sighted.InOrder mount.store →
      (Storage.createDirAll now dir).Ends mount (fun after => ∃ n < Path.depth dir, mount.Extended dir n after)
        fun done after => if done then mount.Completed dir after else ∃ n < Path.depth dir, mount.Stopped dir n after) ∧
    (∀ (fs : FileSystem (Faulty Provider)) (path : String),
      let run := (Storage.createDirAll fs.clock (fs.resolve path)).on fs.mount
      (FileSystem.mkdirAll path).on fs = (run.1, { fs with mount := run.2 })) ∧
    ∀ (store : Provider) (now : Timestamp) (dir : String), Viewed.Sound store →
      ∃ done, ((Storage.createDirAll now dir).on (Mount.plain store)).1 = .ok done ∧
        (done = true ↔ ∀ path, Path.AtOrBelow path dir → ¬ Storage.FileAt path store) :=
  ⟨fun _ now dir h => Mount.createDirAll_ends now dir h,FileSystem.on_mkdirAll,
    fun _ now dir h => Provider.createDirAll_answers h now dir⟩

private def ground : Provider := .tree ⟨some (.dir (Node.root 0) .nil)⟩

private def walled : Mount (Faulty Provider) :=
  .guarded ⟨⟨ground,"",0,fun n _ => n = 3⟩,⟨{ Policy.unrestricted with deniedPaths := ["/d/e"] },[]⟩,[]⟩

private def broken : Except StorageError Bool × Mount (Faulty Provider) := (Storage.createDirAll 1 "/a/../b//c/d").on walled

private def denied : Except StorageError Bool × Mount (Faulty Provider) := (Storage.createDirAll 1 "/d/e").on walled

private def made : Except StorageError Bool × Mount (Faulty Provider) := (Storage.createDirAll 1 "a/.").on walled

/-- A failure, a denial and a success, each after a first directory is made. -/
theorem missing_directories_made_partly :
    Sighted.InOrder walled.store ∧ Viewed.Sound ground ∧
      broken.1 = .error (.backend "create_node failed") ∧
      (∃ n < Path.depth "/a/../b//c/d", walled.Extended "/a/../b//c/d" n broken.2) ∧
      denied.1 = .ok false ∧ (∃ n < Path.depth "/d/e", walled.Stopped "/d/e" n denied.2) ∧
      made.1 = .ok true ∧ walled.Completed "a/." made.2 ∧
      ∃ done, ((Storage.createDirAll 1 "/a").on (Mount.plain ground)).1 = .ok done ∧
        (done = true ↔ ∀ path, Path.AtOrBelow path "/a" → ¬ Storage.FileAt path ground) := by
  have horder : Sighted.InOrder walled.store := by
    intro root hroot
    cases hroot
    trivial
  have hsound : Viewed.Sound ground := Provider.Ready.tree.sound_setUp 0
  -- With the directory left open, the runs are not computed to see what the theorem says of them.
  have hends := fun dir => missing_directories_made.1 walled 1 dir horder
  have hbroken : broken.1 = .error (.backend "create_node failed") := by decide +kernel
  have hdenied : denied.1 = .ok false := by decide +kernel
  have hmade : made.1 = .ok true := by decide +kernel
  have hpart := (hends _).of_fst_error hbroken
  have hstop := (hends _).of_fst_ok hdenied
  have hdone := (hends _).of_fst_ok hmade
  rw [if_neg Bool.false_ne_true] at hstop
  rw [if_pos rfl] at hdone
  exact ⟨horder,hsound,hbroken,hpart,hdenied,hstop,hmade,hdone,missing_directories_made.2.2 ground 1 "/a" hsound⟩

end VirtualShell
