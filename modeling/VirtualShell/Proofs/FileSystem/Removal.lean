import VirtualShell.Proofs.FileSystem.Edits
import VirtualShell.Proofs.FileSystem.WorkingDirectory

/-!
Removing a whole tree. Whatever fails or is denied on the way, only what is in the tree goes, and what is left of it
still hangs together; without a policy and without failures the tree goes as a whole.
-/
namespace VirtualShell.FileSystem
open Storing Legible

section
variable {σ : Type} [Storage σ] [FallibleNodes σ] {fs : FileSystem σ} {names : List String}

/-- There is a tree to be removed, of less than a given depth, and the working directory is not in it. -/
structure Removable (fs : FileSystem σ) (depth : Nat) (names : List String) : Prop where
  ne_nil : names ≠ []
  stands : (shown fs names).isSome
  spared : ¬ names <+: Path.segments fs.cwd
  shallow : ∀ more, (shown fs (names ++ more)).isSome → more.length < depth

/-- The action removes a tree if it succeeds, and nothing outside of it; where the tree can be removed it succeeds. -/
def Clears (act : Filing σ Bool) (fs : FileSystem σ) (depth : Nat) (names : List String) : Prop :=
  act.Tries (treeAt names) fs fun done after =>
    (done = true → after names = none) ∧ ((setting fs).free = true → Removable fs depth names → done = true)

/-- What stays as it was can still be removed. -/
private theorem Removable.of_altered {places : Set (List String)} {later : FileSystem σ} {depth : Nat} (h : Removable fs depth names)
    (hs : Intact fs) (halt : Altered places fs later) (hdisjoint : ∀ more, names ++ more ∉ places) :
    Removable later depth names := by
  have hsame (more : List String) : shown later (names ++ more) = shown fs (names ++ more) := halt.shown_eq hs (hdisjoint more)
  have hcwd : later.cwd = fs.cwd := congrArg Setting.cwd halt.setting_eq
  refine ⟨h.ne_nil,?_,by rw [hcwd]; exact h.spared,fun more hm => h.shallow more (by rwa [← hsame])⟩
  have hroot := hsame []
  rw [List.append_nil] at hroot
  rw [hroot]
  exact h.stands

private theorem Removable.child {depth : Nat} {name : String} (h : Removable fs (depth + 1) names)
    (hchild : (shown fs (names ++ [name])).isSome) : Removable fs depth (names ++ [name]) where
  ne_nil := by simp
  stands := hchild
  spared hp := h.spared ((List.prefix_append names [name]).trans hp)
  shallow more hm := by
    have hlength := h.shallow (name :: more) (by simpa using hm)
    simpa using hlength

/-- The end of removing: a file or an empty directory goes. -/
private theorem delete_tree_tries (hs : Intact fs) (hn : Path.Named names) :
    (call (Storage.delete (Path.ofSegments names))).Tries (treeAt names) fs fun done after =>
      (done = true → after names = none) ∧ ((setting fs).free = true → (shown fs).CanDelete names → done = true) := by
  have hdelete := delete_tries hs (Path.ofSegments names)
  rw [Path.segments_ofSegments hn] at hdelete
  refine .widen (.mono hdelete fun done after h => ⟨fun hd => ?_,h.done_of_can⟩) ?_
  · rw [h.after_eq, if_pos hd, View.set_self]
  · rintro _ rfl
    exact List.prefix_rfl

/-- The trees under the names of a directory. -/
private def treesIn (dir names : List String) : Set (List String) := {place | ∃ name ∈ names, place ∈ treeAt (dir ++ [name])}

/-- What removes a tree, removes the trees under all names of a directory. -/
private theorem each_removes {dir children : List String} {act : String → Filing σ Bool} {depth : Nat}
    (hact : ∀ name ∈ children, ∀ t, Intact t → setting t = setting fs → Clears (act name) t depth (dir ++ [name])) :
    Each children act (fun name => treeAt (dir ++ [name])) (fun t => Intact t ∧ setting t = setting fs)
      (fun name t => (setting fs).free = true ∧ Removable t depth (dir ++ [name])) fun name after => after (dir ++ [name]) = none where
  intact h := h.1
  tries name hn t h := (hact name hn t h.1 h.2).mono fun done after hd => ⟨hd.1,fun hc => hd.2 (by rw [h.2]; exact hc.1) hc.2⟩
  keeps name _ t u h halt := ⟨halt.intact,halt.setting_eq.trans h.2⟩
  disjoint name _ other _ h := disjoint_treeAt h
  gets_apart name _ places t u hdisjoint ht halt hgets := by
    rw [halt.shown_eq ht (Set.disjoint_left.mp hdisjoint List.prefix_rfl)]
    exact hgets
  can_apart name _ places t u hdisjoint ht _ halt hcan :=
    ⟨hcan.1,hcan.2.of_altered ht.1 halt fun more => Set.disjoint_left.mp hdisjoint (List.prefix_append _ more)⟩

omit [Storage σ] [FallibleNodes σ] in
/-- A directory of which all children went is empty. -/
private theorem canDelete_of_gone [Legible σ] {later : FileSystem σ} {children : List String} (hs : Intact fs) (hne : names ≠ [])
    (hstands : shown fs names = some .dir) (hlists : (shown fs).Lists names children)
    (halt : Altered (treesIn names children) fs later) (hgone : ∀ name ∈ children, shown later (names ++ [name]) = none) :
    (shown later).CanDelete names := by
  refine ⟨hne,?_,fun name => ?_⟩
  · have hstays : names ∉ treesIn names children := fun ⟨name,_,hp⟩ => by simpa using List.IsPrefix.length_le hp
    rw [halt.shown_eq hs hstays, hstands]
    rfl
  · by_cases hc : name ∈ children
    · exact hgone name hc
    · have hstays : names ++ [name] ∉ treesIn names children := fun ⟨other,ho,hp⟩ => by
        have hsame : other = name := by simpa [treeAt, List.prefix_append_right_inj] using hp
        exact hc (hsame ▸ ho)
      rw [halt.shown_eq hs hstays, ← Option.not_isSome_iff_eq_none, ← hlists.2]
      exact hc

omit [Storage σ] [FallibleNodes σ] in
/-- What removing refuses without a look: the root, and what holds the working directory. -/
private theorem stops_iff (hcwd : Path.normalize fs.cwd = fs.cwd) (hn : Path.Named names) :
    (Path.ofSegments names == "/" || fs.holdsCwd (Path.ofSegments names)) = true ↔
      names = [] ∨ names <+: Path.segments fs.cwd := by
  rw [Bool.or_eq_true, beq_iff_eq, ← Path.ofSegments_nil, Path.ofSegments_inj hn Path.named_nil, holdsCwd,
    Path.isWithin_iff hcwd, Path.AtOrBelow, Path.segments_ofSegments hn]

private theorem file_clears (hs : Intact fs) (hn : Path.Named names) (hfile : (shown fs).IsFile names) (depth : Nat) :
    Clears (call (Storage.delete (Path.ofSegments names))) fs depth names :=
  (delete_tree_tries hs hn).mono fun _ _ h => ⟨h.1,fun hf _ => h.2 hf (hfile.canDelete (wellFormed hs))⟩

/-- A directory goes after what is in it. -/
private theorem directory_clears (hs : Intact fs) (hn : Path.Named names) (hdir : shown fs names = some .dir) {depth : Nat}
    {act : String → Filing σ Bool} (hact : ∀ name, (shown fs (names ++ [name])).isSome → ∀ t, Intact t → setting t = setting fs →
      Clears (act name) t depth (names ++ [name])) :
    Clears (do
      let children ← call (Storage.list (Path.ofSegments names))
      if !(← whileTrue act children) then return false
      call (Storage.delete (Path.ofSegments names))) fs (depth + 1) names := by
  refine .look (list_tries hs _) hs fun children t halt hview hlists => ?_
  rw [Path.segments_ofSegments hn] at hlists
  have hset := halt.setting_eq
  have heach := each_removes fun name hc => hact name ((hlists.2 name).mp hc)
  refine .seq (heach.whileTrue hlists.nodup ⟨halt.intact,hset⟩) (fun all u hu ⟨hgone,hall⟩ => ?_) ?_ subset_rfl
  · split
    · rename_i hno
      refine .pure hu.intact ⟨nofun,fun hf hr => ?_⟩
      have hchildren : ∀ name ∈ children, (setting fs).free = true ∧ Removable t depth (names ++ [name]) := fun name hc =>
        ⟨hf,(hr.child ((hlists.2 name).mp hc)).of_altered hs halt fun _ => Set.notMem_empty _⟩
      rw [hall hchildren] at hno
      simp at hno
    · rename_i hd
      have hdelete := delete_tree_tries hu.intact hn
      rw [hu.setting_eq, hset] at hdelete
      refine hdelete.mono fun done after h => ⟨h.1,fun hf hr => h.2 hf ?_⟩
      exact canDelete_of_gone halt.intact hr.ne_nil (hview ▸ hdir) (hview ▸ hlists) hu (hgone (by simpa using hd))
  · rintro other ⟨name,_,hp⟩
    exact (List.prefix_append names [name]).trans hp

/-- What only a look came before clears the tree that stood there then. -/
private theorem Clears.of_look {act : Filing σ Bool} {t : FileSystem σ} {depth : Nat} (h : Clears act t depth names)
    (hs : Intact fs) (halt : Altered ∅ fs t) : act.Tries (treeAt names) t fun done after =>
      (done = true → after names = none) ∧ ((setting fs).free = true → Removable fs depth names → done = true) :=
  h.mono fun _ _ h => ⟨h.1,fun hf hr => h.2 (by rw [halt.setting_eq]; exact hf) (hr.of_altered hs halt fun _ => Set.notMem_empty _)⟩

private theorem removeTree_clears (fuel : Nat) (hs : Intact fs) (hcwd : Path.normalize fs.cwd = fs.cwd) (hn : Path.Named names)
    {path : String} (hpath : fs.resolve path = Path.ofSegments names) : Clears (removeTree fuel path) fs fuel names := by
  -- The fuel is more than the tree is deep, so it is enough if there is a tree at all.
  induction fuel generalizing fs names path with
  | zero =>
    refine .pure hs ⟨nofun,fun _ hr => ?_⟩
    have hdeep := hr.shallow [] (by simpa using hr.stands)
    simp at hdeep
  | succ fuel ih =>
    refine .get_bind ?_
    rw [hpath]
    dsimp only
    split
    · rename_i hstop
      refine .pure hs ⟨nofun,fun _ hr => ?_⟩
      rw [stops_iff hcwd hn] at hstop
      exact (hstop.elim hr.ne_nil hr.spared).elim
    refine .look (info_tries hs _) hs fun found t halt hview hfound => ?_
    rw [Path.segments_ofSegments hn, ← hview] at hfound
    cases found with
    | none =>
      refine .pure halt.intact ⟨nofun,fun _ hr => ?_⟩
      have hstands := hr.stands
      rw [← hview, Option.map_eq_none_iff.mp hfound.symm] at hstands
      simp at hstands
    | some node =>
      have hisDir := View.any_isDir_iff hfound
      dsimp only
      split
      · rename_i hdir
        refine Clears.of_look (directory_clears halt.intact hn (hisDir.mp hdir) fun name hc u hu hsame => ?_) hs halt
        have hnamed := (wellFormed halt.intact).named _ hc
        have hcwd' : u.cwd = fs.cwd := (congrArg Setting.cwd hsame).trans (congrArg Setting.cwd halt.setting_eq)
        rw [Path.join_ofSegments hn (Path.named_concat.mp hnamed).2]
        exact ih hu (by rw [hcwd', hcwd]) hnamed (Path.resolve_ofSegments _ hnamed)
      · rename_i hno
        obtain ⟨item,hitem,_⟩ := Option.map_eq_some_iff.mp hfound.symm
        refine Clears.of_look (file_clears halt.intact hn ?_ _) hs halt
        cases item with
        | dir => exact absurd (hisDir.mpr hitem) hno
        | file content => exact ⟨content,hitem⟩

/-- Where there is nothing that may be removed, nothing happens. -/
private theorem removeTree_refused (fuel : Nat) (hs : Intact fs) (hcwd : Path.normalize fs.cwd = fs.cwd) (hn : Path.Named names)
    {path : String} (hpath : fs.resolve path = Path.ofSegments names)
    (hno : names ≠ [] → ¬ names <+: Path.segments fs.cwd → shown fs names = none) :
    (removeTree (fuel + 1) path).Tries ∅ fs fun done _ => done = false := by
  refine .get_bind ?_
  rw [hpath]
  dsimp only
  split
  · exact .pure hs rfl
  rename_i hgo
  rw [stops_iff hcwd hn, not_or] at hgo
  refine .look (info_tries hs _) hs fun found t halt hview hfound => ?_
  rw [Path.segments_ofSegments hn, View.node?, hno hgo.1 hgo.2] at hfound
  rw [Option.map_eq_none_iff.mp hfound]
  exact .pure halt.intact rfl

private theorem rmRecursive_refused (hs : Intact fs) (hcwd : Path.normalize fs.cwd = fs.cwd) (path : String)
    (hno : Path.segments (fs.resolve path) ≠ [] → ¬ Path.segments (fs.resolve path) <+: Path.segments fs.cwd →
      shown fs (Path.segments (fs.resolve path)) = none) : (rmRecursive path).Tries ∅ fs fun done _ => done = false :=
  .get_bind (removeTree_refused _ hs hcwd (Path.named_segments _) (fs.resolve_eq path) hno)

theorem rmRecursive_clears (hs : Intact fs) (hcwd : Path.normalize fs.cwd = fs.cwd) (path : String) :
    Clears (rmRecursive path) fs fs.capacity (Path.segments (fs.resolve path)) :=
  .get_bind (removeTree_clears _ hs hcwd (Path.named_segments _) (fs.resolve_eq path))

end

/--
Without a policy and over a store that works, a tree is removed as a whole, if it is there, is not the root and does not
hold the working directory; otherwise nothing happens. Under any policy, and whatever calls fail, nothing is changed
outside of the tree, and every node that is left stands in a directory.
-/
theorem rmRecursive_exact (path : String) :
    (∀ fs : FileSystem Provider, Reached Provider.Ready fs → fs.mount.guard? = none →
      ∃ done after, (rmRecursive path).on fs = (.ok done, after) ∧
        (done = true ↔ (∃ node, (fs.sight (fs.resolve path)).1 = .ok (some node)) ∧ fs.resolve path ≠ "/" ∧
          ¬ Path.AtOrBelow (fs.resolve path) fs.cwd) ∧
        (∀ other, done = true → Path.AtOrBelow (fs.resolve path) other → after.sight other = (.ok none, .ok none)) ∧
        ∀ other, (done = true → ¬ Path.AtOrBelow (fs.resolve path) other) → after.sight other = fs.sight other) ∧
    ∀ fs : FileSystem (Faulty Provider), Reached Faulty.Ready fs →
      (∀ other, ¬ Path.AtOrBelow (fs.resolve path) other →
        ((rmRecursive path).on fs).2.sight other = fs.sight other) ∧
      ((rmRecursive path).on fs).2.Rooted := by
  constructor
  · intro fs hfs hfree
    have hs := hfs.intact
    have hroot : fs.resolve path ≠ "/" ↔ Path.segments (fs.resolve path) ≠ [] := not_congr (resolve_eq_root_iff fs path)
    have hexists : (∃ node, (fs.sight (fs.resolve path)).1 = .ok (some node)) ↔ _ := exists_node_iff hs
    rw [hexists, hroot]
    by_cases hcan : (shown fs (Path.segments (fs.resolve path))).isSome ∧ Path.segments (fs.resolve path) ≠ [] ∧
        ¬ Path.AtOrBelow (fs.resolve path) fs.cwd
    · obtain ⟨done,after,he,halt,hgone,hdone⟩ := (rmRecursive_clears hs hfs.normalize_cwd path).yields id
      have hfree : (setting fs).free = true := by simp [setting, hfree]
      obtain rfl := hdone hfree ⟨hcan.2.1,hcan.1,hcan.2.2,fun _ => length_lt_capacity hs⟩
      refine ⟨true,after,he,by simp [hcan],fun other _ hbelow => ?_,fun other hother => halt.elsewhere other (hother rfl)⟩
      obtain ⟨more,hmore⟩ := hbelow
      refine sights_of_none halt.intact ?_
      rw [← hmore]
      exact (wellFormed halt.intact).none_under (hgone rfl) more
    · have hno : Path.segments (fs.resolve path) ≠ [] → ¬ Path.segments (fs.resolve path) <+: Path.segments fs.cwd →
          shown fs (Path.segments (fs.resolve path)) = none := by
        intro hne hspared
        rw [← Option.not_isSome_iff_eq_none]
        exact fun hstands => hcan ⟨hstands,hne,hspared⟩
      obtain ⟨done,after,he,halt,rfl⟩ := (rmRecursive_refused hs hfs.normalize_cwd path hno).yields id
      exact ⟨false,after,he,by simp [hcan],nofun,fun other _ => halt.elsewhere other (Set.notMem_empty _)⟩
  · intro fs hfs
    have halt := (rmRecursive_clears hfs.intact_faulty hfs.normalize_cwd path).altered
    exact ⟨halt.elsewhere,fun other node hnode hroot => exists_parent halt.intact hnode hroot⟩

/-- A directory goes with its file; if it cannot be removed in the end, what is left still hangs together. -/
theorem rmRecursive_takes_file :
    let events : List (Timestamp × Action) := [(1,.mkdir "/s"),(2,.write "/s/f" "x")]
    let fs := (opening (Provider.tree Tree.empty)).after events
    let failing := (opening (⟨.tree Tree.empty,"",0,fun _ call => call == .delete "/s"⟩ : Faulty Provider)).after events
    (Reached Provider.Ready fs ∧ ∃ after, (rmRecursive "/s").on fs = (.ok true, after) ∧
      after.sight "/s/f" = (.ok none, .ok none) ∧ after.sight "/tmp" = fs.sight "/tmp") ∧
    Reached Faulty.Ready failing ∧ ((rmRecursive "/s").on failing).1 = .error (.backend "delete_node failed") ∧
      ((rmRecursive "/s").on failing).2.sight "/tmp" = failing.sight "/tmp" ∧ ((rmRecursive "/s").on failing).2.Rooted := by
  intro events fs failing
  have hfs : Reached Provider.Ready fs := Reached.after (.opening .tree (by decide +kernel))
  have hfailing : Reached Faulty.Ready failing := Reached.after (.opening Provider.Ready.tree (by decide +kernel))
  have hfree : fs.mount.guard?.isNone = true := by decide +kernel
  have hdir : (fs.sight "/s").1 = .ok (some ⟨"s",true,"/",1,1,none⟩) := by decide +kernel
  have hsrc : fs.resolve "/s" = "/s" := by decide +kernel
  obtain ⟨hworks,hfails⟩ := rmRecursive_exact "/s"
  refine ⟨⟨hfs,?_⟩,hfailing,by decide +kernel,(hfails failing hfailing).1 _ (by decide +kernel),(hfails failing hfailing).2⟩
  obtain ⟨done,after,he,hdone,hgone,hsame⟩ := hworks fs hfs (Option.isNone_iff_eq_none.mp hfree)
  rw [hsrc] at hdone hgone hsame
  obtain rfl := hdone.mpr ⟨⟨_,hdir⟩,by decide,by decide +kernel⟩
  exact ⟨after,he,hgone "/s/f" rfl (by decide +kernel),hsame "/tmp" fun _ => by decide +kernel⟩

end VirtualShell.FileSystem
