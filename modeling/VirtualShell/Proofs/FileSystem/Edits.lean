import VirtualShell.Proofs.FileSystem.Calls

/-!
Making a directory and writing a file over a store that may fail. Each is done at its own path or not at all, and
without a policy it is done wherever it can be, unless a call fails.
-/
namespace VirtualShell
open Storing Legible

/-- All that is at a chain of names and below it. -/
def treeAt (names : List String) : Set (List String) := {other | names <+: other}

/-- Trees under different names of a directory are apart. -/
theorem disjoint_treeAt {dir : List String} {name other : String} (h : name ≠ other) :
    Disjoint (treeAt (dir ++ [name])) (treeAt (dir ++ [other])) := by
  refine Set.disjoint_left.mpr fun place ⟨more,hm⟩ ⟨more',hm'⟩ => h ?_
  simpa using congrArg (fun names => names[dir.length]?) (hm.trans hm'.symm)

/-! ### New nodes -/

namespace View
variable {view : View} {dir : List String} {name : String}

/-- A place in a directory where nothing stands yet. -/
def Vacant (view : View) (names : List String) : Prop :=
  names ≠ [] ∧ view names = none ∧ view names.dropLast = some .dir

/-- A place where a file can be written, new or not. -/
def CanWrite (view : View) (names : List String) : Prop := view.IsFile names ∨ view.Vacant names

theorem canCreate_new_iff (h : Path.Named (dir ++ [name])) (now : Timestamp) (isDir : Bool) :
    view.CanCreate (.new now name isDir (Path.ofSegments dir)) ↔ view.Vacant (dir ++ [name]) := by
  obtain ⟨hdir,hname⟩ := Path.named_concat.mp h
  simp [CanCreate, Vacant, Node.new, Node.target, Path.segments_ofSegments hdir, hname, and_comm]

theorem IsFile.ne_nil (hw : view.WellFormed) {names : List String} (h : view.IsFile names) : names ≠ [] := by
  rintro rfl
  obtain ⟨content,hc⟩ := h
  simp [hw.root] at hc

theorem IsFile.canDelete (hw : view.WellFormed) {names : List String} (h : view.IsFile names) : view.CanDelete names := by
  obtain ⟨content,hc⟩ := h
  refine ⟨IsFile.ne_nil hw ⟨content,hc⟩,by rw [hc]; rfl,fun name => hw.none_below (by rw [hc]; simp) name⟩

theorem not_canWrite_of_dir {names : List String} (h : view names = some .dir) : ¬ view.CanWrite names := by
  rintro (⟨old,ho⟩ | ⟨_,hnone,_⟩)
  · simp [h] at ho
  · simp [h] at hnone

end View

namespace Node
variable {dir : List String} {name : String}

theorem target_new (h : Path.Named (dir ++ [name])) (now : Timestamp) (isDir : Bool) :
    (new now name isDir (Path.ofSegments dir)).target = dir ++ [name] := by
  rw [target, new, Path.segments_ofSegments (Path.named_concat.mp h).1]

theorem segments_path_new (h : Path.Named (dir ++ [name])) (now : Timestamp) (isDir : Bool) :
    Path.segments (new now name isDir (Path.ofSegments dir)).path = dir ++ [name] := by
  rw [segments_path _ (Path.named_concat.mp h).2, target_new h]

theorem forPath_eq {path : String} (h : Path.segments path = dir ++ [name]) (now : Timestamp) (isDir : Bool) :
    forPath now path isDir = new now name isDir (Path.ofSegments dir) := by
  have hname := (Path.named_concat.mp (h ▸ Path.named_segments path)).2
  simp [forPath, Path.split_eq, h, Path.name_nonempty hname]

end Node

namespace FileSystem
variable {σ : Type} [Storage σ] [FallibleNodes σ] {fs : FileSystem σ} {names : List String}

private theorem create_new_tries (hs : Intact fs) {dir : List String} {name : String} (h : Path.Named (dir ++ [name]))
    (now : Timestamp) (isDir : Bool) : (call (Storage.create (.new now name isDir (Path.ofSegments dir)))).Tries {dir ++ [name]} fs
      ((shown fs).Changes (setting fs).free ((shown fs).Vacant (dir ++ [name]))
        ((shown fs).set (dir ++ [name]) (some (.new isDir)))) := by
  have hcreate := create_tries hs (Node.sized_new now name isDir (Path.ofSegments dir))
  rw [Node.segments_path_new h, Node.target_new h] at hcreate
  exact hcreate.mono fun _ _ hc => ⟨fun hd => (View.canCreate_new_iff h now isDir).mp (hc.can_of_done hd),
    fun hf hv => hc.done_of_can hf ((View.canCreate_new_iff h now isDir).mpr hv),hc.after_eq⟩

omit [Storage σ] [FallibleNodes σ] in
theorem resolve_eq (fs : FileSystem σ) (path : String) : fs.resolve path = Path.ofSegments (Path.segments (fs.resolve path)) := by
  rw [← Path.normalize_eq, resolve, Path.normalize_resolve]

omit [Storage σ] [FallibleNodes σ] in
theorem segments_resolve_ofSegments (fs : FileSystem σ) (h : Path.Named names) :
    Path.segments (fs.resolve (Path.ofSegments names)) = names := by
  rw [resolve, Path.resolve_ofSegments _ h, Path.segments_ofSegments h]

omit [Storage σ] [FallibleNodes σ] in
theorem resolve_eq_root_iff (fs : FileSystem σ) (path : String) :
    fs.resolve path = "/" ↔ Path.segments (fs.resolve path) = [] := by
  rw [← Path.normalize_eq_root_iff, resolve, Path.normalize_resolve]

/-! ### Making a directory -/

theorem isDir_tries (hs : Intact fs) (path : String) : (isDir path).Tries ∅ fs fun found after =>
    after = shown fs ∧ (found = true ↔ shown fs (Path.segments (fs.resolve path)) = some .dir) := by
  have hinfo : (info path).Tries ∅ fs fun node after =>
      after = shown fs ∧ node.map Node.untimed = (shown fs).node? (Path.segments (fs.resolve path)) :=
    .get_bind (info_tries hs _)
  exact hinfo.look hs fun node t halt hview hnode => .pure halt.intact ⟨hview,View.any_isDir_iff hnode⟩

theorem mkdir_tries (hs : Intact fs) {path : String} (hpath : Path.segments (fs.resolve path) = names) :
    (mkdir path).Tries {names} fs
      ((shown fs).Changes (setting fs).free ((shown fs).Vacant names) ((shown fs).set names (some .dir))) := by
  have hnamed : Path.Named names := hpath ▸ Path.named_segments _
  have hsplit := Path.split_eq (fs.resolve path)
  rw [hpath] at hsplit
  refine .get_bind ?_
  dsimp only
  rw [hsplit]
  dsimp only
  rcases List.eq_nil_or_concat names with hnil | ⟨dir,name,hconcat⟩
  · rw [hnil]
    exact .pure hs (.refused fun _ hv => hv.1 rfl)
  rw [List.concat_eq_append] at hconcat
  rw [hconcat] at hnamed hpath ⊢
  obtain ⟨hdir,hname⟩ := Path.named_concat.mp hnamed
  rw [List.dropLast_concat, List.getLast?_concat, Option.getD_some, if_neg (by simp [Path.name_nonempty hname])]
  refine .look (info_tries hs _) hs fun taken t halt hview htaken => ?_
  split
  · refine .pure halt.intact ?_
    rw [hview]
    refine .refused fun _ hv => ?_
    rw [hpath, View.node?, hv.2.1] at htaken
    simp_all
  refine .look (info_tries halt.intact _) halt.intact fun parent u halt' hview' hparent => ?_
  rw [hview, Path.segments_ofSegments hdir] at hparent
  have hstands := View.any_isDir_iff hparent
  have hset : setting u = setting fs := halt'.setting_eq.trans halt.setting_eq
  rw [hview] at hview'
  split
  · refine .pure halt'.intact ?_
    rw [hview']
    refine .refused fun _ hv => ?_
    have hd := hv.2.2
    rw [List.dropLast_concat, ← hstands] at hd
    simp_all
  · have hcreate := create_new_tries halt'.intact hnamed fs.clock true
    rw [hset, hview'] at hcreate
    exact hcreate

/-! ### Writing a file -/

private theorem fill_tries (hs : Intact fs) (created : Bool) (full content : String)
    (hfile : (shown fs).IsFile (Path.segments full)) :
    (fill created full content).Tries {Path.segments full} fs fun done after =>
      ((setting fs).free = true → done = true) ∧
      after = if done then (shown fs).set (Path.segments full) (some (.file content))
        else if created then (shown fs).set (Path.segments full) none else shown fs := by
  refine .get_bind ?_
  refine .bind (.caught (rewrite_tries hs fs.clock full content)) fun result t halt hresult => ?_
  rcases result with e | _ | _
  · dsimp only
    split
    · refine .bind (P := fun _ _ => True) ((takeBack_tries halt.intact full).caught.mono fun _ _ _ => trivial) ?_
      exact fun _ u hu _ => .throw hu.intact hresult
    · exact .throw halt.intact hresult
  · have hview : shown t = shown fs := hresult.after_eq
    have hfree : (setting fs).free = true → false = true := fun hf => hresult.done_of_can hf hfile
    dsimp only
    split
    · refine .bind (takeBack_tries halt.intact full) fun taken u hu hdeletes => .pure hu.intact ⟨hfree,?_⟩
      rw [hview] at hdeletes
      rw [hdeletes.2, hdeletes.1.mpr (hfile.canDelete (wellFormed hs))]
      simp [*]
    · exact .pure halt.intact ⟨hfree,by simp [*]⟩
  · exact .pure halt.intact ⟨fun _ => rfl,hresult.after_eq⟩

theorem write_tries (hs : Intact fs) {path content : String} (hpath : Path.segments (fs.resolve path) = names) :
    (write path content).Tries {names} fs
      ((shown fs).Changes (setting fs).free ((shown fs).CanWrite names) ((shown fs).set names (some (.file content)))) := by
  have hnamed : Path.Named names := hpath ▸ Path.named_segments _
  have hw := wellFormed hs
  refine .get_bind ?_
  refine .look (info_tries hs _) hs fun found t halt hview hfound => ?_
  rw [hpath] at hfound
  have hset := halt.setting_eq
  cases found with
  | some node =>
    obtain ⟨item,hitem,_⟩ := Option.map_eq_some_iff.mp hfound.symm
    have hdir := View.any_isDir_iff hfound
    dsimp only
    split
    · rename_i hd
      refine .pure halt.intact ?_
      rw [hview]
      exact .refused fun _ => View.not_canWrite_of_dir (hdir.mp hd)
    · rename_i hd
      have hfile : (shown fs).IsFile names := by
        cases item with
        | dir => exact absurd (hdir.mpr hitem) hd
        | file old => exact ⟨old,hitem⟩
      have hfill := fill_tries halt.intact false (fs.resolve path) content (by rwa [hpath, hview])
      rw [hpath, hview, hset] at hfill
      exact hfill.mono fun done after h => ⟨fun _ => .inl hfile,fun hf _ => h.1 hf,h.2⟩
  | none =>
    have hnone : shown fs names = none := Option.map_eq_none_iff.mp hfound.symm
    have hnot : ¬ (shown fs).IsFile names := fun ⟨content,hc⟩ => by simp [hnone] at hc
    rcases List.eq_nil_or_concat names with hnil | ⟨dir,name,hconcat⟩
    · exact absurd (hnil ▸ hnone) (by rw [hw.root]; simp)
    rw [List.concat_eq_append] at hconcat
    subst hconcat
    have hroot : ¬ (fs.resolve path == "/") = true := by
      rw [beq_iff_eq, resolve_eq_root_iff, hpath]
      simp
    dsimp only
    rw [if_neg hroot, Node.forPath_eq hpath]
    have hcreate := create_new_tries halt.intact hnamed fs.clock false
    rw [hset, hview] at hcreate
    refine .bind hcreate fun created u hu hchanges => ?_
    cases created with
    | false =>
      refine .pure hu.intact ?_
      rw [hchanges.after_eq]
      refine .refused fun hf hcan => ?_
      exact absurd (hchanges.done_of_can hf (hcan.resolve_left hnot)) (by simp)
    | true =>
      have hvacant := hchanges.can_of_done rfl
      have hempty : shown u = (shown fs).set (dir ++ [name]) (some (.file "")) := hchanges.after_eq
      have hfill := fill_tries hu.intact true (fs.resolve path) content (by rw [hpath, hempty]; exact ⟨"",View.set_self _ _ _⟩)
      rw [hpath, hempty, hu.setting_eq, hset] at hfill
      refine hfill.mono fun done after h => ⟨fun _ => .inr hvacant,fun hf _ => h.1 hf,?_⟩
      rw [h.2, View.set_set, View.set_set, View.set_eq_self hnone]
      rfl

end FileSystem
end VirtualShell
