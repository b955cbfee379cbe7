import VirtualShell.Proofs.FileSystem.Copying
import VirtualShell.Proofs.FileSystem.Removal

/-!
Moving a tree: it is copied, and then it is removed. As long as the copy is apart from the tree, one of them is whole
wherever that stops.
-/
namespace VirtualShell.FileSystem
open Storing Legible

section
variable {σ : Type} [Storage σ] [FallibleNodes σ] {fs : FileSystem σ} {source dest : List String}

/-- A tree is where it was, as it was, or all of it stands at its copy. -/
def Kept (tree : View) (source dest : List String) (view : View) : Prop := view.below source = tree ∨ tree.CopiedTo dest view

omit [Storage σ] [FallibleNodes σ] in
private theorem kept_of_altered [Legible σ] {t : FileSystem σ} {places : Set (List String)} (hs : Intact fs)
    (halt : Altered (places \ treeAt source) fs t) : Kept ((shown fs).below source) source dest (shown t) :=
  .inl (funext fun more => halt.shown_eq hs fun hp => hp.2 (List.prefix_append source more))

theorem mv_ends (hs : Intact fs) (hcwd : Path.normalize fs.cwd = fs.cwd) {src dst : String}
    (hsource : Path.segments (fs.resolve src) = source)
    (hdest : (shown fs).landing source (Path.segments (fs.resolve dst)) = dest)
    (hclear : ∀ rest, rest ≠ [] → source = dest ++ rest → shown fs (source ++ rest) = none) :
    (mv src dst).Ends fs (fun t => Intact t ∧ Kept ((shown fs).below source) source dest (shown t)) fun done t =>
      Intact t ∧ Kept ((shown fs).below source) source dest (shown t) ∧
        (done = true → ((shown fs).below source).CopiedTo dest (shown t)) := by
  have hnamed : Path.Named source := hsource ▸ Path.named_segments _
  have hresolve : fs.resolve src = Path.ofSegments source := by rw [resolve_eq, hsource]
  refine Ends.get_bind ?_
  dsimp only
  rw [hresolve]
  split
  · exact Ends.pure ⟨hs,.inl rfl,nofun⟩
  have hcp := cp_tries hs (fs.segments_resolve_ofSegments hnamed) hdest hclear
  refine Ends.bind (Ends.mono hcp.ends (fun t halt => ⟨halt.intact,kept_of_altered hs halt⟩) fun _ _ h => h) ?_
  intro done t ⟨halt,hdone,_⟩
  cases done with
  | false => exact Ends.pure ⟨halt.intact,kept_of_altered hs halt,nofun⟩
  | true =>
    obtain ⟨_,hnot,hcopied⟩ := hdone rfl
    have hcwd' : t.cwd = fs.cwd := congrArg Setting.cwd halt.setting_eq
    have hclears := rmRecursive_clears halt.intact (by rw [hcwd', hcwd]) (Path.ofSegments source)
    rw [Clears, t.segments_resolve_ofSegments hnamed] at hclears
    -- The copy is apart from the source, so removing that does not reach it, however far it gets.
    have hstays {u : FileSystem σ} (hu : Altered (treeAt source) t u) : ((shown fs).below source).CopiedTo dest (shown u) := by
      intro more item hitem
      have hapart := copies_apart (wellFormed hs) hnot hclear
      rw [hu.shown_eq halt.intact (Set.disjoint_left.mp hapart ⟨more,Option.isSome_of_eq_some hitem,rfl⟩)]
      exact hcopied more item hitem
    exact Ends.mono hclears.ends (fun u hu => ⟨hu.intact,.inr (hstays hu)⟩)
      fun _ u hu => ⟨hu.1.intact,.inr (hstays hu.1),fun _ => hstays hu.1⟩

end

/--
No file of a tree is lost by moving it, whatever fails or is denied on the way and whatever comes of it: it can be read
where it was or at its copy, and at its copy if the move is reported as done. But for a tree that goes onto a directory above
it, nothing of it may stand where it would come to stand upon itself.
-/
theorem mv_keeps_files {fs : FileSystem (Faulty Provider)} (hfs : Reached Faulty.Ready fs) (src dst : String)
    (hclear : ∀ rest, rest ≠ [] → Path.segments (fs.resolve src) = Path.segments (fs.landing src dst) ++ rest →
      (fs.sight (Path.descend (fs.resolve src) rest)).1 = .ok none)
    (names : List String) (content : String) (hnamed : Path.Named names)
    (hfile : (fs.sight (Path.descend (fs.resolve src) names)).2 = .ok (some content)) :
    let after := ((mv src dst).on fs).2
    ((after.sight (Path.descend (fs.resolve src) names)).2 = .ok (some content) ∨
      (after.sight (Path.descend (fs.landing src dst) names)).2 = .ok (some content)) ∧
    (((mv src dst).on fs).1 = .ok true →
      (after.sight (Path.descend (fs.landing src dst) names)).2 = .ok (some content)) := by
  have hs := hfs.intact_faulty
  have hsees {t : FileSystem (Faulty Provider)} (ht : Intact t) (path : String) :
      (t.sight (Path.descend path names)).2 = .ok (some content) ↔
        shown t (Path.segments path ++ names) = some (.file content) := by
    rw [show (t.sight _).2 = _ from content_eq ht _, Path.segments_descend _ hnamed, Except.ok.injEq, View.content?_eq_some_iff]
  have hclear' : ∀ rest, rest ≠ [] → Path.segments (fs.resolve src) = Path.segments (fs.landing src dst) ++ rest →
      shown fs (Path.segments (fs.resolve src) ++ rest) = none := by
    intro rest hrest he
    have hrests : Path.Named rest := (Path.named_append.mp (he ▸ Path.named_segments (fs.resolve src))).2
    have hnone := hclear rest hrest he
    rw [← Path.segments_descend _ hrests, ← Option.not_isSome_iff_eq_none, ← exists_node_iff hs]
    rintro ⟨node,hnode⟩
    rw [show (sights _ fs).1 = _ from hnone] at hnode
    simp at hnode
  have hends := mv_ends hs hfs.normalize_cwd rfl (segments_landing hs (fun _ => rfl) src dst).symm hclear'
  have hitem := (hsees hs _).mp hfile
  have hreadable {t : FileSystem (Faulty Provider)} (ht : Intact t)
      (hkept : Kept ((shown fs).below (Path.segments (fs.resolve src))) (Path.segments (fs.resolve src))
        (Path.segments (fs.landing src dst)) (shown t)) :
      (t.sight (Path.descend (fs.resolve src) names)).2 = .ok (some content) ∨
        (t.sight (Path.descend (fs.landing src dst) names)).2 = .ok (some content) := by
    rw [hsees ht, hsees ht]
    exact hkept.imp (fun h => (congrFun h names).trans hitem) fun h => h names _ hitem
  rw [Ends] at hends
  cases he : (mv src dst).on fs with
  | mk result after =>
    rw [he] at hends
    cases result with
    | error e => exact ⟨hreadable hends.1 hends.2,fun hd => absurd hd (by simp)⟩
    | ok done =>
      obtain ⟨ht,hkept,hdone⟩ := hends
      refine ⟨hreadable ht hkept,fun hd => (hsees ht _).mpr (hdone (Except.ok.inj hd) names _ hitem)⟩

/-- A directory that goes onto the one above it keeps its file, even if it cannot be removed. -/
theorem mv_up_keeps_file :
    let store : Faulty Provider := ⟨.tree Tree.empty,"",0,fun _ call => call == .delete "/a/a/f"⟩
    let fs := (opening store).after [(1,.mkdirAll "/a/a"),(2,.write "/a/a/f" "x")]
    Reached Faulty.Ready fs ∧ ((mv "/a/a" "/").on fs).1 = .error (.backend "delete_node failed") ∧
      ((((mv "/a/a" "/").on fs).2.sight "/a/a/f").2 = .ok (some "x") ∨
        (((mv "/a/a" "/").on fs).2.sight "/a/f").2 = .ok (some "x")) := by
  intro store fs
  have hfs : Reached Faulty.Ready fs := Reached.after (.opening Provider.Ready.tree (by decide +kernel))
  refine ⟨hfs,by decide +kernel,?_⟩
  have hsrc : Path.segments (fs.resolve "/a/a") = ["a", "a"] := by decide +kernel
  have hlanding : Path.segments (fs.landing "/a/a" "/") = ["a"] := by decide +kernel
  have hnothing : (fs.sight "/a/a/a").1 = .ok none := by decide +kernel
  have hkept := (mv_keeps_files hfs "/a/a" "/" (fun rest _ he => ?_) ["f"] "x" (by decide) (by decide +kernel)).1
  · rw [Path.descend, Path.descend, hsrc, hlanding] at hkept
    exact hkept
  · have he : ["a"] ++ ["a"] = ["a"] ++ rest := by rw [← hlanding, ← he, hsrc, hlanding]; rfl
    obtain rfl := List.append_cancel_left he
    rw [Path.descend, hsrc]
    exact hnothing

/-- A directory that goes onto the one above it, and holds one of that name itself, is lost with what it holds there. -/
theorem mv_up_loses_file :
    let fs := (opening (Provider.tree Tree.empty)).after [(1,.mkdirAll "/a/a/a"),(2,.write "/a/a/a/f" "x")]
    let after := ((mv "/a/a" "/").on fs).2
    Reached Provider.Ready fs ∧ fs.landing "/a/a" "/" = "/a" ∧ (fs.sight "/a/a/a/f").2 = .ok (some "x") ∧
      ((mv "/a/a" "/").on fs).1 = .ok true ∧ (after.sight "/a/a/a/f").2 = .ok none ∧ (after.sight "/a/a/f").2 = .ok none :=
  ⟨Reached.after (.opening Provider.Ready.tree (by decide +kernel)),by decide +kernel⟩

end VirtualShell.FileSystem
