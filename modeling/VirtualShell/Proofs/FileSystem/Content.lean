import VirtualShell.Proofs.FileSystem.Edits

/-!
What a file system over a store that does not fail reads and writes. It shows what its store shows, under a policy
or not. A write that is accepted leaves just that content at the path, and whatever becomes of it, all other files
are as they were.
-/
namespace VirtualShell
open Storing Viewed
variable {σ : Type}

/-! ### Files of a view -/

namespace View
variable {before view after : View} {names : List String} {free done : Bool}

/-- All files are as they were. -/
def SameFiles (before after : View) : Prop := ∀ other, after.content? other = before.content? other

/-- All files but the one at a chain of names are as they were. -/
def Beside (names : List String) (before after : View) : Prop :=
  ∀ other, other ≠ names → after.content? other = before.content? other

/-- The content is put there if that is done, and nowhere else. -/
def Puts (before : View) (names : List String) (content : String) (done : Bool) (after : View) : Prop :=
  (done = true → after.content? names = some content) ∧ Beside names before after

theorem SameFiles.refl (view : View) : SameFiles view view := fun _ => rfl

theorem SameFiles.trans (h : SameFiles before view) (hl : SameFiles view after) : SameFiles before after :=
  fun other => (hl other).trans (h other)

theorem SameFiles.beside (h : SameFiles before after) : Beside names before after := fun other _ => h other

theorem Beside.trans (h : Beside names before view) (hl : Beside names view after) : Beside names before after :=
  fun other ho => (hl other ho).trans (h other ho)

/-- A new directory stands where there was nothing, so it hides no file. -/
theorem Changes.sameFiles {node : Node} (h : before.Changes free (before.CanCreate node)
    (before.set node.target (some (.new node.isDir))) done after) (hdir : node.isDir = true) : SameFiles before after := by
  intro other
  rw [h.after_eq]
  split
  · rename_i hd
    by_cases ho : other = node.target
    · rw [ho, content?, content?, set_self, (h.can_of_done hd).2.2, hdir]
      rfl
    · rw [content?, content?, set_ne _ _ ho]
  · rfl

theorem Changes.puts {can : Prop} {content : String}
    (h : before.Changes free can (before.set names (some (.file content))) done after) : before.Puts names content done after := by
  obtain ⟨_,_,rfl⟩ := h
  cases done with
  | true =>
    refine ⟨fun _ => ?_,fun other ho => ?_⟩
    · rw [if_pos rfl, content?, set_self]
      rfl
    · rw [if_pos rfl, content?, content?, set_ne _ _ ho]
  | false => exact ⟨fun hd => absurd hd (by simp),fun _ _ => rfl⟩

end View

/-! ### Stores beneath something -/

section
variable [Viewed σ]

instance : Viewed (Mount σ) where
  Sound mount := Sound mount.store
  view mount := view mount.store

instance : Viewed (FileSystem σ) where
  Sound fs := Sound fs.mount
  view fs := view fs.mount

end

/-! ### Reading and writing -/

section
open Legible
variable [Storage σ] [FallibleNodes σ]

/-- The directories on the way to a path are no files, and nothing is touched but what is on the way. -/
private theorem Mount.createDirs_tries {mount : Mount σ} (hs : Intact mount) (now : Timestamp) {parts : List String}
    (hparts : Path.Named parts) (current : String) :
    (Storage.createDirs now current parts).Tries {names | names <+: Path.segments current ++ parts} mount
      fun _ after => (shown mount).SameFiles after := by
  induction parts generalizing mount current with
  | nil => exact .pure hs (.refl _)
  | cons part rest ih =>
    have hpart : Path.isName part = true := hparts part (by simp)
    have hnext : Path.segments (Path.join current part) ++ rest = Path.segments current ++ part :: rest := by
      rw [Path.segments_join current hpart, List.append_assoc, List.singleton_append]
    have hgoesOn {t : Mount σ} (ht : Intact t) := ih ht (fun name hn => hparts name (by simp [hn])) (Path.join current part)
    rw [hnext] at hgoesOn
    refine .look (info_tries hs _) hs fun found t halt hview _ => ?_
    rw [← hview]
    cases found with
    | some node =>
      dsimp only
      split
      · exact hgoesOn halt.intact
      · exact .pure halt.intact (.refl _)
    | none =>
      have hplace : {Path.segments (Node.directory now part current).path} ⊆
          {names | names <+: Path.segments current ++ part :: rest} := by
        have hpath : Path.segments (Node.directory now part current).path = Path.segments current ++ [part] :=
          Node.segments_path _ hpart
        exact Set.singleton_subset_iff.mpr ⟨rest,by rw [hpath, List.append_assoc, List.singleton_append]⟩
      have hcreate := create_tries halt.intact (Node.sized_new now part true current)
      refine .bind (hcreate.widen hplace) fun done u hu hchanges => ?_
      have hsame := hchanges.sameFiles rfl
      split
      · exact (hgoesOn hu.intact).mono fun _ _ h => hsame.trans h
      · exact .pure hu.intact hsame

variable {fs : FileSystem σ}

/-- What a file system reads is what its store shows, unless it fails. -/
theorem FileSystem.read_path_tries (hs : Intact fs) (path : String) : (read path).Tries ∅ fs fun content after =>
    after = shown fs ∧ content = (shown fs).content? (Path.segments (fs.resolve path)) :=
  .get_bind (read_tries hs _)

theorem FileSystem.mkdirAll_tries (hs : Intact fs) (path : String) :
    (mkdirAll path).Tries {names | names <+: Path.segments (fs.resolve path)} fs
      fun _ after => (shown fs).SameFiles after := by
  have hcreate := Mount.createDirs_tries hs fs.clock (Path.named_segments (fs.resolve path)) "/"
  rw [Path.segments_root, List.nil_append] at hcreate
  exact .get_bind (call_tries hcreate)

end

namespace FileSystem
variable [Storage σ] [LawfulNodes σ] {fs : FileSystem σ}

/-- What a file system reads is what its store shows. -/
theorem read_meets (hs : Sound fs) (path : String) : (read path).Meets fs fun content after =>
    after = view fs ∧ content = (view fs).content? (Path.segments (fs.resolve path)) := by
  let _ : FallibleNodes σ := .ofLawful
  exact ((read_path_tries hs path).yields id).mono fun _ _ h => ⟨h.1.intact,h.2⟩

theorem mkdirAll_meets (hs : Sound fs) (path : String) : (mkdirAll path).Meets fs fun _ after => (view fs).SameFiles after := by
  let _ : FallibleNodes σ := .ofLawful
  exact ((mkdirAll_tries hs path).yields id).mono fun _ _ h => ⟨h.1.intact,h.2⟩

/-- A write that is accepted leaves its content at the path; any write leaves all other files as they were. -/
theorem write_meets (hs : Sound fs) (path content : String) :
    (write path content).Meets fs ((view fs).Puts (Path.segments (fs.resolve path)) content) := by
  let _ : FallibleNodes σ := .ofLawful
  exact ((write_tries hs rfl).yields id).mono fun _ _ h => ⟨h.1.intact,h.2.puts⟩

end FileSystem
end VirtualShell
