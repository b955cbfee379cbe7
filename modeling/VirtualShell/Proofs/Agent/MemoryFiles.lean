import Mathlib.Data.List.Forall2
import VirtualShell.Proofs.Agent.Memory
import VirtualShell.Proofs.Path.Resolution

/-!
The files in which agents keep what they remember, on a store that may fail. Each name leads to one file of the directory
for memory, and two names lead to the same one just in case they differ in nothing but slashes and underscores. A save
touches the file of its own name and the way to it.
-/
namespace VirtualShell.Agent.Manager
open Storing VirtualShell.Legible

/-! ### Names of files -/

/-- Two characters that stand for the same in the name of a file. -/
def SameSign (c d : Char) : Prop := c = d ∨ (c = '/' ∨ c = '_') ∧ (d = '/' ∨ d = '_')

instance : DecidableRel SameSign := fun c d => inferInstanceAs (Decidable (c = d ∨ (c = '/' ∨ c = '_') ∧ (d = '/' ∨ d = '_')))

/-- Two names that differ in nothing but slashes and underscores. -/
def Alike (name other : String) : Prop := List.Forall₂ SameSign name.toList other.toList

/-- What stands for a character in the name of a file. -/
private def sign (c : Char) : Char := if c == '/' then '_' else c

private theorem sign_eq_iff (c d : Char) : sign c = sign d ↔ SameSign c d := by
  simp only [sign, SameSign, beq_iff_eq]
  by_cases hc : c = '/' <;> by_cases hd : d = '/' <;> grind

private theorem sign_ne_slash (c : Char) : sign c ≠ '/' := by
  unfold sign
  split
  · decide
  · rename_i h
    simpa using h

theorem Alike.refl (name : String) : Alike name name := List.forall₂_same.mpr fun _ _ => .inl rfl

/-- Names without slashes are alike only if they are the same. -/
theorem Alike.eq {name other : String} (h : Alike name other) (hname : '/' ∉ name.toList) (hother : '/' ∉ other.toList) :
    name = other := by
  rw [← String.toList_inj]
  rw [Alike] at h
  generalize name.toList = cs at h hname
  generalize other.toList = ds at h hother
  induction h with
  | nil => rfl
  | @cons c d cs ds hsign _ ih =>
    rw [List.mem_cons, not_or] at hname hother
    have hsame : c = d := by
      obtain rfl | ⟨hc,hd⟩ := hsign
      · rfl
      · rw [hc.resolve_left (Ne.symm hname.1), hd.resolve_left (Ne.symm hother.1)]
    rw [hsame, ih hname.2 hother.2]

/-- The name of the file for the memory of an agent. -/
def fileName (agent : String) : String := agent.map (fun c => if c == '/' then '_' else c) ++ ".json"

private theorem toList_fileName (agent : String) : (fileName agent).toList = agent.toList.map sign ++ ".json".toList := by
  rw [fileName, String.toList_append, String.toList_map]
  rfl

theorem fileName_eq_iff (name other : String) : fileName name = fileName other ↔ Alike name other := by
  rw [← String.toList_inj, toList_fileName, toList_fileName, List.append_cancel_right_eq, Alike, ← List.forall₂_eq_eq_eq,
    List.forall₂_map_left_iff, List.forall₂_map_right_iff]
  simp only [sign_eq_iff]

/-- Whatever an agent is called, its file has a name that can stand in a directory. -/
theorem isName_fileName (agent : String) : Path.isName (fileName agent) = true := by
  have hlength : 5 ≤ (fileName agent).toList.length := by
    rw [toList_fileName, List.length_append]
    exact Nat.le_add_left 5 _
  rw [Path.isName_iff]
  refine ⟨fun h => ?_,fun h => ?_,fun h => ?_,fun h => ?_⟩
  · simp [h] at hlength
  · rw [toList_fileName, List.mem_append, List.mem_map] at h
    obtain ⟨c,_,hc⟩ | h := h
    · exact sign_ne_slash c hc
    · exact absurd h (by decide)
  · simp [h] at hlength
  · simp [h] at hlength

theorem canonical_memoryDir : Path.Canonical memoryDir := Path.canonical_iff.mpr (by decide)

private theorem memoryPath_eq (agent : String) : memoryPath agent = Path.join memoryDir (fileName agent) := by
  rw [Path.join, Path.name_nonempty (isName_fileName agent)]
  simp only [Bool.false_eq_true, if_false]
  rw [if_neg (by decide)]
  exact String.append_assoc

theorem segments_memoryPath_eq (agent : String) :
    Path.segments (memoryPath agent) = Path.segments memoryDir ++ [fileName agent] := by
  rw [memoryPath_eq, Path.segments_join _ (isName_fileName agent)]

theorem split_memoryPath (agent : String) : Path.split (memoryPath agent) = (memoryDir,fileName agent) := by
  rw [memoryPath_eq, (Path.split_join canonical_memoryDir (isName_fileName agent)).1]

theorem canonical_memoryPath (agent : String) : Path.Canonical (memoryPath agent) := by
  have hnamed : Path.Named (Path.segments memoryDir ++ [fileName agent]) :=
    Path.named_concat.mpr ⟨Path.named_segments _,isName_fileName agent⟩
  rw [memoryPath_eq, canonical_memoryDir.eq_ofSegments,
    Path.join_ofSegments (Path.named_segments _) (isName_fileName agent)]
  exact Path.canonical_ofSegments hnamed

theorem memoryPath_eq_iff (name other : String) : memoryPath name = memoryPath other ↔ Alike name other := by
  rw [← fileName_eq_iff]
  refine ⟨fun h => ?_,fun h => by rw [memoryPath_eq, memoryPath_eq, h]⟩
  have hsplit := congrArg Path.split h
  rw [split_memoryPath, split_memoryPath] at hsplit
  exact congrArg Prod.snd hsplit

private theorem segments_eq_iff (name other : String) :
    Path.segments (memoryPath name) = Path.segments (memoryPath other) ↔ Alike name other := by
  rw [segments_memoryPath_eq, segments_memoryPath_eq, List.append_cancel_left_eq, List.singleton_inj, fileName_eq_iff]

/-! ### What stands in the files -/

variable {σ : Type} [Storage σ] [FallibleNodes σ] {m : Manager σ} {agent other : String} {memory : Memories}

/-- The text of the file for the memory of an agent, if there is one. -/
def file? (m : Manager σ) (agent : String) : Option String :=
  (shown m.shell.session.fs).content? (Path.segments (memoryPath agent))

theorem file?_congr (h : Alike agent other) (m : Manager σ) : m.file? agent = m.file? other := by
  rw [file?, (segments_eq_iff agent other).mpr h, file?]

/-- A lookup that is answered: the shell can be used, and reading does not fail. -/
structure Answers (m : Manager σ) (agent : String) : Prop where
  usable : m.poisoned = false
  answered : ∃ content, (m.shell.onFiles (FileSystem.read (memoryPath agent))).1 = .ok content

omit [Storage σ] [FallibleNodes σ] in
/-- What is done to the files is done to the store of the shell. -/
private theorem onFiles_eq {α : Type} (files : Filing σ α) (shell : Shell σ) : shell.onFiles files =
    ((files.on shell.session.fs).1,{ shell with session := { shell.session with fs := (files.on shell.session.fs).2 } }) := rfl

/-- A lookup that is answered finds what the file stands for. -/
theorem Answers.loadMemory (h : m.Answers agent) (hs : Intact m.shell.session.fs) :
    ((loadMemory agent).run m).1 = decoded (.ok (m.file? agent)) := by
  obtain ⟨content,hcontent⟩ := h.answered
  have hread := (FileSystem.read_path_tries hs (memoryPath agent)).ends
  obtain ⟨_,_,hsame⟩ := hread.of_fst_ok hcontent
  rw [segments_memoryPath] at hsame
  rw [loadMemory_eq, h.usable, hcontent, hsame]
  rfl

/-- The way to the files, and the file of one agent. -/
private def touched (agent : String) : Set (List String) :=
  {names | names <+: Path.segments memoryDir} ∪ {Path.segments (memoryPath agent)}

private theorem not_touched (h : ¬Alike agent other) : Path.segments (memoryPath agent) ∉ touched other := by
  rintro (hway | hfile)
  · have hlength := List.IsPrefix.length_le hway
    rw [segments_memoryPath_eq, List.length_append, List.length_singleton] at hlength
    omega
  · exact h ((segments_eq_iff agent other).mp hfile)

private theorem keep_tries {fs : FileSystem σ} (hs : Intact fs) (agent : String) (memory : Memories) :
    (keep agent memory).Tries (touched agent) fs
      ((shown fs).Puts (Path.segments (memoryPath agent)) (Json.pretty 0 (.object memory))) := by
  have hdir : Path.segments (fs.resolve memoryDir) = Path.segments memoryDir := by
    rw [FileSystem.resolve, Path.resolve_canonical _ canonical_memoryDir]
  have hmkdir := FileSystem.mkdirAll_tries hs memoryDir
  rw [hdir] at hmkdir
  refine .bind (hmkdir.widen Set.subset_union_left) fun there after halt hsame => ?_
  split
  · have hwrite (content : String) : (FileSystem.write (memoryPath agent) content).Tries _ after _ :=
      FileSystem.write_tries halt.intact (segments_memoryPath after agent)
    exact ((hwrite _).widen Set.subset_union_right).mono fun _ _ h => ⟨h.puts.1,hsame.beside.trans h.puts.2⟩
  · exact .pure halt.intact ⟨fun h => absurd h Bool.false_ne_true,hsame.beside⟩

/-- A save touches the way to its file and the file alone, whether it is accepted or not. -/
private theorem altered_saveMemory (hs : Intact m.shell.session.fs) (agent : String) (memory : Memories) :
    Altered (touched agent) m.shell.session.fs ((saveMemory agent memory).run m).2.shell.session.fs := by
  rw [run_saveMemory]
  split
  · exact .refl hs
  · rw [onFiles_eq]
    exact (keep_tries hs agent memory).altered

theorem intact_saveMemory (hs : Intact m.shell.session.fs) (agent : String) (memory : Memories) :
    Intact ((saveMemory agent memory).run m).2.shell.session.fs := (altered_saveMemory hs agent memory).intact

/-- A save that is accepted leaves its text in the file. -/
theorem file?_saveMemory (hs : Intact m.shell.session.fs) (h : m.Accepts agent memory) :
    ((saveMemory agent memory).run m).2.file? agent = some (Json.pretty 0 (.object memory)) := by
  have haccepted := h.accepted
  rw [onFiles_eq] at haccepted
  obtain ⟨_,hputs,_⟩ := (keep_tries hs agent memory).ends.of_fst_ok haccepted
  rw [file?, run_saveMemory, if_neg (by simp [h.usable]), onFiles_eq]
  exact hputs rfl

/-- A save for an agent whose name is not alike leaves the file as it is. -/
theorem file?_saveMemory_other (hs : Intact m.shell.session.fs) (h : ¬Alike agent other) (memory : Memories) :
    ((saveMemory other memory).run m).2.file? agent = m.file? agent := by
  rw [file?, View.content?, (altered_saveMemory hs other memory).shown_eq hs (not_touched h), ← View.content?, file?]

end VirtualShell.Agent.Manager
