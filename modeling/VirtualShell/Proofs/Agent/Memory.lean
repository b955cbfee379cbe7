import VirtualShell.Proofs.Agent.Table
import VirtualShell.Proofs.FileSystem.Content
import VirtualShell.Proofs.Json.Pretty

/-!
What agents remember, and the files that it is kept in. On a shell whose store does not fail, a memory whose save is
accepted is what the next lookup finds, and no save changes what is in another file.
-/
namespace VirtualShell.Agent
open Storing Viewed

/-! ### Memories -/

/-- How many runs a memory tells of. -/
def runsOf (memory : Memories) : UInt64 := ((Keyed.find? "runs" memory).bind Json.natural?).getD 0

/-- A memory whose text is read back: its keys are in order, and its values have no parts. -/
structure Legible (memory : Memories) : Prop where
  rising : Keyed.Rising memory
  flat : ∀ member ∈ memory, Json.Flat member.2

theorem legible_nil : Legible [] := ⟨Keyed.rising_nil,by simp⟩

private theorem Legible.insert {memory : Memories} (h : Legible memory) (key : String) {value : Json} (hv : Json.Flat value) :
    Legible (Keyed.insert key value memory) := by
  refine ⟨h.rising.insert key value,fun member hm => ?_⟩
  rcases Keyed.mem_insert hm with rfl | hm
  · exact hv
  · exact h.flat member hm

/-- A run is noted in a form that can be read back. -/
theorem Legible.recordRun {memory : Memories} (h : Legible memory) (input output : String) :
    Legible (Job.recordRun input output memory) :=
  ((h.insert _ (.natural _)).insert _ (.string _)).insert _ (.string _)

theorem find?_recordRun (input output : String) (memory : Memories) :
    Keyed.find? "runs" (Job.recordRun input output memory) = some (.number (.natural (runsOf memory + 1))) := by
  simp [Job.recordRun, Keyed.find?_insert, runsOf]

/-- Noting a run counts it. -/
theorem runsOf_recordRun (input output : String) (memory : Memories) :
    runsOf (Job.recordRun input output memory) = runsOf memory + 1 := by
  rw [runsOf, find?_recordRun]
  rfl

theorem recordRun_ne_nil (input output : String) (memory : Memories) : Job.recordRun input output memory ≠ [] := by
  intro hnil
  have hruns := find?_recordRun input output memory
  rw [hnil] at hruns
  cases hruns

/-! ### Files -/

namespace Manager
variable {σ : Type} [Storage σ] {m : Manager σ} {agent : String} {memory : Memories}

/-- What a file with a memory stands for, as far as it could be read. -/
def decoded : Except StorageError (Option String) → Memories
  | .ok (some text) =>
    match Json.read text with
    | .ok (.object members) => members
    | _ => []
  | _ => []

/-- A lookup finds what the file stands for, as long as the shell can be used. -/
theorem loadMemory_eq (m : Manager σ) (agent : String) : ((loadMemory agent).run m).1 =
    if m.poisoned then [] else decoded (m.shell.onFiles (FileSystem.read (memoryPath agent))).1 := by
  simp only [loadMemory, StateT.run_bind, StateT.run_get, pure_bind]
  split
  · rfl
  · rw [StateT.run_bind, run_onFiles, pure_bind]
    dsimp only
    rcases (m.shell.onFiles (FileSystem.read (memoryPath agent))).1 with e | _ | text
    · rfl
    · rfl
    · simp only [decoded]
      cases Json.read text with
      | error e => rfl
      | ok value => cases value <;> rfl

/-- Puts what an agent remembers into its file. -/
def keep (agent : String) (memory : Memories) : Filing σ Bool := do
  if ← FileSystem.mkdirAll memoryDir then
    FileSystem.write (memoryPath agent) (Json.pretty 0 (.object memory))
  else return false

/-- A save that the file system accepts. -/
structure Accepts (m : Manager σ) (agent : String) (memory : Memories) : Prop where
  usable : m.poisoned = false
  accepted : (m.shell.onFiles (keep agent memory)).1 = .ok true

theorem run_saveMemory (m : Manager σ) (agent : String) (memory : Memories) : ((saveMemory agent memory).run m).2 =
    if m.poisoned then m else { m with shell := (m.shell.onFiles (keep agent memory)).2 } := by
  simp only [saveMemory, StateT.run_bind, StateT.run_get, pure_bind]
  split
  · rfl
  · rfl

omit [Storage σ] in
/-- The file of an agent does not depend on the working directory. -/
theorem segments_memoryPath (fs : FileSystem σ) (agent : String) :
    Path.segments (fs.resolve (memoryPath agent)) = Path.segments (memoryPath agent) := by
  have habsolute : (memoryPath agent).toList.head? = some '/' := by simp [memoryPath, memoryDir]
  rw [FileSystem.resolve, Path.resolve, if_pos habsolute, Path.segments_normalize]

variable [LawfulNodes σ]

/-- What is read is what the store shows. -/
private theorem onFiles_read (hs : Sound m.shell.session.fs) (agent : String) :
    (m.shell.onFiles (FileSystem.read (memoryPath agent))).1 =
      .ok ((view m.shell.session.fs).content? (Path.segments (memoryPath agent))) := by
  obtain ⟨content,fs,hread,_,_,hcontent⟩ := FileSystem.read_meets hs (memoryPath agent)
  have hrun : (FileSystem.read (memoryPath agent)).run.run m.shell.session.fs = (.ok content,fs) := hread
  rw [Shell.onFiles, hrun, hcontent, segments_memoryPath]

/--
Keeping a memory leaves the store in order, and all other files as they were. If it is accepted, its text is the
content of the file.
-/
private theorem keep_meets {fs : FileSystem σ} (hs : Sound fs) (agent : String) (memory : Memories) :
    (keep agent memory).Meets fs
      ((view fs).Puts (Path.segments (memoryPath agent)) (Json.pretty 0 (.object memory))) := by
  refine Yields.bind (FileSystem.mkdirAll_meets hs memoryDir) fun there after ⟨hafter,hsame⟩ => ?_
  split
  · rw [← segments_memoryPath after]
    exact (FileSystem.write_meets hafter _ _).mono fun _ _ h => ⟨h.1,h.2.1,hsame.beside.trans h.2.2⟩
  · exact .pure ⟨hafter,nofun,hsame.beside⟩

/-- What a save makes of the store, and whether it was accepted. -/
private theorem saveMemory_meets (hs : Sound m.shell.session.fs) (husable : m.poisoned = false) (agent : String)
    (memory : Memories) : ∃ done, (m.shell.onFiles (keep agent memory)).1 = .ok done ∧
      Sound ((saveMemory agent memory).run m).2.shell.session.fs ∧
      (view m.shell.session.fs).Puts (Path.segments (memoryPath agent)) (Json.pretty 0 (.object memory)) done
        (view ((saveMemory agent memory).run m).2.shell.session.fs) := by
  obtain ⟨done,fs,hkeep,hmeets⟩ := keep_meets hs agent memory
  have hrun : (keep agent memory).run.run m.shell.session.fs = (.ok done,fs) := hkeep
  rw [run_saveMemory, if_neg (by simp [husable]), Shell.onFiles, hrun]
  exact ⟨done,rfl,hmeets⟩

omit [LawfulNodes σ] in
private theorem run_saveMemory_poisoned (hpoisoned : m.poisoned = true) (agent : String) (memory : Memories) :
    ((saveMemory agent memory).run m).2 = m := by
  rw [run_saveMemory, if_pos hpoisoned]

omit [LawfulNodes σ] in
private theorem poisoned_saveMemory (m : Manager σ) (agent : String) (memory : Memories) :
    ((saveMemory agent memory).run m).2.poisoned = m.poisoned := by
  rw [run_saveMemory]
  split <;> rfl

/-- On a sound shell, a lookup finds what the file stands for that the store shows. -/
private theorem loadMemory_view (hs : Sound m.shell.session.fs) (agent : String) : ((loadMemory agent).run m).1 =
    if m.poisoned then [] else
      decoded (.ok ((view m.shell.session.fs).content? (Path.segments (memoryPath agent)))) := by
  rw [loadMemory_eq, onFiles_read hs]

theorem sound_saveMemory (hs : Sound m.shell.session.fs) (agent : String) (memory : Memories) :
    Sound ((saveMemory agent memory).run m).2.shell.session.fs := by
  cases hp : m.poisoned with
  | true => rwa [run_saveMemory_poisoned hp]
  | false =>
    obtain ⟨_,_,hsound,_⟩ := saveMemory_meets hs hp agent memory
    exact hsound

/-- What was saved is what is found. -/
theorem loadMemory_saveMemory (hs : Sound m.shell.session.fs) (h : m.Accepts agent memory) (hl : Legible memory)
    (hne : memory ≠ []) : ((loadMemory agent).run ((saveMemory agent memory).run m).2).1 = memory := by
  obtain ⟨done,hdone,hsound,hcontent,_⟩ := saveMemory_meets hs h.usable agent memory
  obtain rfl := Except.ok.inj (hdone.symm.trans h.accepted)
  rw [loadMemory_view hsound, poisoned_saveMemory, h.usable, hcontent rfl]
  simp only [Bool.false_eq_true, if_false, decoded]
  rw [Json.read_pretty hne hl.rising hl.flat]

/-- A save in another file changes nothing of what is found. -/
theorem loadMemory_saveMemory_ne (hs : Sound m.shell.session.fs) {other : String} (memory : Memories)
    (hne : Path.segments (memoryPath agent) ≠ Path.segments (memoryPath other)) :
    ((loadMemory agent).run ((saveMemory other memory).run m).2).1 = ((loadMemory agent).run m).1 := by
  cases hp : m.poisoned with
  | true => rw [run_saveMemory_poisoned hp]
  | false =>
    obtain ⟨_,_,hsound,_,hbeside⟩ := saveMemory_meets hs hp other memory
    rw [loadMemory_view hsound, loadMemory_view hs, poisoned_saveMemory, hbeside _ hne]

end Manager
end VirtualShell.Agent
