import VirtualShell.Proofs.Storage.Invariant

/-!
The contract of stores that do not fail. A store that is sound shows a well-formed view; every call answers, and
its answer and the view that it leaves are fixed by the view before.
-/
namespace VirtualShell

namespace View

def Creates (view : View) (node : Node) (done : Bool) (after : View) : Prop :=
  (done = true ↔ view.CanCreate node) ∧
    after = if done then view.set node.target (some (.new node.isDir)) else view

def Writes (view : View) (names : List String) (content : String) (done : Bool) (after : View) : Prop :=
  (done = true ↔ view.IsFile names) ∧ after = if done then view.set names (some (.file content)) else view

def Deletes (view : View) (names : List String) (done : Bool) (after : View) : Prop :=
  (done = true ↔ view.CanDelete names) ∧ after = if done then view.set names none else view

def Touches (view : View) (names : List String) (done : Bool) (after : View) : Prop :=
  (done = true ↔ (view names).isSome) ∧ after = view

/-- The numbers of a store fit what it holds. -/
def Measures (view : View) (stats : StorageStats) (after : View) : Prop :=
  after = view ∧ ∃ entries, view.Enumerates entries ∧ stats.files = fileCount entries ∧
    stats.directories = dirCount entries ∧ Counts stats.bytes entries

def CleansUp (view : View) (stats : CleanupStats) (after : View) : Prop :=
  after = view.cleared ∧ ∃ entries, view.temporary.Enumerates entries ∧ stats.filesRemoved = fileCount entries ∧
    Counts stats.bytesFreed entries

section
variable {view after : View} {names other : List String} {done : Bool}

theorem Creates.eq_elsewhere {node : Node} (h : view.Creates node done after) (ho : other ≠ Path.segments node.path) :
    after other = view other := by
  obtain ⟨hdone,rfl⟩ := h
  split
  · rename_i hd
    rw [set_ne]
    rwa [← node.segments_path (hdone.mp hd).1]
  · rfl

theorem Writes.eq_elsewhere {content : String} (h : view.Writes names content done after) (ho : other ≠ names) :
    after other = view other := by
  obtain ⟨_,rfl⟩ := h
  split
  · exact set_ne _ _ ho
  · rfl

theorem Deletes.eq_elsewhere (h : view.Deletes names done after) (ho : other ≠ names) : after other = view other := by
  obtain ⟨_,rfl⟩ := h
  split
  · exact set_ne _ _ ho
  · rfl

end

namespace WellFormed
variable {view after : View}

theorem of_writes (h : view.WellFormed) {names : List String} {content : String} {done : Bool}
    (hw : view.Writes names content done after) : after.WellFormed := by
  obtain ⟨hdone,rfl⟩ := hw
  split
  · exact h.write (hdone.mp ‹_›) content
  · exact h

end WellFormed
end View

/-- A store together with what it shows. -/
class Viewed (σ : Type) where
  /-- The states that a store is in from when it is set up. -/
  Sound : σ → Prop
  view : σ → View

/-- The action answers and leaves a sound store; its answer and the view afterwards are as wanted. -/
def Storing.Meets {σ α : Type} [Viewed σ] (act : Storing σ α) (s : σ) (wanted : α → View → Prop) : Prop :=
  act.Yields s fun a s' => Viewed.Sound s' ∧ wanted a (Viewed.view s')

open Viewed in
/-- All calls of the contract but cleaning up. -/
class LawfulNodes (σ : Type) [Storage σ] extends Viewed σ where
  wellFormed {s : σ} : Sound s → (view s).WellFormed
  length_le_capacity {s : σ} : Sound s → ∀ names : List (List String), names.Nodup →
    (∀ n ∈ names, (view s n).isSome) → names.length ≤ Storage.capacity s
  setUp {s : σ} (now : Timestamp) : Sound s →
    (Storage.setUp now).Meets s fun done after => done = true ∧ after = view s
  info {s : σ} (path : String) : Sound s → (Storage.info path).Meets s fun node after =>
    after = view s ∧ node.map Node.untimed = (view s).node? (Path.segments path)
  create {s : σ} (node : Node) : Sound s → node.Sized → (Storage.create node).Meets s ((view s).Creates node)
  list {s : σ} (path : String) : Sound s → (Storage.list path).Meets s fun names after =>
    after = view s ∧ (view s).Lists (Path.segments path) names
  write {s : σ} (now : Timestamp) (path content : String) : Sound s →
    (Storage.write now path content).Meets s ((view s).Writes (Path.segments path) content)
  read {s : σ} (path : String) : Sound s → (Storage.read path).Meets s fun content after =>
    after = view s ∧ content = (view s).content? (Path.segments path)
  delete {s : σ} (path : String) : Sound s → (Storage.delete path).Meets s ((view s).Deletes (Path.segments path))
  touch {s : σ} (now : Timestamp) (path : String) : Sound s →
    (Storage.touch now path).Meets s ((view s).Touches (Path.segments path))
  stats {s : σ} : Sound s → Storage.stats.Meets s (view s).Measures

open Viewed in
/-- The whole contract. -/
class LawfulStorage (σ : Type) [Storage σ] extends LawfulNodes σ where
  cleanup {s : σ} : Sound s → Storage.cleanup.Meets s (view s).CleansUp

/-! ### Invariants of what a store shows -/

namespace Viewed
open Storing
variable {σ α : Type}

/-- A sound store with a view of some kind. -/
def Shows [Viewed σ] (wanted : View → Prop) (s : σ) : Prop := Sound s ∧ wanted (view s)

theorem preserves_of_meets [Storage σ] [LawfulNodes σ] {P : View → Prop} {act : Storing σ α} {wanted : σ → α → View → Prop}
    (h : ∀ {s}, Sound s → act.Meets s (wanted s))
    (hwanted : ∀ {s a after}, (view s).WellFormed → P (view s) → wanted s a after → P after) : Preserves (Shows P) act := by
  intro s ⟨hs,hp⟩
  obtain ⟨a,after,he,hsound,hw⟩ := h hs
  rw [he]
  exact ⟨hsound,hwanted (LawfulNodes.wellFormed hs) hp hw⟩

theorem preserves_sound [Viewed σ] {act : Storing σ α} {wanted : σ → α → View → Prop}
    (h : ∀ {s}, Sound s → act.Meets s (wanted s)) : Preserves Sound act := by
  intro s hs
  obtain ⟨_,after,he,hsound,_⟩ := h hs
  rw [he]
  exact hsound

theorem keeps_sound [Storage σ] [LawfulNodes σ] : Storage.Keeps (Sound : σ → Prop) where
  info path := preserves_sound (LawfulNodes.info path)
  create node hsized := preserves_sound (LawfulNodes.create node · hsized)
  list path := preserves_sound (LawfulNodes.list path)
  write now path content := preserves_sound (LawfulNodes.write now path content)
  read path := preserves_sound (LawfulNodes.read path)
  delete path := preserves_sound (LawfulNodes.delete path)
  touch now path := preserves_sound (LawfulNodes.touch now path)
  stats := preserves_sound LawfulNodes.stats

end Viewed
end VirtualShell
