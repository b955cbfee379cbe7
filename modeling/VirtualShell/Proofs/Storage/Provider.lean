import VirtualShell.Proofs.Storage.Objects
import VirtualShell.Proofs.Storage.Table
import VirtualShell.Proofs.Storage.Tree
import VirtualShell.Storage.Provider

/-!
The stores that can be asked for keep the contract of stores, as long as none of their calls is made to fail.
-/
namespace VirtualShell
open Viewed

namespace Faulty
variable {σ : Type} [Storage σ] [LawfulStorage σ]

instance : Viewed (Faulty σ) where
  Sound faulty := Sound faulty.store ∧ ∀ n call, faulty.fails n call = false
  view faulty := view faulty.store

private theorem attempt_meets {α : Type} {call : Call} {act : Storing σ α} {faulty : Faulty σ} {wanted : α → View → Prop}
    (h : Sound faulty) (hact : act.Meets faulty.store wanted) : (attempt call act).Meets faulty wanted := by
  obtain ⟨a,after,he,hsound,hw⟩ := hact
  refine ⟨a,{ faulty with store := after, calls := faulty.calls + 1 },?_,⟨hsound,h.2⟩,hw⟩
  rw [on_attempt, if_neg (by simp [h.2]), he]

instance : LawfulStorage (Faulty σ) where
  wellFormed h := LawfulNodes.wellFormed h.1
  length_le_capacity h := LawfulNodes.length_le_capacity h.1
  setUp now h := attempt_meets h (LawfulNodes.setUp now h.1)
  info path h := attempt_meets h (LawfulNodes.info path h.1)
  create node h hsized := attempt_meets h (LawfulNodes.create node h.1 hsized)
  list path h := attempt_meets h (LawfulNodes.list path h.1)
  write now path content h := attempt_meets h (LawfulNodes.write now path content h.1)
  read path h := attempt_meets h (LawfulNodes.read path h.1)
  delete path h := attempt_meets h (LawfulNodes.delete path h.1)
  touch now path h := attempt_meets h (LawfulNodes.touch now path h.1)
  stats h := attempt_meets h (LawfulNodes.stats h.1)
  cleanup h := attempt_meets h (LawfulStorage.cleanup h.1)

/-- A new tree shows a bare root when it is set up. -/
theorem setUp_empty (faulty : Faulty Tree) (hempty : faulty.store = Tree.empty) (h : ∀ n call, faulty.fails n call = false)
    (now : Timestamp) : (Storage.setUp now).Meets faulty fun done after => done = true ∧ after = View.bare := by
  obtain ⟨a,after,he,hsound,hw⟩ := Tree.setUp_empty now
  refine ⟨a,{ faulty with store := after, calls := faulty.calls + 1 },?_,⟨hsound,h⟩,hw⟩
  change (attempt .setUp (Storage.setUp now)).on faulty = _
  rw [on_attempt, if_neg (by simp [h]), hempty, he]

end Faulty

namespace Provider

instance : Viewed Provider where
  Sound
    | .tree store => Sound store
    | .table store => Sound store
    | .objects store => Sound store
    | .faulty store => Sound store
  view
    | .tree store => view store
    | .table store => view store
    | .objects store => view store
    | .faulty store => view store

variable {α : Type} {onTree : Storing Tree α} {onTable : Storing Table α} {onObjects : Storing Objects α}
  {onFaulty : Storing (Faulty Tree) α}

/-- What the call of the store that is there yields, the call of a provider yields. -/
theorem dispatch_yields {wanted : α → Provider → Prop} {s : Provider} (h : match s with
      | .tree store => onTree.Yields store fun a after => wanted a (.tree after)
      | .table store => onTable.Yields store fun a after => wanted a (.table after)
      | .objects store => onObjects.Yields store fun a after => wanted a (.objects after)
      | .faulty store => onFaulty.Yields store fun a after => wanted a (.faulty after)) :
    (dispatch onTree onTable onObjects onFaulty).Yields s wanted := by
  cases s with
  | tree store =>
    obtain ⟨a,after,he,hw⟩ := h
    exact ⟨a,.tree after,congrArg (fun (result, store) => (result, Provider.tree store)) he,hw⟩
  | table store =>
    obtain ⟨a,after,he,hw⟩ := h
    exact ⟨a,.table after,congrArg (fun (result, store) => (result, Provider.table store)) he,hw⟩
  | objects store =>
    obtain ⟨a,after,he,hw⟩ := h
    exact ⟨a,.objects after,congrArg (fun (result, store) => (result, Provider.objects store)) he,hw⟩
  | faulty store =>
    obtain ⟨a,after,he,hw⟩ := h
    exact ⟨a,.faulty after,congrArg (fun (result, store) => (result, Provider.faulty store)) he,hw⟩

/-- What the calls of all stores meet, the call of a provider meets. -/
private theorem dispatch_meets (wanted : View → α → View → Prop)
    (ht : ∀ {s}, Sound s → onTree.Meets s (wanted (view s))) (hr : ∀ {s}, Sound s → onTable.Meets s (wanted (view s)))
    (ho : ∀ {s}, Sound s → onObjects.Meets s (wanted (view s))) (hf : ∀ {s}, Sound s → onFaulty.Meets s (wanted (view s)))
    {s : Provider} (h : Sound s) : (dispatch onTree onTable onObjects onFaulty).Meets s (wanted (view s)) := by
  refine dispatch_yields ?_
  cases s with
  | tree store => exact ht h
  | table store => exact hr h
  | objects store => exact ho h
  | faulty store => exact hf h

instance : LawfulStorage Provider where
  wellFormed {s} h := by
    cases s with
    | tree store => exact LawfulNodes.wellFormed (s := store) h
    | table store => exact LawfulNodes.wellFormed (s := store) h
    | objects store => exact LawfulNodes.wellFormed (s := store) h
    | faulty store => exact LawfulNodes.wellFormed (s := store) h
  length_le_capacity {s} h := by
    cases s with
    | tree store => exact LawfulNodes.length_le_capacity (s := store) h
    | table store => exact LawfulNodes.length_le_capacity (s := store) h
    | objects store => exact LawfulNodes.length_le_capacity (s := store) h
    | faulty store => exact LawfulNodes.length_le_capacity (s := store) h
  setUp now h := dispatch_meets (fun v done after => done = true ∧ after = v) (LawfulNodes.setUp now) (LawfulNodes.setUp now)
    (LawfulNodes.setUp now) (LawfulNodes.setUp now) h
  info path h := dispatch_meets (fun v (node : Option Node) after => after = v ∧ node.map Node.untimed = v.node? (Path.segments path))
    (LawfulNodes.info path) (LawfulNodes.info path) (LawfulNodes.info path) (LawfulNodes.info path) h
  create node h hsized := dispatch_meets (fun v => v.Creates node) (LawfulNodes.create node · hsized)
    (LawfulNodes.create node · hsized) (LawfulNodes.create node · hsized) (LawfulNodes.create node · hsized) h
  list path h := dispatch_meets (fun v names after => after = v ∧ v.Lists (Path.segments path) names)
    (LawfulNodes.list path) (LawfulNodes.list path) (LawfulNodes.list path) (LawfulNodes.list path) h
  write now path content h := dispatch_meets (fun v => v.Writes (Path.segments path) content) (LawfulNodes.write now path content)
    (LawfulNodes.write now path content) (LawfulNodes.write now path content) (LawfulNodes.write now path content) h
  read path h := dispatch_meets (fun v content after => after = v ∧ content = v.content? (Path.segments path))
    (LawfulNodes.read path) (LawfulNodes.read path) (LawfulNodes.read path) (LawfulNodes.read path) h
  delete path h := dispatch_meets (fun v => v.Deletes (Path.segments path)) (LawfulNodes.delete path)
    (LawfulNodes.delete path) (LawfulNodes.delete path) (LawfulNodes.delete path) h
  touch now path h := dispatch_meets (fun v => v.Touches (Path.segments path)) (LawfulNodes.touch now path)
    (LawfulNodes.touch now path) (LawfulNodes.touch now path) (LawfulNodes.touch now path) h
  stats h := dispatch_meets (fun v => v.Measures) LawfulNodes.stats LawfulNodes.stats LawfulNodes.stats LawfulNodes.stats h
  cleanup h := dispatch_meets (fun v => v.CleansUp) LawfulStorage.cleanup LawfulStorage.cleanup LawfulStorage.cleanup
    LawfulStorage.cleanup h

/-- Stores of which no call fails: new ones, and those that were set up and used. -/
inductive Ready : Provider → Prop
  | used {store : Provider} : Sound store → Ready store
  | tree : Ready (.tree Tree.empty)
  | table (name : DatabaseName) : Ready (.table ⟨name, false, none⟩)
  | objects (bucket keyPrefix : String) : Ready (.objects (Objects.new Client.new bucket keyPrefix))
  | faulty {store : Faulty Tree} : store.store = Tree.empty → (∀ n call, store.fails n call = false) → Ready (.faulty store)

/-- Setting up leaves a store sound. -/
theorem Ready.sound_setUp {store : Provider} (h : Ready store) (now : Timestamp) : Sound ((Storage.setUp now).on store).2 := by
  cases h with
  | used hs =>
    obtain ⟨_,after,he,hsound,_⟩ := LawfulNodes.setUp now hs
    rw [he]
    exact hsound
  | tree =>
    obtain ⟨_,after,he,hsound,_⟩ := Tree.setUp_empty now
    exact (congrArg Prod.snd he ▸ hsound : Sound ((Storage.setUp now : Storing Tree Bool).on Tree.empty).2)
  | table name =>
    obtain ⟨_,after,he,hsound,_⟩ := Table.setUp_fresh name now
    exact (congrArg Prod.snd he ▸ hsound : Sound ((Storage.setUp now : Storing Table Bool).on ⟨name,false,none⟩).2)
  | objects bucket keyPrefix =>
    obtain ⟨_,after,he,hsound,_⟩ := Objects.setUp_fresh bucket keyPrefix now
    exact (congrArg Prod.snd he ▸ hsound : Sound ((Storage.setUp now : Storing Objects Bool).on (Objects.new Client.new bucket keyPrefix)).2)
  | @faulty store hempty hworks =>
    obtain ⟨_,after,he,hsound,_⟩ := Faulty.setUp_empty store hempty hworks now
    exact (congrArg Prod.snd he ▸ hsound : Sound ((Storage.setUp now : Storing (Faulty Tree) Bool).on store).2)

/-- The directories that a file system over a new tree starts with. -/
def baseDirs : Forest :=
  ["bin", "etc", "home", "tmp", "var"].foldr (fun name next => .dir name (Node.directory 0 name "/") .nil next) .nil

def baseStore : Provider := .tree ⟨some (.dir (Node.root 0) baseDirs)⟩

end Provider
end VirtualShell
