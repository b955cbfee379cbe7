import VirtualShell.Proofs.Storage.ObjectsFrame
import VirtualShell.Storage.Provider

/-!
Where the calls of a store may change something when calls are made to fail, and for any store that can be asked
for.
-/
namespace VirtualShell

namespace Faulty
open Storing
variable {σ : Type} [Storage σ]

instance [Sighted σ] : Sighted (Faulty σ) where
  InOrder faulty := Sighted.InOrder faulty.store
  steady faulty := { faulty with store := Sighted.steady faulty.store, fails := fun _ _ => false }

private theorem sight_eq [Sighted σ] (path : String) (faulty : Faulty σ) :
    Storage.sight path faulty = Storage.sight path faulty.store := rfl

omit [Storage σ] in
/-- What is beneath stays as it is, or comes to what the call makes of it. -/
theorem store_attempt {α : Type} (call : Call) (act : Storing σ α) (faulty : Faulty σ) :
    ((attempt call act).on faulty).2.store = faulty.store ∨ ((attempt call act).on faulty).2.store = (act.on faulty.store).2 := by
  rw [on_attempt]
  split
  · exact .inl rfl
  · exact .inr rfl

private theorem attempt_confined [Sighted σ] {α : Type} {places : Set (List String)} {call : Call} {act : Storing σ α}
    (h : Confined places act) : Confined places (attempt call act) := by
  intro faulty ho
  obtain ⟨horder,hsame⟩ := h faulty.store ho
  change Sighted.InOrder ((attempt call act).on faulty).2.store ∧ _
  simp only [sight_eq]
  rcases store_attempt call act faulty with he | he
  · rw [he]
    exact ⟨ho,fun _ _ => rfl⟩
  · rw [he]
    exact ⟨horder,hsame⟩

omit [Storage σ] in
private theorem attempt_inOrder [Sighted σ] {α : Type} {call : Call} {act : Storing σ α}
    (h : act.Preserves Sighted.InOrder) : (attempt call act).Preserves Sighted.InOrder := by
  intro faulty ho
  change Sighted.InOrder ((attempt call act).on faulty).2.store
  rcases store_attempt call act faulty with he | he
  · rw [he]
    exact ho
  · rw [he]
    exact h faulty.store ho

instance [Framed σ] : Framed (Faulty σ) where
  setUp now := attempt_inOrder (Framed.setUp now)
  info path := attempt_confined (Framed.info path)
  create node := attempt_confined (Framed.create node)
  list path := attempt_confined (Framed.list path)
  write now path content := attempt_confined (Framed.write now path content)
  read path := attempt_confined (Framed.read path)
  delete path := attempt_confined (Framed.delete path)
  touch now path := attempt_confined (Framed.touch now path)
  stats := attempt_confined Framed.stats
  cleanup := attempt_inOrder Framed.cleanup

end Faulty

namespace Provider
open Storing

instance : Sighted Provider where
  InOrder
    | .tree store => Sighted.InOrder store
    | .table store => Sighted.InOrder store
    | .objects store => Sighted.InOrder store
    | .faulty store => Sighted.InOrder store
  steady
    | .tree store => .tree (Sighted.steady store)
    | .table store => .table (Sighted.steady store)
    | .objects store => .objects (Sighted.steady store)
    | .faulty store => .faulty (Sighted.steady store)

variable {α : Type} {onTree : Storing Tree α} {onTable : Storing Table α} {onObjects : Storing Objects α}
  {onFaulty : Storing (Faulty Tree) α}

private theorem dispatch_confined {places : Set (List String)} (ht : Confined places onTree) (hr : Confined places onTable)
    (ho : Confined places onObjects) (hf : Confined places onFaulty) :
    Confined places (dispatch onTree onTable onObjects onFaulty) := by
  intro provider h
  cases provider with
  | tree store => exact ht store h
  | table store => exact hr store h
  | objects store => exact ho store h
  | faulty store => exact hf store h

private theorem dispatch_inOrder (ht : onTree.Preserves Sighted.InOrder) (hr : onTable.Preserves Sighted.InOrder)
    (ho : onObjects.Preserves Sighted.InOrder) (hf : onFaulty.Preserves Sighted.InOrder) :
    (dispatch onTree onTable onObjects onFaulty).Preserves Sighted.InOrder := by
  intro provider h
  cases provider with
  | tree store => exact ht store h
  | table store => exact hr store h
  | objects store => exact ho store h
  | faulty store => exact hf store h

instance : Framed Provider where
  setUp now := dispatch_inOrder (Framed.setUp now) (Framed.setUp now) (Framed.setUp now) (Framed.setUp now)
  info path := dispatch_confined (Framed.info path) (Framed.info path) (Framed.info path) (Framed.info path)
  create node := dispatch_confined (Framed.create node) (Framed.create node) (Framed.create node) (Framed.create node)
  list path := dispatch_confined (Framed.list path) (Framed.list path) (Framed.list path) (Framed.list path)
  write now path content :=
    dispatch_confined (Framed.write now path content) (Framed.write now path content) (Framed.write now path content)
      (Framed.write now path content)
  read path := dispatch_confined (Framed.read path) (Framed.read path) (Framed.read path) (Framed.read path)
  delete path := dispatch_confined (Framed.delete path) (Framed.delete path) (Framed.delete path) (Framed.delete path)
  touch now path :=
    dispatch_confined (Framed.touch now path) (Framed.touch now path) (Framed.touch now path) (Framed.touch now path)
  stats := dispatch_confined Framed.stats Framed.stats Framed.stats Framed.stats
  cleanup := dispatch_inOrder Framed.cleanup Framed.cleanup Framed.cleanup Framed.cleanup

end Provider

end VirtualShell
