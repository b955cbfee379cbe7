import VirtualShell.Proofs.Storage.ObjectsIntegrity
import VirtualShell.Proofs.Storage.Provider
import VirtualShell.Proofs.Storage.ProviderFrame

/-!
Where setting up and cleaning up may change something, times included, once a store is sound: setting up nowhere, and
cleaning up only below the directory for temporary data.
-/
namespace VirtualShell
open Viewed

/-- The two calls that work on a whole store are confined on sound stores. -/
class Contained (σ : Type) [Storage σ] [Viewed σ] [Sighted σ] : Prop where
  setUp {s : σ} (now : Timestamp) (path : String) : Sound s →
    Storage.sight path ((Storage.setUp now).on s).2 = Storage.sight path s
  cleanup {s : σ} {path : String} : Sound s → ¬ View.Temporary (Path.segments path) →
    Storage.sight path ((Storage.cleanup : Storing σ CleanupStats).on s).2 = Storage.sight path s

instance : Contained Tree where
  setUp {store} now path h := by
    obtain ⟨root⟩ := store
    obtain ⟨root,rfl,_⟩ := h
    rfl
  cleanup h hpath := by
    obtain ⟨root,hr,hs⟩ := h
    refine (Tree.cleanup_confined _ fun other ho => ?_).2 _ hpath
    exact Option.some.inj (hr.symm.trans ho) ▸ hs.rising

instance : Contained Table where
  setUp {store} now path h := by
    obtain ⟨name,frozen,rows⟩ := store
    obtain ⟨rfl,rows,rfl,hs⟩ := h
    rw [Table.on_setUp now hs]
  cleanup _ hpath := (Table.cleanup_confined _ trivial).2 _ hpath

namespace Objects

private theorem stands_of_sound {store : Objects} (h : Sound store) :
    Stands (fun _ _ => false) store.bucket store.keyPrefix True store := by
  obtain ⟨objects,hholds,hs⟩ := h
  exact ⟨objects,holds_iff.mp hholds,hs.planted⟩

instance : Contained Objects where
  setUp now path h := by
    have hpath : Path.segments path ∉ Storage.Operation.setUp.places := Set.notMem_empty _
    have hconfined := (stands_of_sound h).confined now .setUp hpath
    rwa [Storage.Operation.after, Storage.Operation.run, Storing.on_map] at hconfined
  cleanup h hpath := by
    have hconfined := (stands_of_sound h).confined 0 .cleanup hpath
    rwa [Storage.Operation.after, Storage.Operation.run, Storing.on_map] at hconfined

end Objects

namespace Faulty
variable {σ : Type} [Storage σ] [LawfulStorage σ] [Sighted σ] [Contained σ]

instance : Contained (Faulty σ) where
  setUp {faulty} now path h := by
    change Storage.sight path ((attempt .setUp (Storage.setUp now)).on faulty).2.store = Storage.sight path faulty.store
    rw [on_attempt, if_neg (by simp [h.2])]
    exact Contained.setUp now path h.1
  cleanup {faulty path} h hpath := by
    change Storage.sight path ((attempt .cleanup (Storage.cleanup : Storing σ CleanupStats)).on faulty).2.store =
      Storage.sight path faulty.store
    rw [on_attempt, if_neg (by simp [h.2])]
    exact Contained.cleanup h.1 hpath

end Faulty

instance : Contained Provider where
  setUp {store} now path h := by
    cases store with
    | tree store => exact Contained.setUp (s := store) now path h
    | table store => exact Contained.setUp (s := store) now path h
    | objects store => exact Contained.setUp (s := store) now path h
    | faulty store => exact Contained.setUp (s := store) now path h
  cleanup {store path} h hpath := by
    cases store with
    | tree store => exact Contained.cleanup (s := store) h hpath
    | table store => exact Contained.cleanup (s := store) h hpath
    | objects store => exact Contained.cleanup (s := store) h hpath
    | faulty store => exact Contained.cleanup (s := store) h hpath

end VirtualShell
