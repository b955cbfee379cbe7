import VirtualShell.Proofs.Storage.Counters
import VirtualShell.Proofs.Storage.ObjectsSizes
import VirtualShell.Proofs.Storage.Provider

/-!
The stores that can be asked for, in whatever use has made of them. A store that was asked for any nodes still answers what it
shows, as long as none of its calls is made to fail.
-/
namespace VirtualShell
open Storing Viewed Counting

/-! ### Stores that may be made to fail -/

namespace Faulty
variable {α : Type} {call : Call} {act : Storing Tree α} {faulty : Faulty Tree}

private theorem after_attempt (h : Works faulty) (call : Call) (act : Storing Tree α) : ((attempt call act).on faulty).2 =
    { faulty with store := (act.on faulty.store).2, calls := faulty.calls + 1 } := by
  rw [on_attempt_of_works h]

private theorem after_run (h : Works faulty) (now : Timestamp) (call : Storage.Operation) : ((call.run now).on faulty).2 =
    { faulty with store := ((call.run now).on faulty.store).2, calls := faulty.calls + 1 } := by
  cases call <;> simp only [Storage.Operation.run, on_map] <;> exact after_attempt h _ _

private theorem attempt_yields (wanted : α → View → Prop) (hworks : Works faulty)
    (h : act.Yields faulty.store fun a after => wanted a (view after)) :
    (attempt call act).Yields faulty fun a after => wanted a (view after) := by
  obtain ⟨a,after,he,hw⟩ := h
  exact ⟨a,_,by rw [on_attempt_of_works hworks, he],hw⟩

instance : LenientNodes (Faulty Tree) where
  Used faulty := LenientNodes.Used faulty.store ∧ Works faulty
  of_sound h := ⟨LenientNodes.of_sound h.1,trivial,h.2⟩
  preserves now call faulty h := by
    rw [after_run h.2]
    exact ⟨LenientNodes.preserves now call _ h.1,h.2⟩
  info {faulty} path h := attempt_yields (fun (node : Option Node) after => after = view faulty.store ∧
    node.map (Node.untimed ∘ Node.trimmed) = (view faulty.store).node? (Path.segments path)) h.2 (LenientNodes.info path h.1)
  create {faulty} node h := attempt_yields ((view faulty.store).Creates node) h.2 (LenientNodes.create node h.1)
  stats {faulty} h := attempt_yields (view faulty.store).Measures h.2 (LenientNodes.stats h.1)

end Faulty

/-! ### Stores that can be asked for -/

namespace Provider
variable {α : Type} {onTree : Storing Tree α} {onTable : Storing Table α} {onObjects : Storing Objects α}
  {onFaulty : Storing (Faulty Tree) α}

private def Used : Provider → Prop
  | .tree store => LenientNodes.Used store
  | .table store => LenientNodes.Used store
  | .objects store => LenientNodes.Used store
  | .faulty store => LenientNodes.Used store

/-- What the calls of all stores in use yield, the call of a provider yields. -/
private theorem used_yields (wanted : View → α → View → Prop)
    (ht : ∀ {s}, LenientNodes.Used s → onTree.Yields s fun a after => wanted (view s) a (view after))
    (hr : ∀ {s}, LenientNodes.Used s → onTable.Yields s fun a after => wanted (view s) a (view after))
    (ho : ∀ {s}, LenientNodes.Used s → onObjects.Yields s fun a after => wanted (view s) a (view after))
    (hf : ∀ {s}, LenientNodes.Used s → onFaulty.Yields s fun a after => wanted (view s) a (view after))
    {s : Provider} (h : Used s) :
    (dispatch onTree onTable onObjects onFaulty).Yields s fun a after => wanted (view s) a (view after) := by
  refine dispatch_yields ?_
  cases s with
  | tree store => exact ht h
  | table store => exact hr h
  | objects store => exact ho h
  | faulty store => exact hf h

/-! A call leaves what it leaves of the store that is there. -/

private theorem after_tree (store : Tree) :
    ((dispatch onTree onTable onObjects onFaulty).on (.tree store)).2 = .tree (onTree.on store).2 := rfl

private theorem after_table (store : Table) :
    ((dispatch onTree onTable onObjects onFaulty).on (.table store)).2 = .table (onTable.on store).2 := rfl

private theorem after_objects (store : Objects) :
    ((dispatch onTree onTable onObjects onFaulty).on (.objects store)).2 = .objects (onObjects.on store).2 := rfl

private theorem after_faulty (store : Faulty Tree) :
    ((dispatch onTree onTable onObjects onFaulty).on (.faulty store)).2 = .faulty (onFaulty.on store).2 := rfl

private theorem run_preserves (now : Timestamp) (call : Storage.Operation) :
    (call.run now : Storing Provider Unit).Preserves Used := by
  intro s h
  cases s with
  | tree store =>
    have hafter : ((call.run now).on (Provider.tree store)).2 = .tree ((call.run now).on store).2 := by
      cases call <;> simp only [Storage.Operation.run, on_map] <;> exact after_tree store
    rw [hafter]
    exact LenientNodes.preserves now call store h
  | table store =>
    have hafter : ((call.run now).on (Provider.table store)).2 = .table ((call.run now).on store).2 := by
      cases call <;> simp only [Storage.Operation.run, on_map] <;> exact after_table store
    rw [hafter]
    exact LenientNodes.preserves now call store h
  | objects store =>
    have hafter : ((call.run now).on (Provider.objects store)).2 = .objects ((call.run now).on store).2 := by
      cases call <;> simp only [Storage.Operation.run, on_map] <;> exact after_objects store
    rw [hafter]
    exact LenientNodes.preserves now call store h
  | faulty store =>
    have hafter : ((call.run now).on (Provider.faulty store)).2 = .faulty ((call.run now).on store).2 := by
      cases call <;> simp only [Storage.Operation.run, on_map] <;> exact after_faulty store
    rw [hafter]
    exact LenientNodes.preserves now call store h

instance : LenientNodes Provider where
  Used := Used
  of_sound {s} h := by
    cases s with
    | tree store => exact LenientNodes.of_sound (s := store) h
    | table store => exact LenientNodes.of_sound (s := store) h
    | objects store => exact LenientNodes.of_sound (s := store) h
    | faulty store => exact LenientNodes.of_sound (s := store) h
  preserves := run_preserves
  info path h := used_yields (fun v (node : Option Node) after =>
      after = v ∧ node.map (Node.untimed ∘ Node.trimmed) = v.node? (Path.segments path))
    (LenientNodes.info path) (LenientNodes.info path) (LenientNodes.info path) (LenientNodes.info path) h
  create node h := used_yields (fun v => v.Creates node) (LenientNodes.create node) (LenientNodes.create node)
    (LenientNodes.create node) (LenientNodes.create node) h
  stats h := used_yields (fun v => v.Measures) LenientNodes.stats LenientNodes.stats LenientNodes.stats LenientNodes.stats h

/--
The states of a store of which no call fails: sound ones, new trees, what was ready and is set up, and what any calls leave of
these, whatever nodes they ask for.
-/
inductive InUse : Provider → Prop
  | sound {store : Provider} : Sound store → InUse store
  | tree : InUse (.tree Tree.empty)
  | faulty {store : Faulty Tree} : store.store = Tree.empty → (∀ n call, store.fails n call = false) → InUse (.faulty store)
  | setUp {store : Provider} (now : Timestamp) : Ready store → InUse ((Storage.setUp now).on store).2
  | call {store : Provider} (now : Timestamp) (call : Storage.Operation) : InUse store → InUse (call.after now store)

theorem InUse.used {store : Provider} (h : InUse store) : LenientNodes.Used store := by
  induction h with
  | sound hs => exact LenientNodes.of_sound hs
  | tree => exact .inl rfl
  | faulty hempty hworks => exact ⟨.inl hempty,trivial,hworks⟩
  | setUp now hready => exact LenientNodes.of_sound (hready.sound_setUp now)
  | call now call _ ih => exact LenientNodes.preserves now call _ ih

theorem InUse.works {store : Provider} (h : InUse store) : Works store := by
  have hused := h.used
  cases store with
  | tree store => trivial
  | table store => trivial
  | objects store =>
    obtain ⟨objects,hholds,_⟩ := hused
    exact fun n request => by rw [(Objects.holds_iff.mp hholds).client.fails_eq]
  | faulty store => exact hused.2

end Provider
end VirtualShell
