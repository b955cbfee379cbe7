import VirtualShell.FileSystem.Basic
import VirtualShell.Proofs.Storage.Invariant

/-!
Invariants beneath a policy. A guard lets a change through only when its checker has nothing against it, so an
invariant of the store needs to survive permitted changes only.
-/
namespace VirtualShell
open Storing
variable {σ : Type}

namespace Checker

theorem checkPath_congr (checker : Checker) {a b : String} (h : Path.segments a = Path.segments b) :
    checker.checkPath a = checker.checkPath b := by
  rw [checkPath, checkPath, (Path.normalize_eq_iff a b).mpr h]

/-- A policy that allows no change denies every path. -/
theorem checkPath_readOnly {checker : Checker} (h : checker.policy.readOnly = true) (path : String) :
    checker.checkPath path ≠ none := by
  simp [checkPath, h]

theorem policy_of_compile {policy : Policy} {checker : Checker} (h : compile policy = .ok checker) :
    checker.policy = policy := by
  unfold compile at h
  cases hp : compilePatterns policy.deniedPatterns with
  | error e => simp [hp, Except.map] at h
  | ok patterns =>
    rw [hp] at h
    rw [← Except.ok.inj h]

end Checker

namespace Guard
variable {checker : Checker} {inv : σ → Prop}

/-- An invariant of the store beneath a guard with a given checker. -/
def Over (checker : Checker) (inv : σ → Prop) (guard : Guard σ) : Prop := guard.checker = checker ∧ inv guard.store

theorem preserves_beneath {α : Type} {act : Storing σ α} (h : Preserves inv act) : Preserves (Over checker inv) (beneath act) :=
  h.within (fun _ hg => hg.2) fun _ _ hg hs => ⟨hg.1,hs⟩

theorem beneath_yields {α : Type} {act : Storing σ α} {wanted : α → σ → Prop} {guard : Guard σ} (h : act.Yields guard.store wanted) :
    (beneath act).Yields guard fun a after =>
      after.checker = guard.checker ∧ after.violations = guard.violations ∧ wanted a after.store := by
  obtain ⟨a,after,he,hw⟩ := h
  exact ⟨a,{ guard with store := after },by rw [beneath, on_within, he],rfl,rfl,hw⟩

theorem preserves_settle (operation : Operation) (path : String) (denial : Option Denial) :
    Preserves (Over checker inv) (settle operation path denial) := by
  cases denial with
  | none => exact .pure true
  | some denial => exact .bind (fun _ hg => hg) fun _ => .pure false

/-- A denial is settled by refusing. -/
theorem settle_eq_true {operation : Operation} {path : String} {denial : Option Denial} {guard guard' : Guard σ}
    (h : (settle operation path denial).on guard = (.ok true, guard')) : denial = none ∧ guard' = guard := by
  cases denial with
  | none => exact ⟨rfl,(Prod.mk.inj h).2.symm⟩
  | some denial => exact absurd (Except.ok.inj (Prod.mk.inj h).1) Bool.false_ne_true

/-- What is done only when the path rules allow it may rely on that. -/
theorem preserves_allowed {operation : Operation} {path : String} {act : Storing (Guard σ) Bool}
    (h : checker.checkPath path = none → Preserves (Over checker inv) act) :
    Preserves (Over checker inv) (do
      if !(← allows operation path) then return false
      act) := by
  refine .bind_of (.bind .get fun _ => preserves_settle _ _ _) fun allowed guard guard' hg he => ?_
  cases allowed with
  | false => exact .pure false
  | true =>
    apply h
    rw [← hg.1]
    exact (settle_eq_true he).1

variable [Storage σ]

/-- The calls of a store that take nothing away keep an invariant as far as a checker permits them. -/
structure KeepsGrowing (checker : Checker) (inv : σ → Prop) : Prop where
  info (path : String) : Preserves inv (Storage.info path : Storing σ (Option Node))
  create (node : Node) : node.Sized → checker.checkPath node.path = none →
    Preserves inv (Storage.create node : Storing σ Bool)
  list (path : String) : Preserves inv (Storage.list path : Storing σ (List String))
  /-- The guard's own call, since its size rule is a part of it. -/
  write (now : Timestamp) (path content : String) : Preserves (Over checker inv) (Guard.write now path content)
  read (path : String) : Preserves inv (Storage.read path : Storing σ (Option String))
  touch (now : Timestamp) (path : String) : checker.checkPath path = none →
    Preserves inv (Storage.touch now path : Storing σ Bool)
  stats : Preserves inv (Storage.stats : Storing σ StorageStats)

/-- All calls of a store keep an invariant as far as a checker permits them. -/
structure Keeps (checker : Checker) (inv : σ → Prop) : Prop extends KeepsGrowing checker inv where
  delete (path : String) : checker.checkPath path = none → Preserves inv (Storage.delete path : Storing σ Bool)

/-- Writing under the size rule keeps what permitted writing keeps. -/
theorem preserves_write (hinfo : ∀ path, Preserves inv (Storage.info path : Storing σ (Option Node)))
    (hstats : Preserves inv (Storage.stats : Storing σ StorageStats)) (now : Timestamp) (path content : String)
    (hwrite : checker.checkPath (Path.normalize path) = none →
      Preserves inv (Storage.write now (Path.normalize path) content : Storing σ Bool)) :
    Preserves (Over checker inv) (Guard.write now path content) := by
  refine preserves_allowed fun hallowed => (preserves_beneath (hinfo _)).bind fun node => .bind .get fun guard => ?_
  have hrest (total : Nat) : Preserves (Over checker inv) (do
      if !(← settle .write (Path.normalize path)
          (guard.checker.checkSize content.utf8ByteSize ((node.bind Node.size).getD 0).toNat total)) then return false
      beneath (Storage.write now (Path.normalize path) content)) :=
    (preserves_settle _ _ _).bind fun _ => .ite (.pure _) (preserves_beneath (hwrite hallowed))
  exact .ite ((preserves_beneath hstats).bind fun _ => .bind (.pure _) hrest) (.bind (.pure _) hrest)

theorem KeepsGrowing.over (h : KeepsGrowing checker inv) : Storage.KeepsGrowing (Over checker inv) where
  info path := preserves_beneath (h.info path)
  create node hsized := preserves_allowed fun hallowed => preserves_beneath (h.create node hsized hallowed)
  list path := preserves_beneath (h.list path)
  write now path content := h.write now path content
  read path := preserves_beneath (h.read path)
  touch now _ := preserves_allowed fun hallowed => preserves_beneath (h.touch now _ hallowed)
  stats := (preserves_beneath h.stats).bind fun _ => .bind .get fun _ => .pure _

theorem preserves_delete (path : String)
    (hdelete : checker.checkPath (Path.normalize path) = none →
      Preserves inv (Storage.delete (Path.normalize path) : Storing σ Bool)) :
    Preserves (Over checker inv) (Storage.delete path : Storing (Guard σ) Bool) :=
  preserves_allowed fun hallowed => preserves_beneath (hdelete hallowed)

theorem Keeps.over (h : Keeps checker inv) : Storage.Keeps (Over checker inv) :=
  ⟨h.toKeepsGrowing.over,fun path => preserves_delete path (h.delete _)⟩

/-- Cleaning up is refused under a policy that allows no change. -/
theorem preserves_cleanup (h : checker.policy.readOnly = false → Preserves inv (Storage.cleanup : Storing σ CleanupStats)) :
    Preserves (Over checker inv) (Storage.cleanup : Storing (Guard σ) CleanupStats) := by
  refine .get_bind fun guard hg => ?_
  obtain ⟨rfl,_⟩ := hg
  split
  · exact (preserves_settle _ _ _).bind fun _ => .pure _
  · rename_i hread
    exact preserves_beneath (h (by simpa [policy] using hread))

theorem on_cleanup_of_readOnly {guard : Guard σ} (h : guard.checker.policy.readOnly = true) :
    (Storage.cleanup : Storing (Guard σ) CleanupStats).on guard =
      (.ok ⟨0,0⟩, { guard with violations := guard.violations ++ [⟨.cleanup,tempDir,.readOnly⟩] }) := by
  change ((get >>= _ : Storing (Guard σ) CleanupStats)).on guard = _
  rw [on_bind_ok (on_get guard), if_pos (show guard.policy.readOnly = true from h)]
  rfl

theorem on_cleanup_of_writable {guard : Guard σ} (h : guard.checker.policy.readOnly = false) :
    (Storage.cleanup : Storing (Guard σ) CleanupStats).on guard = (beneath Storage.cleanup).on guard := by
  change ((get >>= _ : Storing (Guard σ) CleanupStats)).on guard = _
  rw [on_bind_ok (on_get guard), if_neg (by simpa [policy] using h)]

/-- A node that was created was allowed. -/
theorem checkPath_of_create {node : Node} {guard guard' : Guard σ} (h : (Storage.create node).on guard = (.ok true, guard')) :
    guard.checker.checkPath node.path = none := by
  cases hd : guard.checker.checkPath node.path with
  | none => rfl
  | some denial =>
    have hon : (allows .create node.path).on guard =
        (.ok false, { guard with violations := guard.violations ++ [⟨.create,node.path,denial⟩] }) := by
      rw [allows, on_bind_ok (on_get guard), hd]
      rfl
    have hfalse : (Storage.create node).on guard =
        (.ok false, { guard with violations := guard.violations ++ [⟨.create,node.path,denial⟩] }) := by
      change (allows .create node.path >>= _).on guard = _
      rw [on_bind_ok hon]
      rfl
    rw [hfalse] at h
    exact absurd (Except.ok.inj (Prod.mk.inj h).1) Bool.false_ne_true

/-- It was created beneath the guard. -/
theorem on_create_of_create {node : Node} {guard guard' : Guard σ} (h : (Storage.create node).on guard = (.ok true, guard')) :
    (Storage.create node).on guard.store = (.ok true, guard'.store) := by
  have hallowed : (allows .create node.path).on guard = (.ok true, guard) := by
    rw [allows, on_bind_ok (on_get guard), checkPath_of_create h]
    rfl
  have hbeneath : (Storage.create node).on guard = (beneath (Storage.create node)).on guard := by
    change (allows .create node.path >>= _).on guard = _
    rw [on_bind_ok hallowed]
    rfl
  rw [hbeneath, beneath, on_within] at h
  exact Prod.ext (Prod.mk.inj h).1 (congrArg Guard.store (Prod.mk.inj h).2)

end Guard

namespace Mount
variable {plain : σ → Prop} {guarded : Guard σ → Prop}

/-- An invariant of a mount from those of its two forms. -/
def Holds (plain : σ → Prop) (guarded : Guard σ → Prop) : Mount σ → Prop
  | .plain store => plain store
  | .guarded guard => guarded guard

/-- What holds of the store of a mount, under whatever checker that is. -/
theorem exists_holds {inv : σ → Prop} {mount : Mount σ} (h : inv mount.store) :
    ∃ checker, Holds inv (Guard.Over checker inv) mount := by
  cases mount with
  | plain store => exact ⟨⟨Policy.unrestricted,[]⟩,h⟩
  | guarded guard => exact ⟨guard.checker,rfl,h⟩

theorem Holds.store {checker : Checker} {inv : σ → Prop} {mount : Mount σ} (h : Holds inv (Guard.Over checker inv) mount) :
    inv mount.store := by
  cases mount with
  | plain store => exact h
  | guarded guard => exact h.2

theorem preserves_dispatch {α : Type} {onPlain : Storing σ α} {onGuarded : Storing (Guard σ) α} (hp : Preserves plain onPlain)
    (hg : Preserves guarded onGuarded) : Preserves (Holds plain guarded) (dispatch onPlain onGuarded) := by
  intro mount h
  cases mount with
  | plain store => exact hp store h
  | guarded guard => exact hg guard h

theorem preserves_beneath {checker : Checker} {inv : σ → Prop} {α : Type} {act : Storing σ α} (hp : Preserves plain act)
    (hg : Preserves inv act) : Preserves (Holds plain (Guard.Over checker inv)) (beneath act) := by
  intro mount h
  cases mount with
  | plain store => exact hp store h
  | guarded guard => exact ⟨h.1,hg guard.store h.2⟩

theorem keepsGrowing_holds [Storage σ] (hp : Storage.KeepsGrowing plain) (hg : Storage.KeepsGrowing guarded) :
    Storage.KeepsGrowing (Holds plain guarded) where
  info path := preserves_dispatch (hp.info path) (hg.info path)
  create node hsized := preserves_dispatch (hp.create node hsized) (hg.create node hsized)
  list path := preserves_dispatch (hp.list path) (hg.list path)
  write now path content := preserves_dispatch (hp.write now path content) (hg.write now path content)
  read path := preserves_dispatch (hp.read path) (hg.read path)
  touch now path := preserves_dispatch (hp.touch now path) (hg.touch now path)
  stats := preserves_dispatch hp.stats hg.stats

theorem keeps_holds [Storage σ] (hp : Storage.Keeps plain) (hg : Storage.Keeps guarded) : Storage.Keeps (Holds plain guarded) :=
  ⟨keepsGrowing_holds hp.toKeepsGrowing hg.toKeepsGrowing,fun path => preserves_dispatch (hp.delete path) (hg.delete path)⟩

theorem keepsAround_holds [Storage σ] {cwd : String} (hp : Storage.KeepsAround cwd plain) (hg : Storage.KeepsAround cwd guarded) :
    Storage.KeepsAround cwd (Holds plain guarded) :=
  ⟨keepsGrowing_holds hp.toKeepsGrowing hg.toKeepsGrowing,
    fun path hspared => preserves_dispatch (hp.delete path hspared) (hg.delete path hspared)⟩

/-- The mount is under the policy of a checker, and an invariant holds beneath it. -/
def Under (checker : Checker) (inv : σ → Prop) (mount : Mount σ) : Prop :=
  ∃ guard, mount = .guarded guard ∧ Guard.Over checker inv guard

private theorem under_eq_holds (checker : Checker) (inv : σ → Prop) :
    Under checker inv = Holds (fun _ => False) (Guard.Over checker inv) := by
  funext mount
  cases mount <;> simp [Under, Holds]

variable [Storage σ] {checker : Checker} {inv : σ → Prop}

theorem keeps_under (h : Guard.Keeps checker inv) : Storage.Keeps (Under checker inv) :=
  under_eq_holds checker inv ▸ keeps_holds Storage.keeps_constant h.over

omit [Storage σ] in
/-- Beneath a policy, too, an action keeps what it keeps of the store. -/
theorem preserves_beneath_under {α : Type} {act : Storing σ α} (h : Preserves inv act) :
    Preserves (Under checker inv) (beneath act) :=
  under_eq_holds checker inv ▸ preserves_beneath (fun _ hf => hf.elim) h

theorem preserves_cleanup_under
    (h : checker.policy.readOnly = false → Preserves inv (Storage.cleanup : Storing σ CleanupStats)) :
    Preserves (Under checker inv) (Storage.cleanup : Storing (Mount σ) CleanupStats) :=
  under_eq_holds checker inv ▸ preserves_dispatch (fun _ hf => hf.elim) (Guard.preserves_cleanup h)

end Mount
end VirtualShell
