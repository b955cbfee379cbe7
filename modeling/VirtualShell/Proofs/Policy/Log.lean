import VirtualShell.Proofs.FileSystem.Reached
import VirtualShell.Proofs.Policy.Verdict

/-!
The log of a guard. Whatever is asked of a file system under a policy, its log only grows, and what is added to it are changes
that the rules of the policy forbid.
-/
namespace VirtualShell
open Storing
variable {σ : Type}

/-- The rules forbid a change as it was noted: those on its path, or for a write those on sizes. -/
def Checker.Denies (checker : Checker) (violation : Violation) : Prop :=
  checker.checkPath violation.path = some violation.denial ∨
    checker.checkPath violation.path = none ∧ violation.operation = .write ∧
      ∃ new existing total, checker.checkSize new existing total = some violation.denial

namespace Guard
variable {rules? : Option Checker} {log : List Violation} {operation : Operation} {path : String}

/-- The log has grown from an earlier one under the same rules, and they forbid all that was added. -/
def Notes (rules? : Option Checker) (log : List Violation) (guard : Guard σ) : Prop :=
  rules? = some guard.checker ∧
    ∃ noted, guard.violations = log ++ noted ∧ ∀ violation ∈ noted, guard.checker.Denies violation

private theorem notes_beneath {α : Type} (act : Storing σ α) : Preserves (Notes rules? log) (beneath act) := fun _ h => h

private theorem Notes.add {guard : Guard σ} (h : guard.Notes rules? log) (store : σ) {violation : Violation}
    (hdenied : guard.checker.Denies violation) :
    Notes rules? log { guard with store, violations := guard.violations ++ [violation] } := by
  obtain ⟨hchecker,noted,hlog,hnoted⟩ := h
  refine ⟨hchecker,noted ++ [violation],by rw [hlog, List.append_assoc],fun other ho => ?_⟩
  rcases List.mem_append.mp ho with ho | ho
  · exact hnoted other ho
  · obtain rfl := List.mem_singleton.mp ho
    exact hdenied

/-- A change is noted only where the verdict is against it. -/
private theorem notes_ruled {guard : Guard σ} {verdict : Storing σ (Option Denial)} {act : Storing σ Bool}
    (hverdict : verdict.Ends guard.store (fun _ => True) fun ruling _ =>
      ∀ denial, ruling = some denial → guard.checker.Denies ⟨operation,path,denial⟩)
    (h : guard.Notes rules? log) : Notes rules? log ((ruled operation path verdict act).on guard).2 := by
  cases hon : verdict.on guard.store with
  | mk result store =>
    rcases result with e | _ | denial
    · rw [on_ruled_error hon]
      exact h
    · rw [on_ruled_allowed hon]
      exact h
    · rw [on_ruled_denied hon]
      exact h.add store (hverdict.of_ok hon denial rfl)

/-- What the path rules say is noted for the path that they were asked about. -/
private theorem asked_ends (checker : Checker) (operation : Operation) (path : String) (store : σ) :
    (return checker.checkPath path : Storing σ (Option Denial)).Ends store (fun _ => True) fun ruling _ =>
      ∀ denial, ruling = some denial → checker.Denies ⟨operation,path,denial⟩ :=
  .pure fun _ he => .inl he

variable [Storage σ]

private theorem weigh_ends (checker : Checker) (path : String) (new : Nat) (store : σ) :
    (checker.weigh path new).Ends store (fun _ => True) fun ruling _ =>
      ∃ existing total, ruling = checker.checkSize new existing total := by
  have hany {α : Type} (act : Storing σ α) (store : σ) : act.Ends store (fun _ => True) fun _ _ => True := by
    rw [Ends]
    split <;> trivial
  refine (hany _ _).bind fun node seen _ => ?_
  dsimp only
  split
  · exact (hany _ _).bind fun stats _ _ => .pure ⟨_,stats.bytes,rfl⟩
  · exact .pure ⟨_,0,rfl⟩

/-- A verdict against a write is that of a rule on the path, or else of one on sizes. -/
private theorem verdict_ends (checker : Checker) (path : String) (new : Nat) (store : σ) :
    (checker.verdict path new).Ends store (fun _ => True) fun ruling _ =>
      ∀ denial, ruling = some denial → checker.Denies ⟨.write,path,denial⟩ := by
  rw [Checker.verdict]
  cases hpath : checker.checkPath path with
  | some denial => exact .pure fun _ he => .inl (hpath.trans he)
  | none =>
    refine (weigh_ends checker path new store).mono (fun _ h => h) fun ruling _ hweighed denial he => ?_
    obtain ⟨existing,total,hruling⟩ := hweighed
    exact .inr ⟨hpath,rfl,new,existing,total,hruling.symm.trans he⟩

theorem keeps_notes : Storage.Keeps (Notes rules? log : Guard σ → Prop) where
  info _ := notes_beneath _
  create node _ guard h := by
    rw [on_create]
    exact notes_ruled (asked_ends _ _ _ _) h
  list _ := notes_beneath _
  write now path content guard h := by
    rw [on_write]
    exact notes_ruled (verdict_ends _ _ _ _) h
  read _ := notes_beneath _
  touch now path guard h := by
    rw [on_touch]
    exact notes_ruled (asked_ends _ _ _ _) h
  stats := (notes_beneath _).bind fun _ => .bind .get fun _ => .pure _
  delete path guard h := by
    rw [on_delete]
    exact notes_ruled (asked_ends _ _ _ _) h

/-- Cleaning up is refused where no change at all is allowed. -/
theorem cleanup_notes : Preserves (Notes rules? log) (Storage.cleanup : Storing (Guard σ) CleanupStats) := by
  intro guard h
  cases hread : guard.checker.policy.readOnly with
  | true =>
    rw [on_cleanup_of_readOnly hread]
    exact h.add guard.store (.inl (by simp [Checker.checkPath, hread]))
  | false =>
    rw [on_cleanup_of_writable hread]
    exact h

end Guard

namespace Mount
variable {rules? : Option Checker} {log : List Violation}

/-- So it is with a mount, which has no log where no rules are in force. -/
def Notes (rules? : Option Checker) (log : List Violation) : Mount σ → Prop :=
  Holds (fun _ => rules? = none ∧ log = []) (Guard.Notes rules? log)

variable [Storage σ]

theorem keeps_notes : Storage.Keeps (Notes rules? log : Mount σ → Prop) :=
  keeps_holds Storage.keeps_constant Guard.keeps_notes

theorem cleanup_notes : Preserves (Notes rules? log) (Storage.cleanup : Storing (Mount σ) CleanupStats) :=
  preserves_dispatch (fun _ h => h) Guard.cleanup_notes

end Mount

namespace FileSystem
variable [Storage σ] {fs : FileSystem σ}

/-- The rules that a file system is under, if there are any. -/
def rules? (fs : FileSystem σ) : Option Checker := fs.mount.guard?.map Guard.checker

omit [Storage σ] in
private theorem notes_self (fs : FileSystem σ) : fs.mount.Notes fs.rules? fs.violations := by
  obtain ⟨_ | guard,_,_⟩ := fs
  · exact ⟨rfl,rfl⟩
  · exact ⟨rfl,[],(List.append_nil _).symm,by simp⟩

/-- An operation leaves the rules as they are, and adds to the log what they forbid. -/
theorem step_notes (fs : FileSystem σ) (event : Timestamp × Action) :
    (fs.step event).rules? = fs.rules? ∧ ∃ noted, (fs.step event).violations = fs.violations ++ noted ∧
      ∀ violation ∈ noted, ∃ checker, fs.rules? = some checker ∧ checker.Denies violation := by
  have hundo : UndoKeeps (Mount.Notes fs.rules? fs.violations : Mount σ → Prop) := by
    intro _ _ _ _ _ _ mount h
    cases mount with
    | plain store => exact h
    | guarded guard => exact h
  have hafter : (fs.step event).mount.Notes fs.rules? fs.violations :=
    event.2.preserves_run Mount.keeps_notes hundo (fun _ => Mount.cleanup_notes) { fs with clock := event.1 } (notes_self fs)
  generalize fs.step event = after at hafter
  obtain ⟨store | guard,_,_⟩ := after
  · obtain ⟨hchecker,hlog⟩ := hafter
    exact ⟨hchecker.symm,[],by rw [hlog]; rfl,by simp⟩
  · obtain ⟨hchecker,noted,hlog,hnoted⟩ := hafter
    exact ⟨hchecker.symm,noted,hlog,fun violation hv => ⟨guard.checker,hchecker,hnoted violation hv⟩⟩

end FileSystem
end VirtualShell
