import VirtualShell.Policy.Guard
import VirtualShell.Proofs.Storage.Outcome

/-!
What a guard decides about a change, apart from what the store then does. The decision only looks at the store; a change
that is denied is noted and not made, and any other is the store's own.
-/
namespace VirtualShell
open Storing
variable {σ : Type}

namespace Checker

/-- The total is measured only where it can matter; nowhere else does it change what the size rules say. -/
theorem checkSize_measured (checker : Checker) (new existing total : Nat) :
    checker.checkSize new existing (if new ≤ checker.policy.maxFileSize.toNat && checker.limitsTotal then total else 0) =
      checker.checkSize new existing total := by
  split
  · rfl
  · rename_i hscan
    by_cases hnew : new > checker.policy.maxFileSize.toNat
    · rw [checkSize, checkSize, if_pos hnew, if_pos hnew]
    · have hlimit : checker.policy.maxTotalSize = unlimited := by
        simp only [Bool.and_eq_true, decide_eq_true_eq, not_and, Bool.not_eq_true] at hscan
        simpa [limitsTotal] using hscan (by omega)
      have hmax : checker.policy.maxTotalSize.toNat = UInt64.size - 1 := by rw [hlimit]; decide
      have hno (sum : Nat) : ¬ min sum (UInt64.size - 1) > checker.policy.maxTotalSize.toNat := by omega
      rw [checkSize, checkSize, if_neg hnew, if_neg hnew, if_neg (hno _), if_neg (hno _)]

variable [Storage σ]

/-- What the size rules say of putting `new` bytes at a path, after a look at the store. -/
def weigh (checker : Checker) (path : String) (new : Nat) : Storing σ (Option Denial) := do
  let node ← Storage.info path
  let existing := ((node.bind Node.size).getD 0).toNat
  let total ← if new ≤ checker.policy.maxFileSize.toNat && checker.limitsTotal then pure (← Storage.stats).bytes else pure 0
  return checker.checkSize new existing total

/-- What all rules say of writing `new` bytes at a path; the store is looked at if the path rules allow it. -/
def verdict (checker : Checker) (path : String) (new : Nat) : Storing σ (Option Denial) :=
  match checker.checkPath path with
  | some denial => return some denial
  | none => checker.weigh path new

end Checker

namespace Guard
variable {guard : Guard σ} {operation : Operation} {path : String} {verdict : Storing σ (Option Denial)} {act : Storing σ Bool}

/-- A change that is made beneath the guard unless the verdict is against it. -/
def ruled (operation : Operation) (path : String) (verdict : Storing σ (Option Denial)) (act : Storing σ Bool) :
    Storing (Guard σ) Bool := do
  if !(← settle operation path (← beneath verdict)) then return false
  beneath act

theorem on_beneath {α : Type} (act : Storing σ α) (guard : Guard σ) :
    (beneath act).on guard = ((act.on guard.store).1, { guard with store := (act.on guard.store).2 }) := rfl

/-- Given the verdict, it is settled, and the change is made if the verdict is not against it. -/
theorem on_ruled {denial : Option Denial} {store : σ} (h : verdict.on guard.store = (.ok denial, store)) :
    (ruled operation path verdict act).on guard = (do
      if !(← settle operation path denial) then return false
      beneath act : Storing (Guard σ) Bool).on { guard with store } :=
  on_bind_ok (by rw [on_beneath, h])

theorem on_ruled_error {e : StorageError} {store : σ} (h : verdict.on guard.store = (.error e, store)) :
    (ruled operation path verdict act).on guard = (.error e, { guard with store }) :=
  on_bind_error (by rw [on_beneath, h])

theorem on_ruled_denied {denial : Denial} {store : σ} (h : verdict.on guard.store = (.ok (some denial), store)) :
    (ruled operation path verdict act).on guard =
      (.ok false, { guard with store, violations := guard.violations ++ [⟨operation,path,denial⟩] }) := by
  rw [on_ruled h]
  rfl

theorem on_ruled_allowed {store : σ} (h : verdict.on guard.store = (.ok none, store)) :
    (ruled operation path verdict act).on guard = ((act.on store).1, { guard with store := (act.on store).2 }) := by
  rw [on_ruled h]
  rfl

variable [Storage σ]

theorem on_create (node : Node) (guard : Guard σ) : (Storage.create node).on guard =
    (ruled .create node.path (return guard.checker.checkPath node.path) (Storage.create node)).on guard := rfl

theorem on_delete (path : String) (guard : Guard σ) : (Storage.delete path).on guard =
    (ruled .delete (Path.normalize path) (return guard.checker.checkPath (Path.normalize path))
      (Storage.delete (Path.normalize path))).on guard := rfl

theorem on_touch (now : Timestamp) (path : String) (guard : Guard σ) : (Storage.touch now path).on guard =
    (ruled .touch (Path.normalize path) (return guard.checker.checkPath (Path.normalize path))
      (Storage.touch now (Path.normalize path))).on guard := rfl

omit [Storage σ] in
private theorem on_allows (operation : Operation) (path : String) (guard : Guard σ) :
    (allows operation path).on guard = (settle operation path (guard.checker.checkPath path)).on guard := rfl

/-- After a look at the store, the rest of a write is the size rule and the store's own write. -/
private theorem on_weighed (now : Timestamp) (path content : String) (guard : Guard σ) :
    (do
      let node ← beneath (Storage.info path)
      let existing := ((node.bind Node.size).getD 0).toNat
      let new := content.utf8ByteSize
      let checker := (← get).checker
      let total ← if new ≤ checker.policy.maxFileSize.toNat && checker.limitsTotal then
          pure (← beneath Storage.stats).bytes
        else pure 0
      if !(← settle .write path (checker.checkSize new existing total)) then return false
      beneath (Storage.write now path content)).on guard =
    (ruled .write path (guard.checker.weigh path content.utf8ByteSize) (Storage.write now path content)).on guard := by
  cases hinfo : (Storage.info path).on guard.store with
  | mk result store =>
    cases result with
    | error e =>
      rw [on_bind_error (by rw [on_beneath, hinfo]), on_ruled_error (by rw [Checker.weigh, on_bind_error hinfo])]
    | ok node =>
      rw [on_bind_ok (by rw [on_beneath, hinfo]), on_bind_ok (on_get _)]
      by_cases hscan : (decide (content.utf8ByteSize ≤ guard.checker.policy.maxFileSize.toNat) && guard.checker.limitsTotal) = true
      · rw [if_pos hscan]
        cases hstats : (Storage.stats).on store with
        | mk result last =>
          cases result with
          | error e =>
            rw [on_bind_error (by rw [on_beneath, hstats]), on_ruled_error]
            rw [Checker.weigh, on_bind_ok hinfo, if_pos hscan, on_bind_error hstats]
          | ok stats =>
            have hweigh : (guard.checker.weigh path content.utf8ByteSize).on guard.store = (.ok (guard.checker.checkSize
                content.utf8ByteSize ((node.bind Node.size).getD 0).toNat stats.bytes), last) := by
              rw [Checker.weigh, on_bind_ok hinfo, if_pos hscan, on_bind_ok hstats]
              rfl
            rw [on_bind_ok (by rw [on_beneath, hstats]), on_ruled hweigh]
            rfl
      · have hweigh : (guard.checker.weigh path content.utf8ByteSize).on guard.store = (.ok (guard.checker.checkSize
            content.utf8ByteSize ((node.bind Node.size).getD 0).toNat 0), store) := by
          rw [Checker.weigh, on_bind_ok hinfo, if_neg hscan]
          rfl
        rw [if_neg hscan, on_ruled hweigh]
        rfl

theorem on_write (now : Timestamp) (path content : String) (guard : Guard σ) : (Storage.write now path content).on guard =
    (ruled .write (Path.normalize path) (guard.checker.verdict (Path.normalize path) content.utf8ByteSize)
      (Storage.write now (Path.normalize path) content)).on guard := by
  change (Guard.write now path content).on guard = _
  cases hd : guard.checker.checkPath (Path.normalize path) with
  | some denial =>
    have hasked : (allows .write (Path.normalize path)).on guard =
        (.ok false, { guard with violations := guard.violations ++ [⟨.write,Path.normalize path,denial⟩] }) := by
      rw [on_allows, hd]
      rfl
    rw [on_ruled_denied (by rw [Checker.verdict, hd]; rfl), Guard.write, on_bind_ok hasked]
    rfl
  | none =>
    have hasked : (allows .write (Path.normalize path)).on guard = (.ok true, guard) := by
      rw [on_allows, hd]
      rfl
    rw [Guard.write, on_bind_ok hasked, Checker.verdict, hd, ← on_weighed]
    rfl

end Guard
end VirtualShell
