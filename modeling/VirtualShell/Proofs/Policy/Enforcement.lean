import VirtualShell.Proofs.FileSystem.Reached
import VirtualShell.Proofs.Storage.ProviderFrame

/-!
A policy protects what it denies. Whatever a file system under a policy does, and whatever fails on the way, every
node that the path rules keep from being changed stays as it was.
-/
namespace VirtualShell.FileSystem
open Storing

section
variable {σ : Type} [Storage σ] [Framed σ] {checker : Checker} {path : String} {before : Sight}

/-- A store in order, with what is read at a path. -/
private def Reads (path : String) (before : Sight) (store : σ) : Prop :=
  Sighted.InOrder store ∧ Storage.sight path store = before

private theorem guard_keeps (hdenied : checker.checkPath path ≠ none) :
    Guard.Keeps checker (Reads path before : σ → Prop) where
  info other := (Framed.info other).preserves (by simp) before
  create node _ hallowed := (Framed.create node).preserves
    (fun hs => hdenied ((checker.checkPath_congr hs).trans hallowed)) before
  list other := (Framed.list other).preserves (by simp) before
  write now other content :=
    Guard.preserves_write (fun p => (Framed.info p).preserves (by simp) before) (Framed.stats.preserves (by simp) before)
      now other content fun hallowed => (Framed.write now _ content).preserves
        (fun hs => hdenied ((checker.checkPath_congr hs).trans hallowed)) before
  read other := (Framed.read other).preserves (by simp) before
  delete other hallowed := (Framed.delete other).preserves
    (fun hs => hdenied ((checker.checkPath_congr hs).trans hallowed)) before
  touch now other hallowed := (Framed.touch now other).preserves
    (fun hs => hdenied ((checker.checkPath_congr hs).trans hallowed)) before
  stats := Framed.stats.preserves (by simp) before

/-- No run under a policy changes what is read at a denied path; only cleaning up may, if the policy allows it. -/
private theorem after_sight {fs : FileSystem σ} (hmount : Mount.Under checker Sighted.InOrder fs.mount)
    (events : List (Timestamp × Action)) (hevents : ∀ event ∈ events, event.2 = .cleanup → checker.policy.readOnly = true)
    (hdenied : checker.checkPath path ≠ none) :
    Storage.sight path (fs.after events).mount.store = Storage.sight path fs.mount.store := by
  obtain ⟨guard,hguard,hchecker,horder⟩ := hmount
  have hkeeps : Guard.Keeps checker (Reads path (Storage.sight path guard.store) : σ → Prop) := guard_keeps hdenied
  have hstart : Mount.Under checker (Reads path (Storage.sight path guard.store)) fs.mount :=
    ⟨guard,hguard,hchecker,horder,rfl⟩
  obtain ⟨guard',hafter,_,_,hsight⟩ := after_under hkeeps events (fun event he hc hread => by
    simp [hevents event he hc] at hread) hstart
  rw [hafter, hguard]
  exact hsight

end

variable {fs guarded : FileSystem Provider} {policy : Policy} {checker : Checker}

/--
Once a policy has been put over the store of a file system, no run of actions without cleaning up changes what is
read at a denied path, whatever was done before and whatever the actions answer. If the policy allows no change at
all, no run changes what is read anywhere.
-/
theorem denied_unchanged (hreached : Reached Sighted.InOrder fs) (hcompile : Checker.compile policy = .ok checker)
    (happlied : (applyPolicy policy).on fs = (.ok (), guarded)) (earlier events : List (Timestamp × Action)) {path : String}
    (hpath : (checker.checkPath path ≠ none ∧ ∀ event ∈ events, event.2 ≠ .cleanup) ∨ policy.readOnly = true) :
    Storage.sight path ((guarded.after earlier).after events).mount.store =
      Storage.sight path (guarded.after earlier).mount.store := by
  have horder : Sighted.InOrder guarded.mount.store := by
    have hpoliced := hreached.policed policy
    rw [happlied] at hpoliced
    exact hpoliced.holds Framed.keeps_inOrder (fun now store hk => Framed.setUp now store hk) Framed.cleanup
  have hguarded := under_of_applyPolicy hcompile happlied horder
  have hmount := after_under (Framed.keeps_inOrder.guard checker) earlier (fun _ _ _ _ => Framed.cleanup) hguarded
  rcases hpath with ⟨hdenied,hno⟩ | hread
  · exact after_sight hmount events (fun event he hc => absurd hc (hno event he)) hdenied
  · rw [← Checker.policy_of_compile hcompile] at hread
    exact after_sight hmount events (fun _ _ _ => hread) (Checker.checkPath_readOnly hread path)

/-- A file system over a new tree, kept from changing `/etc` while it works elsewhere. -/
theorem etc_unchanged :
    let policy : Policy := { Policy.unrestricted with deniedPaths := ["/etc"] }
    let events := [(1, Action.write "/etc/hosts" "x"), (2, .rmRecursive "/etc"), (3, .mv "/home" "/etc/home")]
    ∃ (fs guarded : FileSystem Provider) (checker : Checker),
      open_ 0 (.tree Tree.empty) = .ok fs ∧ Checker.compile policy = .ok checker ∧
      (applyPolicy policy).on fs = (.ok (), guarded) ∧ checker.checkPath "/etc" ≠ none ∧
      Storage.sight "/etc" ((guarded.after []).after events).mount.store =
        Storage.sight "/etc" (guarded.after []).mount.store := by
  intro policy events
  have horder : Sighted.InOrder (Provider.tree Tree.empty) := by
    intro root hr
    simp [Tree.empty] at hr
  have hdenied : (Checker.mk policy []).checkPath "/etc" ≠ none := by decide +kernel
  cases hopen : open_ 0 (Provider.tree Tree.empty) with
  | error e =>
    have hok : (open_ 0 (Provider.tree Tree.empty)).isOk = true := by decide +kernel
    simp [hopen, Except.isOk, Except.toBool] at hok
  | ok fs =>
    have happlied : (applyPolicy policy).on fs =
      (.ok (), { fs with mount := .guarded ⟨fs.mount.store,⟨policy,[]⟩,[]⟩ }) := rfl
    refine ⟨fs,_,⟨policy,[]⟩,rfl,rfl,happlied,hdenied,?_⟩
    exact denied_unchanged (.opened horder hopen) rfl happlied [] events (.inl ⟨hdenied,by simp [events]⟩)

end VirtualShell.FileSystem
