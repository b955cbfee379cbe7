import VirtualShell.Proofs.FileSystem.Calls
import VirtualShell.Proofs.Storage.Agreement

/-!
What a guard refuses to delete stays as it is, whatever is called through the guard and whatever calls fail. Only cleaning
up asks for nothing but whether anything may be changed at all: it takes what is temporary, refused or not.
-/
namespace VirtualShell
open Storing Legible

namespace Storage.Action
variable {σ : Type} [Storage σ] {inv : σ → Prop}

/-- A store after calls, each at its own time, whatever they return. -/
def after (store : σ) (calls : List (Timestamp × Action)) : σ :=
  calls.foldl (fun store call => ((call.2.run call.1).on store).2) store

theorem preserves_run (h : Keeps inv) (hsetUp : ∀ now, Preserves inv (Storage.setUp now : Storing σ Bool)) (now : Timestamp)
    (call : Action) (hcleanup : call = .cleanup → Preserves inv (Storage.cleanup : Storing σ CleanupStats)) :
    Preserves inv (call.run now : Storing σ Answer) := by
  cases call with
  | setUp => exact (hsetUp now).map _
  | info path => exact (h.info path).map _
  | create making => exact (h.create _ (making.sized_node now)).map _
  | list path => exact (h.list path).map _
  | write path content => exact (h.write now path content).map _
  | read path => exact (h.read path).map _
  | delete path => exact (h.delete path).map _
  | touch path => exact (h.touch now path).map _
  | stats => exact h.stats.map _
  | cleanup => exact (hcleanup rfl).map _

/-- A run keeps what its calls keep. -/
theorem preserves_after {store : σ} {calls : List (Timestamp × Action)}
    (h : ∀ call ∈ calls, Preserves inv (call.2.run call.1 : Storing σ Answer)) (hs : inv store) : inv (after store calls) := by
  induction calls generalizing store with
  | nil => exact hs
  | cons call calls ih => exact ih (fun other ho => h other (by simp [ho])) (h call (by simp) store hs)

end Storage.Action

namespace Guard
variable {σ : Type} [Storage σ] {kind inv : σ → Prop} {guard : Guard σ} {checker : Checker} {path : String} {before : Sight}

/-! ### Guards in use -/

/-- Sets a store up and puts it under a policy. -/
def putOver (now later : Timestamp) (policy : Policy) : Storing σ (Guard σ) := do
  let _ ← Storage.setUp now
  install later policy (pure ())

/-- The guards that are put over stores of some kind and then called. -/
inductive Used (kind : σ → Prop) : Guard σ → Prop
  | put {store : σ} {now later : Timestamp} {policy : Policy} {guard : Guard σ} :
    kind store → ((putOver now later policy).on store).1 = .ok guard → Used kind guard
  | called {guard : Guard σ} (now : Timestamp) (call : Storage.Action) : Used kind guard → Used kind ((call.run now).on guard).2

/-- Every call through a guard keeps what permitted changes to the store keep. -/
theorem preserves_call (h : Keeps checker inv) (hsetUp : ∀ now, Preserves inv (Storage.setUp now : Storing σ Bool)) (now : Timestamp)
    (call : Storage.Action) (hcleanup : call = .cleanup → checker.policy.readOnly = false →
      Preserves inv (Storage.cleanup : Storing σ CleanupStats)) : Preserves (Over checker inv) (call.run now) :=
  Storage.Action.preserves_run h.over (fun now => preserves_beneath (hsetUp now)) now call fun hc => preserves_cleanup (hcleanup hc)

theorem Used.intact {guard : Guard (Faulty Provider)} (h : Used Faulty.Ready guard) : Intact guard := by
  induction h with
  | @put store now later policy guard hk he =>
    obtain ⟨result,started,hup⟩ : ∃ result started, (Storage.setUp now).on store = (result, started) := ⟨_,_,rfl⟩
    cases result with
    | error e =>
      rw [putOver, on_bind_error hup] at he
      simp at he
    | ok done =>
      rw [putOver, on_bind_ok hup] at he
      have hkeeps : Storage.Keeps (Intact : Faulty Provider → Prop) := FallibleNodes.keeps_intact
      have hstore := (install_eq_ok (Prod.ext he rfl)).2
      change Intact guard.store
      rw [hstore]
      exact hkeeps.toKeepsGrowing.install later policy started (hk.intact_setUp hup)
  | @called guard now call _ ih =>
    have hkeeps : Keeps guard.checker (Intact : Faulty Provider → Prop) := FallibleNodes.keeps_intact.guard guard.checker
    exact (preserves_call hkeeps (fun now => FallibleNodes.preserves (FallibleNodes.setUp now)) now call
      (fun _ _ => FallibleNodes.preserves FallibleStorage.cleanup) guard ⟨rfl,ih⟩).2

/-! ### Refusals -/

/-- The guard does not let a node be deleted: to try it is answered like any other failure, and is only noted. -/
def RefusesDelete (guard : Guard σ) (path : String) : Prop :=
  ∃ denial, (Storage.delete path).on guard =
    (.ok false, { guard with violations := guard.violations ++ [⟨.delete,Path.normalize path,denial⟩] })

theorem refusesDelete_iff : guard.RefusesDelete path ↔ guard.checker.checkPath path ≠ none := by
  have hasks : (allows .delete (Path.normalize path)).on guard =
      (settle .delete (Path.normalize path) (guard.checker.checkPath path)).on guard := by
    rw [allows, on_bind_ok (on_get guard), guard.checker.checkPath_congr (Path.segments_normalize path)]
  cases hd : guard.checker.checkPath path with
  | none =>
    rw [hd] at hasks
    have hon : (Storage.delete path).on guard = (beneath (Storage.delete (Path.normalize path))).on guard := by
      change (allows .delete (Path.normalize path) >>= _).on guard = _
      rw [on_bind_ok (hasks.trans (on_pure true guard))]
      rfl
    refine ⟨?_,fun h => absurd rfl h⟩
    rintro ⟨denial,he⟩
    rw [hon, beneath, on_within] at he
    have hlog := congrArg (fun result => result.2.violations.length) he
    simp at hlog
  | some denial =>
    rw [hd] at hasks
    refine ⟨fun _ => by simp,fun _ => ⟨denial,?_⟩⟩
    change (allows .delete (Path.normalize path) >>= _).on guard = _
    rw [on_bind_ok (hasks.trans rfl)]
    rfl

/-! ### What is refused stays -/

omit [Storage σ] in
private theorem preserves_sight [Legible σ] {α : Type} {act : Storing σ α} {places : σ → Set (List String)}
    {wanted : σ → α → View → Prop} (h : ∀ {s}, Intact s → act.Tries (places s) s (wanted s))
    (hpath : ∀ s, Path.segments path ∉ places s) : Preserves (fun s => Intact s ∧ sights path s = before) act := fun s hs =>
  ⟨(h hs.1).altered.intact,((h hs.1).altered.elsewhere path (hpath s)).trans hs.2⟩

/-- What the path rules permit is done elsewhere. -/
private theorem keeps_sight [FallibleNodes σ] (hrefused : checker.checkPath path ≠ none) :
    Keeps checker (fun s : σ => Intact s ∧ sights path s = before) := by
  have hinfo (other : String) : Preserves (fun s : σ => Intact s ∧ sights path s = before) (Storage.info other) :=
    preserves_sight (FallibleNodes.info other) (by simp)
  have hstats : Preserves (fun s : σ => Intact s ∧ sights path s = before) (Storage.stats : Storing σ StorageStats) :=
    preserves_sight FallibleNodes.stats (by simp)
  -- The path rules go by the names, so no other spelling of the path is permitted.
  have helse {other : String} (hallowed : checker.checkPath other = none) (s : σ) :
      Path.segments path ∉ ({Path.segments other} : Set (List String)) :=
    fun hs => hrefused ((checker.checkPath_congr hs).trans hallowed)
  exact {
    info := hinfo
    create node hsized hallowed := preserves_sight (FallibleNodes.create node · hsized) (helse hallowed)
    list other := preserves_sight (FallibleNodes.list other) (by simp)
    write now other content := preserves_write hinfo hstats now other content fun hallowed =>
      preserves_sight (FallibleNodes.write now _ content) (helse hallowed)
    read other := preserves_sight (FallibleNodes.read other) (by simp)
    touch now other hallowed := preserves_sight (FallibleNodes.touch now other) (helse hallowed)
    stats := hstats
    delete other hallowed := preserves_sight (FallibleNodes.delete other) (helse hallowed) }

private theorem after_sight [FallibleStorage σ] (hs : Intact guard) (hrefused : guard.checker.checkPath path ≠ none)
    (calls : List (Timestamp × Storage.Action))
    (hcleanup : guard.policy.readOnly = true ∨ ¬ View.Temporary (Path.segments path) ∨ ∀ call ∈ calls, call.2 ≠ .cleanup) :
    sights path (Storage.Action.after guard calls).store = sights path guard.store := by
  have hstart : Over guard.checker (fun s : σ => Intact s ∧ sights path s = sights path guard.store) guard := ⟨rfl,hs,rfl⟩
  refine (Storage.Action.preserves_after (fun call hc => ?_) hstart).2.2
  refine preserves_call (keeps_sight hrefused) (fun now => preserves_sight (FallibleNodes.setUp now) (by simp)) call.1 call.2 fun hclean hread => ?_
  refine preserves_sight FallibleStorage.cleanup fun _ => ?_
  rcases hcleanup with hreads | hplace | hno
  · exact absurd (hreads.symm.trans hread) (by simp)
  · exact hplace
  · exact absurd hclean (hno call hc)

/-- A policy under which something may be changed lets all that is temporary go. -/
private theorem cleanup_takes [FallibleStorage σ] (hs : Intact guard) (hread : guard.policy.readOnly = false)
    (hplace : View.Temporary (Path.segments path)) {stats : CleanupStats} {after : Guard σ}
    (he : Storage.cleanup.on guard = (.ok stats, after)) : sights path after.store = (.ok none, .ok none) := by
  rw [on_cleanup_of_writable hread] at he
  obtain ⟨halt,hview⟩ := (beneath_tries (FallibleStorage.cleanup (s := guard.store) hs)).ends.of_ok he
  refine sights_of_none halt.intact ?_
  rw [hview, View.cleared_of_temporary _ hplace]

/--
What a guard refuses to delete stays as it is under every run of calls through the guard, whatever calls fail, if the run
does not clean up, if the policy allows no change at all, or if the node is not temporary. In the one case that is left,
cleaning up takes it.
-/
theorem refused_stays {guard : Guard (Faulty Provider)} (hguard : Used Faulty.Ready guard) {path : String}
    (hrefused : guard.RefusesDelete path) :
    (∀ calls : List (Timestamp × Storage.Action),
      (guard.policy.readOnly = true ∨ ¬ View.Temporary (Path.segments path) ∨ ∀ call ∈ calls, call.2 ≠ .cleanup) →
        Storage.sight path (Storage.Action.after guard calls).store = Storage.sight path guard.store) ∧
    (guard.policy.readOnly = false → View.Temporary (Path.segments path) → ∀ stats after,
      Storage.cleanup.on guard = (.ok stats, after) → Storage.sight path after.store = (.ok none, .ok none)) :=
  ⟨after_sight hguard.intact (refusesDelete_iff.mp hrefused),fun hread hplace _ _ he => cleanup_takes hguard.intact hread hplace he⟩

/-- A store with a file below the directory for temporary data. -/
private def kept : Provider :=
  Storage.Action.after ((Storage.setUp 0 : Storing Provider Bool).on (.tree Tree.empty)).2 [(1,.create (.directory "tmp" "/")),
    (2,.create (.directory "keep" "/tmp")),(3,.create (.file "f" "/tmp/keep")),(4,.write "/tmp/keep/f" "x")]

private theorem sound_kept : Viewed.Sound kept := by
  refine Storage.Action.preserves_after (fun call hc => ?_) (Provider.Ready.tree.sound_setUp 0)
  refine Storage.Action.preserves_run Viewed.keeps_sound (fun now => Viewed.preserves_sound (LawfulNodes.setUp now)) _ _ ?_
  exact fun _ => Viewed.preserves_sound LawfulStorage.cleanup

/-- The store while no call fails. -/
private def working : Faulty Provider := ⟨kept,"",0,fun _ _ => false⟩

/-- The store under a policy that denies the directory of the file. -/
private def keeping : Guard (Faulty Provider) :=
  ((putOver 5 5 { Policy.unrestricted with deniedPaths := ["/tmp/keep"] }).on working).1.toOption.getD
    ⟨working,⟨.unrestricted,[]⟩,[]⟩

private theorem used_keeping : Used Faulty.Ready keeping :=
  .put (show working.Ready from .used sound_kept) (eq_ok_of_isOk (by decide +kernel) _)

private theorem keeping_refuses : keeping.RefusesDelete "/tmp/keep/f" := refusesDelete_iff.mpr (by decide +kernel)

/-- A file that is denied is not written, touched or deleted. -/
theorem denied_file_stays :
    Used Faulty.Ready keeping ∧ keeping.RefusesDelete "/tmp/keep/f" ∧
      Storage.sight "/tmp/keep/f" (Storage.Action.after keeping
        [(6,.write "/tmp/keep/f" "y"),(7,.touch "/tmp/keep/f"),(8,.delete "/tmp/keep/f")]).store =
        Storage.sight "/tmp/keep/f" keeping.store :=
  ⟨used_keeping,keeping_refuses,(refused_stays used_keeping keeping_refuses).1 _ (.inr (.inr (by simp)))⟩

/-- Cleaning up takes it. -/
theorem cleanup_takes_denied :
    Used Faulty.Ready keeping ∧ keeping.RefusesDelete "/tmp/keep/f" ∧
      (Storage.sight "/tmp/keep/f" keeping.store).2 = .ok (some "x") ∧ (Storage.cleanup.on keeping).1 = .ok ⟨1,1⟩ ∧
      Storage.sight "/tmp/keep/f" (Storage.cleanup.on keeping).2.store = (.ok none, .ok none) :=
  ⟨used_keeping,keeping_refuses,by decide +kernel,by decide +kernel,by decide +kernel⟩

end Guard
end VirtualShell
