import VirtualShell.Proofs.FileSystem.Edits
import VirtualShell.Proofs.Storage.Walking

/-!
Finding and searching over a store in which some directories cannot be listed and some nodes cannot be looked at. What is
found is all that can be come to, what cannot be read is told, and searching finds the same under the names it wants.
-/
namespace VirtualShell
open Storing Legible Storage
variable {σ : Type} {view : View} {bad : Unreadable}

namespace Faulty

/-- From now on looking fails at fixed paths. -/
structure FailsAt (bad : Unreadable) (faulty : Faulty σ) : Prop where
  list : ∀ n path, faulty.calls ≤ n → faulty.fails n (.list path) = bad.list path
  info : ∀ n path, faulty.calls ≤ n → faulty.fails n (.info path) = bad.info path

/-- A store that shows a view and fails at fixed paths. -/
def Looked [Legible σ] (view : View) (bad : Unreadable) (faulty : Faulty σ) : Prop :=
  Intact faulty ∧ shown faulty = view ∧ faulty.FailsAt bad

private theorem attempt_caught [Legible σ] {α : Type} {call : Call} {act : Storing σ α} {wanted : α → Prop} {fails : Bool}
    {faulty : Faulty σ} (hno : ¬ MayFail σ) (h : faulty.Looked view bad) (hfails : faulty.fails faulty.calls call = fails)
    (hact : act.Tries ∅ faulty.store fun a after => after = shown faulty ∧ wanted a) :
    (attempt call act).caught.Yields faulty fun result after => after.Looked view bad ∧
      if fails then result = .error call.failure else ∃ a, result = .ok a ∧ wanted a := by
  obtain ⟨hs,hview,hbad⟩ := h
  have hnext {store : σ} (hstore : Intact store) (hshown : shown store = shown faulty) :
      ({ faulty with store, calls := faulty.calls + 1 } : Faulty σ).Looked view bad :=
    ⟨hstore,hshown.trans hview,fun n path hn => hbad.list n path (Nat.le_of_succ_le hn),
      fun n path hn => hbad.info n path (Nat.le_of_succ_le hn)⟩
  cases fails with
  | true => exact .of_on (by rw [on_caught, on_attempt, if_pos hfails]; rfl) ⟨hnext hs rfl,rfl⟩
  | false =>
    obtain ⟨a,after,hon,halt,hshown,hwanted⟩ := hact.yields hno
    exact .of_on (by rw [on_caught, on_attempt, if_neg (by simp [hfails]), hon]) ⟨hnext halt.intact hshown,a,rfl,hwanted⟩

theorem looks_looked [Storage σ] [FallibleNodes σ] (hno : ¬ MayFail σ) :
    Looks (Looked (σ := σ) view bad) view bad where
  list path h := attempt_caught hno h (h.2.2.list _ path le_rfl) (h.2.1 ▸ FallibleNodes.list path h.1)
  info path h := attempt_caught hno h (h.2.2.info _ path le_rfl) (h.2.1 ▸ FallibleNodes.info path h.1)

end Faulty

namespace Mount

/-- Looking at a mounted store is looking at the store. -/
private theorem caught_dispatch {α : Type} {act : Storing σ α} {inv : σ → Prop} {wanted : Except StorageError α → Prop}
    {mount : Mount σ} (h : act.caught.Yields mount.store fun result after => inv after ∧ wanted result) :
    (dispatch act (Guard.beneath act)).caught.Yields mount fun result after => inv after.store ∧ wanted result := by
  obtain ⟨result,after,hon,hinv,hwanted⟩ := h
  rw [on_caught, Prod.mk.injEq, Except.ok.injEq] at hon
  cases mount with
  | plain store => exact ⟨_,_,rfl,hon.2 ▸ hinv,hon.1 ▸ hwanted⟩
  | guarded guard => exact ⟨_,_,rfl,hon.2 ▸ hinv,hon.1 ▸ hwanted⟩

variable [Storage σ] {inv : σ → Prop}

theorem looks_store (h : Looks inv view bad) : Looks (fun mount : Mount σ => inv mount.store) view bad where
  list path hs := caught_dispatch (h.list path hs)
  info path hs := caught_dispatch (h.info path hs)

end Mount

/-- Of what was found, what has a wanted name; the same is told. -/
def Traversal.only (wanted : String → Bool) (found : Traversal) : Traversal :=
  ⟨found.paths.filter fun path => wanted (Path.basename path),found.skipped⟩

namespace FileSystem

theorem on_seek [Storage σ] (fs : FileSystem σ) (wanted : String → Bool) (path : String) (deep : Bool) :
    (seek wanted path deep).on fs = (call (Storage.walk deep wanted fs.capacity (fs.resolve path))).on fs := by
  rw [seek, on_bind_ok (on_get fs)]

/-- A search seeks what its glob matches. -/
theorem search_eq [Storage σ] {pattern : String} {glob : Glob} (hglob : Glob.compile pattern = .ok glob) (path : String)
    (deep : Bool) : search (σ := σ) path pattern deep = seek glob.isMatch path deep := by
  rw [search, hglob]

variable {fs : FileSystem (Faulty Provider)}

/-- A find, and whatever is sought at the same path, have the same answers, but for the names that are not wanted. -/
private theorem finds {inv : Mount (Faulty Provider) → Prop} {path : String} {deep : Bool} {reached : List String → Prop}
    {missed : List String → String → Prop} (h : Finds inv (Storage.walk deep · fs.capacity (fs.resolve path)) reached missed)
    (hs : inv fs.mount) (hreached : ∀ names, reached names → Path.Named names)
    (hmissed : ∀ names reason, missed names reason → Path.Named names) :
    ∃ found, ((find path deep).on fs).1 = .ok found ∧ Lays reached missed found ∧
      (∀ wanted, ((seek wanted path deep).on fs).1 = .ok (found.only wanted)) ∧
      ∀ pattern glob, Glob.compile pattern = .ok glob → ((search path pattern deep).on fs).1 = .ok (found.only glob.isMatch) := by
  obtain ⟨chains,skips,htells,hact⟩ := h
  have hon (wanted : String → Bool) : ((seek wanted path deep).on fs).1 = .ok (report wanted chains skips) := by
    obtain ⟨_,after,he,_,rfl⟩ := hact wanted fs.mount hs
    rw [on_seek, call, on_within, he]
  have hseek (wanted : String → Bool) :
      ((seek wanted path deep).on fs).1 = .ok ((report (fun _ => true) chains skips).only wanted) := by
    rw [hon, report_eq_filter fun names hn => hreached _ ((htells.mem_chains _).mp hn)]
    rfl
  refine ⟨_,hon _,lays_report htells hreached hmissed,hseek,fun pattern glob hglob => ?_⟩
  rw [search_eq hglob]
  exact hseek glob.isMatch

/-- If nothing is told, all that is below the start is found. -/
private theorem mem_of_complete {view : View} (hw : view.WellFormed) {start names : List String} {found : Traversal}
    (h : Lays (view.Reaches bad start) (view.Misses bad start) found) (hnamed : Path.Named start) (hcomplete : found.isComplete = true)
    (hstart : start <+: names) (hne : names ≠ start) (hsome : (view names).isSome) : Path.ofSegments names ∈ found.paths := by
  obtain ⟨more,rfl⟩ := hstart
  have hreach : view.Reaches bad start (start ++ more) := by
    by_contra hnot
    obtain ⟨missed,reason,hmiss⟩ := View.exists_misses hw (by simpa using hne) hsome hnot
    have hnamed' := hmiss.named hw hnamed
    have hskip := (h.mem_skipped (Path.ofSegments missed) reason).mpr
      ⟨Path.normalize_ofSegments hnamed',by rwa [Path.segments_ofSegments hnamed']⟩
    rw [List.isEmpty_iff.mp hcomplete] at hskip
    simp at hskip
  have hnames := hreach.named hw
  exact (h.mem_paths _).mpr ⟨Path.normalize_ofSegments hnames,by rwa [Path.segments_ofSegments hnames]⟩

/--
Whatever can and cannot be read, a find answers. In the whole tree below a path it finds just what can be come to and tells
just what could not be read on the way, a directory before what it holds and children by their names; if nothing is told, all
that is below is found. In the directory alone it finds the children. Whatever names are wanted, seeking them tells the same
and finds those paths whose last component is wanted, in the same order; so does a search for what a glob matches.
-/
theorem find_exact (hs : Intact fs) (hbad : fs.mount.store.FailsAt bad) (path : String) :
    (∃ found, ((find path true).on fs).1 = .ok found ∧
      Lays ((shown fs).Reaches bad (Path.segments (fs.resolve path))) ((shown fs).Misses bad (Path.segments (fs.resolve path)))
        found ∧
      (found.isComplete = true → ∀ names, Path.segments (fs.resolve path) <+: names → names ≠ Path.segments (fs.resolve path) →
        (shown fs names).isSome → Path.ofSegments names ∈ found.paths) ∧
      (∀ wanted, ((seek wanted path true).on fs).1 = .ok (found.only wanted)) ∧
      ∀ pattern glob, Glob.compile pattern = .ok glob →
        ((search path pattern true).on fs).1 = .ok (found.only glob.isMatch)) ∧
    ∃ found, ((find path false).on fs).1 = .ok found ∧
      Lays ((shown fs).ChildOf bad (Path.segments (fs.resolve path))) (View.Unlisted bad (Path.segments (fs.resolve path))) found ∧
      (∀ wanted, ((seek wanted path false).on fs).1 = .ok (found.only wanted)) ∧
      ∀ pattern glob, Glob.compile pattern = .ok glob →
        ((search path pattern false).on fs).1 = .ok (found.only glob.isMatch) := by
  have hw := wellFormed hs
  have hnamed : Path.Named (Path.segments (fs.resolve path)) := Path.named_segments _
  have hlooks : Looks (fun mount : Mount (Faulty Provider) => mount.store.Looked (shown fs) bad) (shown fs) bad :=
    Mount.looks_store (Faulty.looks_looked not_false)
  have hdeep := finds_walk hw hlooks (s := fs.mount) ⟨hs,rfl,hbad⟩ hnamed (Nat.succ_pos (Storage.capacity fs.mount))
    fun more hm => length_lt_capacity hs hm
  have hshallow := finds_children hw hlooks (Storage.capacity fs.mount) (s := fs.mount) ⟨hs,rfl,hbad⟩ hnamed
  rw [← resolve_eq fs path] at hdeep hshallow
  constructor
  · obtain ⟨found,hfind,hlays,hseek⟩ := finds hdeep ⟨hs,rfl,hbad⟩ (fun _ h => h.named hw) fun _ _ h => h.named hw hnamed
    exact ⟨found,hfind,hlays,fun hcomplete _ => mem_of_complete hw hlays hnamed hcomplete,hseek⟩
  · exact finds hshallow ⟨hs,rfl,hbad⟩ (fun names h => hw.named names h.2.1) fun _ _ h => h.2.1 ▸ hnamed

/-- A find goes around a directory that cannot be looked at and one that cannot be listed. -/
theorem finds_around_unreadable :
    let fails (n : Nat) (call : Call) : Bool := 17 ≤ n && (call == .info "/home" || call == .list "/tmp")
    let fs := (opening (⟨.tree Tree.empty,"",0,fails⟩ : Faulty Provider)).after [(0, .mkdir "/tmp/x"), (0, .mkdir "/home/y")]
    let bad : Unreadable := ⟨(· == "/tmp"),(· == "/home")⟩
    ∃ found, ((find "/" true).on fs).1 = .ok found ∧
      Lays ((shown fs).Reaches bad (Path.segments (fs.resolve "/"))) ((shown fs).Misses bad (Path.segments (fs.resolve "/"))) found ∧
      found.paths = ["/bin", "/etc", "/home", "/tmp", "/var"] ∧ found.skipped.map Prod.fst = ["/home", "/tmp"] := by
  intro fails fs bad
  have hopens : (open_ 0 (⟨.tree Tree.empty,"",0,fails⟩ : Faulty Provider)).isOk = true := by decide +kernel
  have hready : Reached Faulty.Ready fs := .after (.opening Provider.Ready.tree hopens)
  have hkind : Reached (fun store => store.fails = fails) fs := .after (.opening rfl hopens)
  have hfails : fs.mount.store.fails = fails := hkind.fails_eq
  have hcalls : fs.mount.store.calls = 17 := by decide +kernel
  have hbad : fs.mount.store.FailsAt bad := by
    constructor
    all_goals
      intro n path hn
      rw [hcalls] at hn
      rw [Bool.eq_iff_iff]
      simp [hfails, fails, bad, hn]
  obtain ⟨⟨found,hfind,hlays,_⟩,_⟩ := find_exact hready.intact_faulty hbad "/"
  have hvalue : ((find "/" true).on fs).1.toOption.map (fun found => (found.paths, found.skipped.map Prod.fst)) =
      some (["/bin", "/etc", "/home", "/tmp", "/var"], ["/home", "/tmp"]) := by decide +kernel
  rw [hfind] at hvalue
  exact ⟨found,hfind,hlays,Prod.mk.inj (Option.some.inj hvalue)⟩

end FileSystem
end VirtualShell
