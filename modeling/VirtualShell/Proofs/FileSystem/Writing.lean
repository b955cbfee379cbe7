import VirtualShell.Proofs.FileSystem.Edits
import VirtualShell.Proofs.Policy.Verdict
import VirtualShell.Proofs.Storage.Total

/-!
Writing a file is all or nothing, whatever calls fail but deletions: a write that does not succeed leaves everything that a
reader finds as it was. The log of a policy tells of a write just when the policy refused it, and tells it once.
-/
namespace VirtualShell
open Storing Legible
variable {places more : Set (List String)} {noted noted' : List Violation}

/-! ### Single calls -/

namespace Faulty
variable {σ α : Type} [Legible σ] {s t u : Faulty σ}

/-- A reader may find something else at the given places only, and the same calls will fail. -/
structure Passes (places : Set (List String)) (s t : Faulty σ) : Prop where
  altered : Altered places s t
  fails_eq : t.fails = s.fails
  calls_le : s.calls ≤ t.calls

theorem Passes.refl (hs : Intact s) : Passes places s s := ⟨.refl hs,rfl,le_rfl⟩

theorem Passes.trans (h : Passes places s t) (hl : Passes places t u) : Passes places s u :=
  ⟨h.altered.trans hl.altered,hl.fails_eq.trans h.fails_eq,h.calls_le.trans hl.calls_le⟩

theorem Passes.mono (h : Passes places s t) (hsub : places ⊆ more) : Passes more s t :=
  ⟨h.altered.mono hsub,h.fails_eq,h.calls_le⟩

/-- A call that fails leaves the store beneath as it was. -/
theorem attempt_passes {call : Call} {act : Storing σ α} {wanted : α → View → Prop} (hno : ¬ MayFail σ) (hs : Intact s)
    (h : act.Tries places s.store wanted) :
    (attempt call act).Ends s (Passes ∅ s) fun a t => Passes places s t ∧ wanted a (shown t) := by
  rw [Ends, on_attempt]
  by_cases hf : s.fails s.calls call = true
  · rw [if_pos hf]
    exact ⟨⟨hs,rfl,fun _ _ => rfl⟩,rfl,Nat.le_succ _⟩
  · obtain ⟨a,after,he,halt,hw⟩ := h.yields hno
    rw [if_neg hf, he]
    exact ⟨⟨⟨halt.intact,halt.setting_eq,halt.elsewhere⟩,rfl,Nat.le_succ _⟩,hw⟩

/-- A call that does not fail answers. -/
theorem attempt_isOk {call : Call} {act : Storing σ α} {wanted : α → View → Prop} (hno : ¬ MayFail σ)
    (h : act.Tries places s.store wanted) (hworks : s.fails s.calls call = false) : ((attempt call act).on s).1.isOk = true := by
  obtain ⟨a,after,he,_⟩ := h.yields hno
  rw [on_attempt, if_neg (by simp [hworks]), he]
  rfl

end Faulty

namespace FileSystem
variable {α : Type} {fs t u : FileSystem (Faulty Provider)}

/-- The checker of the policy that is in force. -/
def checker? (fs : FileSystem (Faulty Provider)) : Option Checker := fs.mount.guard?.map Guard.checker

/-- A reader may find something else at the given places only, and the log grows by what is noted. -/
structure Passes (places : Set (List String)) (noted : List Violation) (fs t : FileSystem (Faulty Provider)) : Prop where
  store : Faulty.Passes places fs.mount.store t.mount.store
  checker_eq : t.checker? = fs.checker?
  violations_eq : t.violations = fs.violations ++ noted
  cwd_eq : t.cwd = fs.cwd
  clock_eq : t.clock = fs.clock

theorem Passes.intact (h : Passes places noted fs t) : Intact t := h.store.altered.intact

theorem Passes.trans (h : Passes places noted fs t) (hl : Passes places noted' t u) : Passes places (noted ++ noted') fs u :=
  ⟨h.store.trans hl.store,hl.checker_eq.trans h.checker_eq,by rw [hl.violations_eq, h.violations_eq, List.append_assoc],
    hl.cwd_eq.trans h.cwd_eq,hl.clock_eq.trans h.clock_eq⟩

theorem Passes.mono (h : Passes places noted fs t) (hsub : places ⊆ more) : Passes more noted fs t :=
  ⟨h.store.mono hsub,h.checker_eq,h.violations_eq,h.cwd_eq,h.clock_eq⟩

theorem Passes.shown_eq (h : Passes ∅ noted fs t) (hs : Intact fs) : shown t = shown fs :=
  h.store.altered.shown_eq_of_empty hs

private theorem guard?_withStore (mount : Mount (Faulty Provider)) (store : Faulty Provider) :
    (mount.withStore store).guard? = mount.guard?.map fun guard => { guard with store } := by
  cases mount <;> rfl

/-- What passes beneath the policy is not noted. -/
theorem passes_withStore {store : Faulty Provider} (h : Faulty.Passes places fs.mount.store store) :
    Passes places [] fs { fs with mount := fs.mount.withStore store } := by
  refine ⟨by rwa [store_withStore],?_,?_,rfl,rfl⟩
  · simp [checker?, guard?_withStore, Function.comp_def]
  · simp only [violations, guard?_withStore, List.append_nil]
    cases fs.mount.guard? <;> rfl

/-- An action on the store beneath the policy. -/
theorem beneath_passes {act : Storing (Faulty Provider) α} {wanted : α → View → Prop}
    (h : act.Ends fs.mount.store (Faulty.Passes ∅ fs.mount.store)
      fun a s => Faulty.Passes places fs.mount.store s ∧ wanted a (shown s)) :
    (call (Mount.beneath act)).Ends fs (Passes ∅ [] fs) fun a t => Passes places [] fs t ∧ wanted a (shown t) := by
  have hon : (call (Mount.beneath act)).on fs =
      ((act.on fs.mount.store).1, { fs with mount := fs.mount.withStore (act.on fs.mount.store).2 }) := rfl
  rw [Ends] at h
  rw [Ends, hon]
  cases he : act.on fs.mount.store with
  | mk result store =>
    rw [he] at h
    cases result with
    | error e => exact passes_withStore h
    | ok a =>
      refine ⟨passes_withStore h.1,?_⟩
      change wanted a (shown (fs.mount.withStore store).store)
      rw [store_withStore]
      exact h.2

/-- Looking goes past the policy. -/
private theorem look_passes {act : Storing (Faulty Provider) α} {wanted : α → View → Prop}
    (h : act.Ends fs.mount.store (Faulty.Passes ∅ fs.mount.store)
      fun a s => Faulty.Passes places fs.mount.store s ∧ wanted a (shown s)) :
    (call (Mount.dispatch act (Guard.beneath act))).Ends fs (Passes ∅ [] fs)
      fun a t => Passes places [] fs t ∧ wanted a (shown t) := by
  have hon : (call (Mount.dispatch act (Guard.beneath act))).on fs = (call (Mount.beneath act)).on fs := by
    obtain ⟨mount,cwd,clock⟩ := fs
    cases mount <;> rfl
  rw [Ends, hon]
  exact beneath_passes h

theorem info_passes (hs : Intact fs) (path : String) : (call (Storage.info path)).Ends fs (Passes ∅ [] fs) fun node t =>
    Passes ∅ [] fs t ∧ node.map Node.untimed = (shown fs).node? (Path.segments path) :=
  (look_passes (Faulty.attempt_passes id hs (FallibleNodes.info path hs))).mono (fun _ h => h) fun _ _ h => ⟨h.1,h.2.2⟩

theorem read_passes (hs : Intact fs) (path : String) : (call (Storage.read path)).Ends fs (Passes ∅ [] fs) fun content t =>
    Passes ∅ [] fs t ∧ content = (shown fs).content? (Path.segments path) :=
  (look_passes (Faulty.attempt_passes id hs (FallibleNodes.read path hs))).mono (fun _ h => h) fun _ _ h => ⟨h.1,h.2.2⟩

/-- Taking a node back asks no policy, and it is done where deletions do not fail. -/
theorem takeBack_passes (hs : Intact fs) {path : String}
    (hdelete : fs.mount.store.fails fs.mount.store.calls (.delete path) = false) :
    (call (Mount.beneath (Storage.delete path))).Yields fs fun done t =>
      Passes {Path.segments path} [] fs t ∧ (shown fs).Deletes (Path.segments path) done (shown t) := by
  have hok : ((call (Mount.beneath (Storage.delete path))).on fs).1.isOk = true :=
    Faulty.attempt_isOk id (FallibleNodes.delete path hs) hdelete
  have hends : (call (Mount.beneath (Storage.delete path))).Ends fs (Passes ∅ [] fs) fun done t =>
      Passes {Path.segments path} [] fs t ∧ (shown fs).Deletes (Path.segments path) done (shown t) :=
    beneath_passes (Faulty.attempt_passes id hs (FallibleNodes.delete path hs))
  cases he : (call (Mount.beneath (Storage.delete path))).on fs with
  | mk result t =>
    rw [he] at hok
    cases result with
    | error e => simp [Except.isOk, Except.toBool] at hok
    | ok done => exact ⟨done,t,he,hends.of_ok he⟩

/--
A change either is denied, and then is noted and alters nothing, or nothing is against it, and it comes to what it comes
to on the store.
-/
theorem change_passes (hs : Intact fs) (operation : Operation) (path : String)
    (verdict : Checker → Storing (Faulty Provider) (Option Denial)) (ruling : Checker → Option Denial → Prop)
    (wanted : Bool → View → Prop) {act : Storing (Faulty Provider) Bool} {onGuarded : Storing (Guard (Faulty Provider)) Bool}
    (hguarded : ∀ guard, onGuarded.on guard = (Guard.ruled operation path (verdict guard.checker) act).on guard)
    (hverdict : ∀ checker, (verdict checker).Ends fs.mount.store (Faulty.Passes ∅ fs.mount.store) fun denial s =>
      Faulty.Passes ∅ fs.mount.store s ∧ ruling checker denial)
    (hact : ∀ s, Faulty.Passes ∅ fs.mount.store s → act.Ends s (Faulty.Passes ∅ s) fun done u =>
      Faulty.Passes places s u ∧ wanted done (shown u)) :
    (call (Mount.dispatch act onGuarded)).Ends fs (Passes ∅ [] fs) fun done t =>
      (∃ checker denial, fs.checker? = some checker ∧ ruling checker (some denial) ∧ done = false ∧
        Passes ∅ [⟨operation,path,denial⟩] fs t) ∨
      (∀ checker, fs.checker? = some checker → ruling checker none) ∧ Passes places [] fs t ∧ wanted done (shown t) := by
  obtain ⟨mount,cwd,clock⟩ := fs
  cases mount with
  | plain store =>
    have hstore := hact store (.refl hs)
    have hon : (call (Mount.dispatch act onGuarded)).on ⟨.plain store,cwd,clock⟩ =
        ((act.on store).1, ⟨.plain (act.on store).2,cwd,clock⟩) := rfl
    rw [Ends] at hstore ⊢
    rw [hon]
    cases he : act.on store with
    | mk result after =>
      rw [he] at hstore
      cases result with
      | error e => exact passes_withStore hstore
      | ok done =>
        refine .inr ⟨fun checker hc => ?_,passes_withStore hstore.1,hstore.2⟩
        cases hc
  | guarded guard =>
    have hlook := hverdict guard.checker
    have hon : (call (Mount.dispatch act onGuarded)).on ⟨.guarded guard,cwd,clock⟩ =
        ((onGuarded.on guard).1, ⟨.guarded (onGuarded.on guard).2,cwd,clock⟩) := rfl
    rw [Ends, hon, hguarded]
    cases hv : (verdict guard.checker).on guard.store with
    | mk result seen =>
      cases result with
      | error e =>
        rw [Guard.on_ruled_error hv]
        exact passes_withStore (hlook.of_error hv)
      | ok denial =>
        obtain ⟨hseen,hruling⟩ := hlook.of_ok hv
        cases denial with
        | some denial =>
          rw [Guard.on_ruled_denied hv]
          exact .inl ⟨_,denial,rfl,hruling,rfl,⟨hseen,rfl,rfl,rfl,rfl⟩⟩
        | none =>
          have hstore := hact seen hseen
          rw [Ends] at hstore
          rw [Guard.on_ruled_allowed hv]
          cases he : act.on seen with
          | mk result after =>
            rw [he] at hstore
            cases result with
            | error e => exact passes_withStore (hseen.trans hstore)
            | ok done =>
              refine .inr ⟨?_,passes_withStore ((hseen.mono (Set.empty_subset _)).trans hstore.1),hstore.2⟩
              intro checker hc
              obtain rfl := Option.some.inj hc
              exact hruling

/-! ### What the policy has against a change -/

/-- What the path rules of the policy in force have against a path. -/
def pathDenial (fs : FileSystem (Faulty Provider)) (path : String) : Option Denial :=
  fs.checker?.bind fun checker => checker.checkPath path

/-- What its size rules have against `new` bytes in place of `existing` ones of a `total`. -/
def sizeDenial (fs : FileSystem (Faulty Provider)) (new existing total : Nat) : Option Denial :=
  fs.checker?.bind fun checker => checker.checkSize new existing total

end FileSystem

private theorem stats_tries {store : Provider} (hs : Intact store) : (Storage.stats : Storing Provider StorageStats).Tries ∅ store
    fun stats after => after = shown store ∧ (shown store).Reports stats.bytes := by
  obtain ⟨stats,after,hon,halt,hshown⟩ := (FallibleNodes.stats hs).yields id
  obtain ⟨stats',after',hon',_,hmeasures⟩ := LawfulNodes.stats hs
  obtain ⟨rfl,rfl⟩ : stats = stats' ∧ after = after' := by simpa [hon] using hon'
  exact .of_on hon halt ⟨hshown,hmeasures.reports⟩

/-- The verdict on a write is that of the path rules, then of the size rules on the numbers that the store reports. -/
theorem Checker.verdict_passes (checker : Checker) {store : Faulty Provider} (hs : Intact store) (path : String) (new : Nat) :
    (checker.verdict path new).Ends store (Faulty.Passes ∅ store) fun denial s => Faulty.Passes ∅ store s ∧
      ∃ total, (shown store).Reports total ∧
        denial = (checker.checkPath path).or (checker.checkSize new ((shown store).sizeAt (Path.segments path)) total) := by
  have hreports : (shown store).Reports (shown store).total := ⟨le_rfl,rfl⟩
  rw [verdict]
  split
  · rename_i denial hdenial
    exact .pure ⟨.refl hs,_,hreports,by rw [hdenial, Option.some_or]⟩
  · rename_i hallowed
    rw [hallowed]
    simp only [Option.none_or]
    refine Ends.bind (Faulty.attempt_passes id hs (FallibleNodes.info path hs)) ?_
    rintro node seen ⟨hseen,hview,hnode⟩
    have hview : shown seen = shown store := hview
    have hsize : ((node.bind Node.size).getD 0).toNat = (shown store).sizeAt (Path.segments path) := View.sizeAt_eq hnode
    dsimp only
    rw [hsize]
    have hmeasured := checker.checkSize_measured new ((shown store).sizeAt (Path.segments path))
    split
    · rename_i hscan
      refine Ends.bind ((Faulty.attempt_passes id hseen.altered.intact (stats_tries hseen.altered.intact)).mono
        (fun _ h => hseen.trans h) fun _ _ h => h) ?_
      rintro stats last ⟨hlast,_,hstats⟩
      exact .pure ⟨hseen.trans hlast,stats.bytes,hview ▸ hstats,rfl⟩
    · rename_i hscan
      refine .pure ⟨hseen,_,hreports,?_⟩
      rw [← hmeasured (shown store).total, if_neg hscan]

namespace FileSystem
variable {fs t : FileSystem (Faulty Provider)} {dir names : List String} {name : String}

theorem create_passes (hs : Intact fs) (hnamed : Path.Named (dir ++ [name])) (now : Timestamp) :
    (call (Storage.create (.new now name false (Path.ofSegments dir)))).Ends fs (Passes ∅ [] fs) fun done t =>
      (∃ denial, fs.pathDenial (Path.ofSegments (dir ++ [name])) = some denial ∧ done = false ∧
        Passes ∅ [⟨.create,Path.ofSegments (dir ++ [name]),denial⟩] fs t) ∨
      fs.pathDenial (Path.ofSegments (dir ++ [name])) = none ∧ Passes {dir ++ [name]} [] fs t ∧
        (done = true ↔ (shown fs).Vacant (dir ++ [name])) ∧
        shown t = if done then (shown fs).set (dir ++ [name]) (some (.file "")) else shown fs := by
  have hpath : (Node.new now name false (Path.ofSegments dir)).path = Path.ofSegments (dir ++ [name]) := by
    obtain ⟨hdir,hname⟩ := Path.named_concat.mp hnamed
    rw [Node.path, Node.new, Path.name_nonempty hname]
    exact Path.join_ofSegments hdir hname
  have hcreate (s : Faulty Provider) (hpass : Faulty.Passes ∅ fs.mount.store s) :
      (Storage.create (.new now name false (Path.ofSegments dir)) : Storing (Faulty Provider) Bool).Ends s (Faulty.Passes ∅ s)
        fun done u => Faulty.Passes {dir ++ [name]} s u ∧ (done = true ↔ (shown fs).Vacant (dir ++ [name])) ∧
          shown u = if done then (shown fs).set (dir ++ [name]) (some (.file "")) else shown fs := by
    have hsame : shown s.store = shown fs := hpass.altered.shown_eq_of_empty hs
    have htries := FallibleNodes.create (σ := Provider) _ hpass.altered.intact (Node.sized_new now name false (Path.ofSegments dir))
    rw [Node.segments_path_new hnamed] at htries
    refine (Faulty.attempt_passes id hpass.altered.intact htries).mono (fun _ h => h) ?_
    rintro done u ⟨hu,hdone,hafter⟩
    rw [View.canCreate_new_iff hnamed, hsame] at hdone
    rw [Node.target_new hnamed, hsame] at hafter
    exact ⟨hu,hdone,hafter⟩
  refine (change_passes hs .create (Path.ofSegments (dir ++ [name]))
    (fun checker => return checker.checkPath (Path.ofSegments (dir ++ [name])))
    (fun checker denial => denial = checker.checkPath (Path.ofSegments (dir ++ [name])))
    (fun done after => (done = true ↔ (shown fs).Vacant (dir ++ [name])) ∧
      after = if done then (shown fs).set (dir ++ [name]) (some (.file "")) else shown fs)
    (fun guard => hpath ▸ Guard.on_create _ guard) (fun checker => .pure ⟨.refl hs,rfl⟩) hcreate).mono (fun _ h => h) ?_
  rintro done t (⟨checker,denial,hchecker,hdenial,hdone,hpass⟩ | ⟨hallowed,hpass,hwanted⟩)
  · exact .inl ⟨denial,by rw [pathDenial, hchecker, hdenial]; rfl,hdone,hpass⟩
  · refine .inr ⟨?_,hpass,hwanted⟩
    rw [pathDenial, Option.bind_eq_none_iff]
    exact fun checker hc => (hallowed checker hc).symm

theorem rewrite_passes (hs : Intact fs) {full : String} (hfull : Path.normalize full = full) (now : Timestamp) (content : String) :
    (call (Storage.write now full content)).Ends fs (Passes ∅ [] fs) fun done t => ∃ total, (shown fs).Reports total ∧
      let denial := (fs.pathDenial full).or (fs.sizeDenial content.utf8ByteSize ((shown fs).sizeAt (Path.segments full)) total)
      ((∃ reason, denial = some reason ∧ done = false ∧ Passes ∅ [⟨.write,full,reason⟩] fs t) ∨
        denial = none ∧ Passes {Path.segments full} [] fs t ∧ (shown fs).Writes (Path.segments full) content done (shown t)) := by
  have hwrite (s : Faulty Provider) (hpass : Faulty.Passes ∅ fs.mount.store s) :
      (Storage.write now full content : Storing (Faulty Provider) Bool).Ends s (Faulty.Passes ∅ s) fun done u =>
        Faulty.Passes {Path.segments full} s u ∧ (shown fs).Writes (Path.segments full) content done (shown u) := by
    have hsame : shown s.store = shown fs := hpass.altered.shown_eq_of_empty hs
    rw [← hsame]
    exact Faulty.attempt_passes id hpass.altered.intact (FallibleNodes.write now full content hpass.altered.intact)
  refine (change_passes hs .write full (fun checker => checker.verdict full content.utf8ByteSize)
    (fun checker denial => ∃ total, (shown fs).Reports total ∧ denial = (checker.checkPath full).or
      (checker.checkSize content.utf8ByteSize ((shown fs).sizeAt (Path.segments full)) total))
    ((shown fs).Writes (Path.segments full) content)
    (fun guard => by have hon := Guard.on_write now full content guard; rwa [hfull] at hon)
    (fun checker => checker.verdict_passes hs full _) hwrite).mono (fun _ h => h) ?_
  rintro done t (⟨checker,denial,hchecker,⟨total,hreports,hdenial⟩,hdone,hpass⟩ | ⟨hallowed,hpass,hwanted⟩)
  · exact ⟨total,hreports,.inl ⟨denial,by rw [pathDenial, sizeDenial, hchecker, hdenial]; rfl,hdone,hpass⟩⟩
  · cases hchecker : fs.checker? with
    | none => exact ⟨_,⟨le_rfl,rfl⟩,.inr ⟨by rw [pathDenial, sizeDenial, hchecker]; rfl,hpass,hwanted⟩⟩
    | some checker =>
      obtain ⟨total,hreports,hnone⟩ := hallowed checker hchecker
      exact ⟨total,hreports,.inr ⟨by rw [pathDenial, sizeDenial, hchecker, hnone]; rfl,hpass,hwanted⟩⟩

/-! ### A whole write -/

/--
What the policy in force notes of a write, given what stands at its path: a file is written over, and a missing file is
created before it is written, if its directory is there.
-/
def refusal (fs : FileSystem (Faulty Provider)) (full : String) (new total : Nat) : Option Violation :=
  match shown fs (Path.segments full) with
  | some .dir => none
  | some (.file _) =>
    ((fs.pathDenial full).or (fs.sizeDenial new ((shown fs).sizeAt (Path.segments full)) total)).map (⟨.write,full,·⟩)
  | none => ((fs.pathDenial full).map (⟨.create,full,·⟩)).or
      (if shown fs (Path.segments full).dropLast = some .dir then (fs.sizeDenial new 0 total).map (⟨.write,full,·⟩) else none)

/-- A write that succeeds was not refused and leaves the content; one that does not leaves everything, and a note if refused. -/
def Wrote (fs : FileSystem (Faulty Provider)) (full content : String) (done : Bool) (t : FileSystem (Faulty Provider)) : Prop :=
  ∃ total, (shown fs).Reports total ∧
    if done then fs.refusal full content.utf8ByteSize total = none ∧ Passes {Path.segments full} [] fs t ∧
      shown t (Path.segments full) = some (.file content)
    else Passes ∅ (fs.refusal full content.utf8ByteSize total).toList fs t

variable {u v : FileSystem (Faulty Provider)} {full content : String}

theorem Passes.pathDenial_eq (h : Passes places noted fs t) (path : String) : t.pathDenial path = fs.pathDenial path := by
  rw [pathDenial, pathDenial, h.checker_eq]

theorem Passes.sizeDenial_eq (h : Passes places noted fs t) : t.sizeDenial = fs.sizeDenial := by
  funext new existing total
  rw [sizeDenial, sizeDenial, h.checker_eq]

/-- What is written after a look is written from where the look was taken. -/
theorem Wrote.after_look (h : Wrote t full content done u) (hlook : Passes ∅ [] fs t) (hs : Intact fs) :
    Wrote fs full content done u := by
  have hview := hlook.shown_eq hs
  have hrefusal (new total : Nat) : t.refusal full new total = fs.refusal full new total := by
    rw [refusal, refusal, hview, hlook.pathDenial_eq, hlook.sizeDenial_eq]
  obtain ⟨total,hreports,hwrote⟩ := h
  refine ⟨total,hview ▸ hreports,?_⟩
  rw [hrefusal] at hwrote
  split
  · rw [if_pos ‹_›] at hwrote
    exact ⟨hwrote.1,(hlook.mono (Set.empty_subset _)).trans hwrote.2.1,hwrote.2.2⟩
  · rw [if_neg ‹_›] at hwrote
    exact hlook.trans hwrote

/-- Where nothing stood and nothing stands, nothing was altered. -/
theorem Passes.narrow (h : Passes {names} noted fs t) (hs : Intact fs) (hbefore : shown fs names = none)
    (hafter : shown t names = none) : Passes ∅ noted fs t := by
  refine ⟨⟨h.store.altered.of_none hs ?_,h.store.fails_eq,h.store.calls_le⟩,h.checker_eq,h.violations_eq,h.cwd_eq,h.clock_eq⟩
  rintro _ rfl _
  exact ⟨hbefore,hafter⟩

end FileSystem

/-- From now on no deletion fails. -/
def Faulty.DeletionsWork (faulty : Faulty Provider) : Prop :=
  ∀ n path, faulty.calls ≤ n → faulty.fails n (.delete path) = false

theorem Faulty.DeletionsWork.later {s t : Faulty Provider} (h : s.DeletionsWork) (hpass : Passes places s t) : t.DeletionsWork :=
  fun n path hn => by rw [hpass.fails_eq]; exact h n path (hpass.calls_le.trans hn)

/-- A failure that is caught is an answer. -/
theorem Storing.Ends.caught {σ α : Type} {act : Storing σ α} {s : σ} {failed : σ → Prop} {wanted : α → σ → Prop}
    (h : act.Ends s failed wanted) : act.caught.Yields s fun result t =>
      match result with
      | .ok a => wanted a t
      | .error _ => failed t := by
  cases he : act.on s with
  | mk result t =>
    refine .of_on (by rw [on_caught, he]) ?_
    cases result with
    | error e => exact h.of_error he
    | ok a => exact h.of_ok he

/-- What follows an action that answers. -/
theorem Storing.Yields.bind_ends {σ α β : Type} {act : Storing σ α} {f : α → Storing σ β} {s : σ} {failed : σ → Prop}
    {wanted : α → σ → Prop} {later : β → σ → Prop} (h : act.Yields s wanted)
    (hf : ∀ a t, wanted a t → (f a).Ends t failed later) : (act >>= f).Ends s failed later := by
  obtain ⟨a,t,he,hw⟩ := h
  exact .bind_ok he (hf a t hw)

namespace FileSystem
variable {fs t : FileSystem (Faulty Provider)} {full content : String}

/-- A file that stands is written over, or it stays. -/
private theorem fill_over (hs : Intact fs) (hfull : Path.normalize full = full) {old : String}
    (hold : shown fs (Path.segments full) = some (.file old)) :
    (fill false full content).Ends fs (Passes ∅ [] fs) (Wrote fs full content) := by
  have hrefusal (total : Nat) : fs.refusal full content.utf8ByteSize total = ((fs.pathDenial full).or
      (fs.sizeDenial content.utf8ByteSize ((shown fs).sizeAt (Path.segments full)) total)).map (⟨.write,full,·⟩) := by
    rw [refusal, hold]
  refine .get_bind ((rewrite_passes hs hfull fs.clock content).caught.bind_ends fun result t ht => ?_)
  rcases result with e | _ | _
  · exact .throw ht
  · obtain ⟨total,hreports,⟨reason,hreason,_,hpass⟩ | ⟨_,_,hdone,_⟩⟩ := ht
    · refine .pure ⟨total,hreports,?_⟩
      rw [hrefusal, hreason]
      exact hpass
    · exact absurd (hdone.mpr ⟨old,hold⟩) (by simp)
  · obtain ⟨total,hreports,⟨_,_,hno,_⟩ | ⟨hallowed,hpass,_,hafter⟩⟩ := ht
    · exact absurd hno (by simp)
    · refine .pure ⟨total,hreports,by rw [hrefusal, hallowed]; rfl,hpass,?_⟩
      rw [hafter, if_pos rfl, View.set_self]

/-- The file that was created for the write is taken back, and then nothing has been altered. -/
private theorem takeBack_restores {noted : List Violation} (hs : Intact fs) (hdelete : fs.mount.store.DeletionsWork)
    (hbefore : shown fs (Path.segments full) = none) (hpass : Passes {Path.segments full} noted fs t)
    (hfile : (shown t).IsFile (Path.segments full)) :
    (call (Mount.beneath (Storage.delete full))).Yields t fun _ u => Passes ∅ noted fs u := by
  refine (takeBack_passes hpass.intact (hdelete.later hpass.store _ _ le_rfl)).mono fun done u ⟨hback,hdone,hafter⟩ => ?_
  have hgone : shown u (Path.segments full) = none := by
    rw [hafter, if_pos (hdone.mpr (hfile.canDelete (wellFormed hpass.intact))), View.set_self]
  have hwhole := hpass.trans hback
  rw [List.append_nil] at hwhole
  exact hwhole.narrow hs hbefore hgone

/-- A file that was created for the write is written, or it goes again. -/
private theorem fill_new (hs : Intact fs) (hfull : Path.normalize full = full) (hdelete : fs.mount.store.DeletionsWork)
    (hvacant : (shown fs).Vacant (Path.segments full)) (hallowed : fs.pathDenial full = none)
    (hpass : Passes {Path.segments full} [] fs t)
    (hempty : shown t = (shown fs).set (Path.segments full) (some (.file ""))) :
    (fill true full content).Ends t (Passes ∅ [] fs) (Wrote fs full content) := by
  have hfile : (shown t).IsFile (Path.segments full) := ⟨"",by rw [hempty, View.set_self]⟩
  have hsize : (shown t).sizeAt (Path.segments full) = 0 := by
    rw [View.sizeAt, hempty, View.bytesAt, View.set_self]
    rfl
  have htotal : (shown t).total = (shown fs).total := by
    have hset := (wellFormed hs).total_set (Path.segments full) (some (.file ""))
    rw [← hempty] at hset
    simpa [View.bytesAt, hvacant.2.1, Item.bytes] using hset
  have hrefusal (total : Nat) : fs.refusal full content.utf8ByteSize total =
      (fs.sizeDenial content.utf8ByteSize 0 total).map (⟨.write,full,·⟩) := by
    rw [refusal, hvacant.2.1, hallowed, if_pos hvacant.2.2]
    rfl
  refine .get_bind ((rewrite_passes hpass.intact hfull t.clock content).caught.bind_ends fun result u hu => ?_)
  simp only [hpass.pathDenial_eq, hpass.sizeDenial_eq, hallowed, hsize, Option.none_or, View.Reports, htotal] at hu
  rcases result with e | _ | _
  · have hfile' : (shown u).IsFile (Path.segments full) := by rwa [hu.shown_eq hpass.intact]
    have hboth := hpass.trans (hu.mono (Set.empty_subset _))
    refine (takeBack_restores hs hdelete hvacant.2.1 hboth hfile').caught.bind_ends fun _ v hv => ?_
    obtain ⟨_,_,hv⟩ := hv
    exact .throw hv
  · obtain ⟨total,hreports,⟨reason,hreason,_,hnote⟩ | ⟨_,_,hdone,_⟩⟩ := hu
    · have hfile' : (shown u).IsFile (Path.segments full) := by rwa [hnote.shown_eq hpass.intact]
      have hboth := hpass.trans (hnote.mono (Set.empty_subset _))
      refine (takeBack_restores hs hdelete hvacant.2.1 hboth hfile').bind_ends fun _ v hv => .pure ⟨total,hreports,?_⟩
      rw [hrefusal, hreason]
      exact hv
    · exact absurd (hdone.mpr hfile) (by simp)
  · obtain ⟨total,hreports,⟨_,_,hno,_⟩ | ⟨hnone,hwrite,_,hafter⟩⟩ := hu
    · exact absurd hno (by simp)
    · refine .pure ⟨total,hreports,by rw [hrefusal, hnone]; rfl,hpass.trans hwrite,?_⟩
      rw [hafter, if_pos rfl, View.set_self]

theorem write_passes (hs : Intact fs) (hdelete : fs.mount.store.DeletionsWork) (path content : String) :
    (write path content).Ends fs (Passes ∅ [] fs) (Wrote fs (fs.resolve path) content) := by
  have hfull : Path.normalize (fs.resolve path) = fs.resolve path := Path.normalize_resolve _ _
  have hreports : (shown fs).Reports (shown fs).total := ⟨le_rfl,rfl⟩
  refine .get_bind ((info_passes hs _).bind fun found t ⟨hlook,hfound⟩ => ?_)
  have hview := hlook.shown_eq hs
  cases found with
  | some node =>
    have hdir := View.any_isDir_iff hfound
    rw [Option.any_some] at hdir
    dsimp only
    split
    · rename_i hd
      refine .pure ⟨_,hreports,?_⟩
      rw [refusal, hdir.mp hd]
      exact hlook
    · rename_i hd
      obtain ⟨old,hold⟩ : ∃ old, shown t (Path.segments (fs.resolve path)) = some (.file old) := by
        obtain ⟨item,hitem,_⟩ := Option.map_eq_some_iff.mp hfound.symm
        rw [hview]
        cases item with
        | dir => exact absurd (hdir.mpr hitem) hd
        | file old => exact ⟨old,hitem⟩
      exact (fill_over hlook.intact hfull hold).mono (fun u hu => hlook.trans hu) fun _ _ h => h.after_look hlook hs
  | none =>
    have hnone : shown fs (Path.segments (fs.resolve path)) = none := Option.map_eq_none_iff.mp hfound.symm
    obtain ⟨dir,name,hpath⟩ : ∃ dir name, Path.segments (fs.resolve path) = dir ++ [name] := by
      rcases List.eq_nil_or_concat (Path.segments (fs.resolve path)) with hnil | ⟨dir,name,hconcat⟩
      · exact absurd (hnil ▸ hnone) (by rw [(wellFormed hs).root]; simp)
      · exact ⟨dir,name,by rw [hconcat, List.concat_eq_append]⟩
    have hnamed : Path.Named (dir ++ [name]) := hpath ▸ Path.named_segments _
    have hname : fs.resolve path = Path.ofSegments (dir ++ [name]) := by rw [← hpath, ← resolve_eq]
    have hroot : ¬ (fs.resolve path == "/") = true := by
      rw [beq_iff_eq, resolve_eq_root_iff, hpath]
      simp
    have hrefusal (total : Nat) : fs.refusal (fs.resolve path) content.utf8ByteSize total =
        ((fs.pathDenial (fs.resolve path)).map (⟨.create,fs.resolve path,·⟩)).or
          (if shown fs (Path.segments (fs.resolve path)).dropLast = some .dir then
            (fs.sizeDenial content.utf8ByteSize 0 total).map (⟨.write,fs.resolve path,·⟩) else none) := by
      rw [refusal, hnone]
    dsimp only
    rw [if_neg hroot, Node.forPath_eq hpath]
    have hcreate := create_passes hlook.intact hnamed fs.clock
    rw [hlook.pathDenial_eq, hview, ← hpath, ← resolve_eq] at hcreate
    refine (hcreate.mono (fun _ h => hlook.trans h) fun _ _ h => h).bind fun created u hu => ?_
    rcases hu with ⟨denial,hdenial,rfl,hnote⟩ | ⟨hallowed,hpass,hdone,hafter⟩
    · refine .pure ⟨_,hreports,?_⟩
      rw [hrefusal, hdenial]
      exact hlook.trans hnote
    have hboth := (hlook.mono (Set.empty_subset _)).trans hpass
    cases created with
    | true => exact fill_new hs hfull hdelete (hdone.mp rfl) hallowed hboth hafter
    | false =>
      have hno : ¬ shown fs (Path.segments (fs.resolve path)).dropLast = some .dir := fun hdir =>
        absurd (hdone.mpr ⟨by rw [hpath]; simp,hnone,hdir⟩) (by simp)
      refine .pure ⟨_,hreports,?_⟩
      rw [hrefusal, hallowed, if_neg hno]
      exact hboth.narrow hs hnone (by rw [hafter]; exact hnone)

/-! ### All or nothing -/

/--
What a reader finds after a write, and what the log then tells: everything is as it was, or the write succeeded, the content
is there and everything else is as it was; and the log has one note more just if the policy refused the write.
-/
structure AllOrNothing (fs : FileSystem (Faulty Provider)) (full content : String)
    (outcome : Except StorageError Bool × FileSystem (Faulty Provider)) : Prop where
  nothing : outcome.1 ≠ .ok true → ∀ other, outcome.2.sight other = fs.sight other
  all : outcome.1 = .ok true → (outcome.2.sight full).2 = .ok (some content) ∧
    ∀ other, Path.segments other ≠ Path.segments full → outcome.2.sight other = fs.sight other
  noted : ∃ total, (shown fs).Reports total ∧
    (outcome.1 = .ok true → fs.refusal full content.utf8ByteSize total = none) ∧
    outcome.2.violations = fs.violations ++
      if outcome.1 = .ok false then (fs.refusal full content.utf8ByteSize total).toList else []

private theorem allOrNothing {act : Filing (Faulty Provider) Bool}
    (h : act.Ends fs (Passes ∅ [] fs) (Wrote fs full content)) : AllOrNothing fs full content (act.on fs) := by
  have hreports : (shown fs).Reports (shown fs).total := ⟨le_rfl,rfl⟩
  have hsame {noted : List Violation} {t : FileSystem (Faulty Provider)} (hpass : Passes ∅ noted fs t) (other : String) :
      t.sight other = fs.sight other := hpass.store.altered.elsewhere other (Set.notMem_empty _)
  cases he : act.on fs with
  | mk result t =>
    rcases result with e | _ | _
    · have hpass := h.of_error he
      exact ⟨fun _ => hsame hpass,nofun,_,hreports,nofun,hpass.violations_eq⟩
    · obtain ⟨total,hreports,hpass⟩ := h.of_ok he
      exact ⟨fun _ => hsame hpass,nofun,total,hreports,nofun,hpass.violations_eq⟩
    · obtain ⟨total,hreports,hallowed,hpass,hcontent⟩ := h.of_ok he
      refine ⟨fun hno => absurd rfl hno,fun _ => ⟨?_,fun other hne => hpass.store.altered.elsewhere other hne⟩,
        total,hreports,fun _ => hallowed,hpass.violations_eq⟩
      exact (content_eq hpass.intact full).trans (by rw [View.content?_eq_some_iff.mpr hcontent])

/--
Under any policy or none, and whatever calls fail but deletions, a write that does not succeed leaves everything as it was,
and one that succeeds leaves its content at its path and everything else as it was. So it is with adding to a file, where
the content is what was there, if anything, with the new text after it. The policy's log tells of it once if the policy
refused the path or the size, and else not.
-/
theorem write_allOrNothing (hfs : Reached Faulty.Ready fs) (hdelete : fs.mount.store.DeletionsWork) (path content : String) :
    AllOrNothing fs (fs.resolve path) content ((write path content).on fs) ∧
    ∃ old, (fs.sight (fs.resolve path)).2 = .ok old ∧
      AllOrNothing fs (fs.resolve path) (old.getD "" ++ content) ((append path content).on fs) := by
  have hs := hfs.intact_faulty
  refine ⟨allOrNothing (write_passes hs hdelete path content),_,content_eq hs _,allOrNothing ?_⟩
  have hread : (read path).Ends fs (Passes ∅ [] fs) fun old t =>
      Passes ∅ [] fs t ∧ old = (shown fs).content? (Path.segments (fs.resolve path)) := .get_bind (read_passes hs _)
  refine hread.bind fun old t ⟨hlook,hold⟩ => ?_
  rw [← hold]
  have hsame : t.resolve path = fs.resolve path := by rw [resolve, resolve, hlook.cwd_eq]
  have hwrite := write_passes hlook.intact (hdelete.later hlook.store) path (old.getD "" ++ content)
  rw [hsame] at hwrite
  exact hwrite.mono (fun _ h => hlook.trans h) fun _ _ h => h.after_look hlook hs

/-- A new file that is too large is refused and taken back, and so is one that cannot be written. -/
theorem write_takes_back :
    let fails (_ : Nat) (call : Call) : Bool := call == .write "/g"
    let policy : Policy := { Policy.unrestricted with maxFileSize := 3 }
    let fs := ((applyPolicy policy).on (opening (⟨.tree Tree.empty,"",0,fails⟩ : Faulty Provider))).2
    let large := (write "/f" "large").on fs
    let broken := (write "/g" "g").on fs
    Reached Faulty.Ready fs ∧ fs.mount.store.DeletionsWork ∧
      large.1 = .ok false ∧ (∀ other, large.2.sight other = fs.sight other) ∧
      large.2.violations = [⟨.write,"/f",.fileTooLarge⟩] ∧
      broken.1 = .error (.backend "write_file failed") ∧ (∀ other, broken.2.sight other = fs.sight other) ∧
      broken.2.violations = [] := by
  intro fails policy fs large broken
  have hopens : (open_ 0 (⟨.tree Tree.empty,"",0,fails⟩ : Faulty Provider)).isOk = true := by decide +kernel
  have hready : Reached Faulty.Ready fs := .policed policy (.opening Provider.Ready.tree hopens)
  have hkind : Reached (fun store => store.fails = fails) fs := .policed policy (.opening rfl hopens)
  have hdelete : fs.mount.store.DeletionsWork := fun n path _ => by
    rw [hkind.fails_eq]
    simp [fails]
  have hlarge : large.1 = .ok false := by decide +kernel
  have hbroken : broken.1 = .error (.backend "write_file failed") := by decide +kernel
  exact ⟨hready,hdelete,hlarge,(write_allOrNothing hready hdelete "/f" "large").1.nothing (by rw [hlarge]; simp),by decide +kernel,
    hbroken,(write_allOrNothing hready hdelete "/g" "g").1.nothing (by rw [hbroken]; simp),by decide +kernel⟩

end FileSystem
end VirtualShell
