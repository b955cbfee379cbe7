import Mathlib.Data.List.DropRight
import VirtualShell.Proofs.Policy.Delegation
import VirtualShell.Proofs.Policy.Log
import VirtualShell.Proofs.Storage.Fallible

/-!
Policies replace one another. Whatever is done to a file system and however often it is put under policies, the store that it
was opened over is under the last policy that took effect and under no other, and a policy that does not compile changes nothing.
-/
namespace VirtualShell
open Storing Viewed Legible

/-! ### Stores after calls of their own -/

namespace Storage.Operation
variable {σ : Type} [Storage σ] {base : σ}

/-- A store to which calls have been made and nothing else. -/
def Played (base store : σ) : Prop := ∃ calls, store = play calls base

private theorem Played.call {store : σ} (h : Played base store) (now : Timestamp) (call : Operation) :
    Played base (call.after now store) := by
  obtain ⟨calls,rfl⟩ := h
  exact ⟨calls ++ [(now,call)],by rw [play, play, List.foldl_append]; rfl⟩

private theorem played_call {α : Type} {act : Storing σ α} (now : Timestamp) (call : Operation)
    (h : ∀ store, (act.on store).2 = call.after now store) : Preserves (Played base) act := fun store hs => by
  rw [h]
  exact hs.call now call

theorem keeps_played : Storage.Keeps (Played base) where
  info path := played_call 0 (.info path) fun _ => by rw [after, run, on_map]
  create node _ := played_call 0 (.create node) fun _ => by rw [after, run, on_map]
  list path := played_call 0 (.list path) fun _ => by rw [after, run, on_map]
  write now path content := played_call now (.write path content) fun _ => by rw [after, run, on_map]
  read path := played_call 0 (.read path) fun _ => by rw [after, run, on_map]
  touch now path := played_call now (.touch path) fun _ => by rw [after, run, on_map]
  stats := played_call 0 .stats fun _ => by rw [after, run, on_map]
  delete path := played_call 0 (.delete path) fun _ => by rw [after, run, on_map]

theorem cleanup_played : Preserves (Played base) (Storage.cleanup : Storing σ CleanupStats) :=
  played_call 0 .cleanup fun _ => by rw [after, run, on_map]

theorem played_setUp (now : Timestamp) : Played base ((Storage.setUp now).on base).2 :=
  ⟨[(now,.setUp)],by rw [play, List.foldl_cons, List.foldl_nil, after, run, on_map]⟩

end Storage.Operation

namespace Provider
open Storage

/-- A call leaves a store under its name. -/
private theorem name_run (now : Timestamp) (call : Storage.Operation) (name : String) :
    (call.run now : Storing Provider Unit).Preserves fun store => Storage.name store = name := by
  intro store h
  cases store with
  | tree store | table store | objects store => cases call <;> simp only [Storage.Operation.run, on_map] <;> exact h
  | faulty store =>
    have hattempt {α : Type} (call : Call) (act : Storing Tree α) : ((Faulty.attempt call act).on store).2.name = store.name := by
      rw [Faulty.on_attempt]
      split <;> rfl
    cases call <;> simp only [Storage.Operation.run, on_map] <;> exact (hattempt _ _).trans h

theorem name_of_played {base store : Provider} (h : Storage.Operation.Played base store) :
    Storage.name store = Storage.name base := by
  obtain ⟨calls,rfl⟩ := h
  exact Storage.Operation.play_preserves (fun now call => name_run now call _) calls rfl

end Provider

/-! ### Missing directories -/

/-- A reader finds new directories at some of the places, where nothing was before, and everything else as it was, times included. -/
structure Grown {σ : Type} [Legible σ] (places : Set (List String)) (s t : σ) : Prop where
  intact : Intact t
  sights_eq : ∀ path, sights path t = sights path s ∨
    Path.segments path ∈ places ∧ shown s (Path.segments path) = none ∧ shown t (Path.segments path) = some .dir

namespace Grown
variable {σ : Type} [Legible σ] {places : Set (List String)} {s t u : σ} {path : String}

theorem refl (h : Intact s) : Grown places s s := ⟨h,fun _ => .inl rfl⟩

theorem trans (hs : Intact s) (h : Grown places s t) (hl : Grown places t u) : Grown places s u := by
  refine ⟨hl.intact,fun path => ?_⟩
  rcases h.sights_eq path with hfirst | ⟨hplace,hnone,hdir⟩ <;> rcases hl.sights_eq path with hlater | ⟨hplace',hnone',hdir'⟩
  · exact .inl (hlater.trans hfirst)
  · exact .inr ⟨hplace',(Legible.shown_eq hs h.intact hfirst).symm.trans hnone',hdir'⟩
  · exact .inr ⟨hplace,hnone,(Legible.shown_eq h.intact hl.intact hlater).trans hdir⟩
  · exact absurd (hdir.symm.trans hnone') (by simp)

theorem of_altered (h : Altered ∅ s t) : Grown places s t := ⟨h.intact,fun path => .inl (h.elsewhere path (Set.notMem_empty _))⟩

/-- To create a directory where there is nothing adds it or leaves nothing there. -/
theorem of_creates {node : Node} {done : Bool} (hs : Intact s) (halt : Altered {Path.segments node.path} s t)
    (hcreates : (shown s).Creates node done (shown t)) (hdir : node.isDir = true) (hplace : Path.segments node.path ∈ places)
    (hfree : shown s (Path.segments node.path) = none) : Grown places s t := by
  refine ⟨halt.intact,fun path => ?_⟩
  by_cases hpath : Path.segments path = Path.segments node.path
  · rw [hpath]
    obtain ⟨hdone,hafter⟩ := hcreates
    cases done with
    | true =>
      refine .inr ⟨hplace,hfree,?_⟩
      rw [hafter, if_pos rfl, node.segments_path (hdone.mp rfl).1, View.set_self, hdir]
      rfl
    | false =>
      rw [← hpath] at hfree
      have hleft : shown t (Path.segments path) = none := by rw [hafter, if_neg (by simp), hfree]
      exact .inl (by rw [sights_of_none halt.intact hleft, sights_of_none hs hfree])
  · exact .inl (halt.elsewhere path hpath)

end Grown

namespace Storage
variable {σ : Type} [Storage σ] [FallibleNodes σ] {places : Set (List String)} {start s : σ}

/-- The directories on the way down are created where they are missing. -/
private theorem createDirs_grows (hsteady : ¬ MayFail σ) (hstart : Intact start) (now : Timestamp) {parts : List String}
    (hparts : Path.Named parts) (current : String) (hplaces : ∀ names, names <+: Path.segments current ++ parts → names ∈ places)
    (hs : Grown places start s) : (createDirs now current parts).Yields s fun _ after => Grown places start after := by
  induction parts generalizing current s with
  | nil => exact .pure hs
  | cons part rest ih =>
    have hpart : Path.isName part = true := hparts part (by simp)
    have hnext : Path.segments (Path.join current part) = Path.segments current ++ [part] := Path.segments_join current hpart
    have hgoesOn {t : σ} (ht : Grown places start t) :
        (createDirs now (Path.join current part) rest).Yields t fun _ after => Grown places start after :=
      ih (fun name hn => hparts name (by simp [hn])) _
        (fun names hn => hplaces names (by rwa [hnext, List.append_assoc] at hn)) ht
    refine ((FallibleNodes.info _ hs.intact).yields hsteady).bind fun found t ⟨halt,hview,hnode⟩ => ?_
    have ht : Grown places start t := hs.trans hstart (.of_altered halt)
    cases found with
    | some node =>
      dsimp only
      split
      · exact hgoesOn ht
      · exact .pure ht
    | none =>
      have hpath : Path.segments (Node.directory now part current).path = Path.segments current ++ [part] :=
        Node.segments_path _ hpart
      have hfree : shown t (Path.segments (Node.directory now part current).path) = none := by
        rw [hview, hpath, ← hnext]
        simpa [View.node?, eq_comm] using hnode
      refine ((FallibleNodes.create _ ht.intact (Node.sized_new now part true current)).yields hsteady).bind ?_
      intro done u ⟨halt,hcreates⟩
      have hplace : Path.segments (Node.directory now part current).path ∈ places :=
        hplaces _ (by rw [hpath, List.prefix_append_right_inj]; simp)
      have hu : Grown places start u := ht.trans hstart (.of_creates ht.intact halt hcreates rfl hplace hfree)
      split
      · exact hgoesOn hu
      · exact .pure hu

/-- A path with its ancestors. -/
private theorem createDirAll_grows (hsteady : ¬ MayFail σ) (hstart : Intact start) (now : Timestamp) {dir : String}
    (hplaces : ∀ names, names <+: Path.segments dir → names ∈ places) (hs : Grown places start s) :
    (createDirAll now dir).Yields s fun _ after => Grown places start after :=
  createDirs_grows hsteady hstart now (Path.named_segments dir) "/" (by rwa [Path.segments_root, List.nil_append]) hs

end Storage

/-! ### Putting a store under a policy -/

namespace Checker

/-- The first pattern that does not compile is told. -/
private theorem compilePatterns_error {patterns : List String} (h : ∃ pattern ∈ patterns, ∃ e, Regex.compile pattern = .error e) :
    ∃ pattern ∈ patterns, ∃ e, Regex.compile pattern = .error e ∧
      compilePatterns patterns = .error (.invalidPattern (pattern ++ ": " ++ e.message)) := by
  induction patterns with
  | nil => simp at h
  | cons pattern rest ih =>
    cases hc : Regex.compile pattern with
    | error e => exact ⟨pattern,by simp,e,hc,by simp [compilePatterns, hc]⟩
    | ok regex =>
      obtain ⟨bad,hbad,e,he,hrest⟩ := ih (by simpa [hc] using h)
      exact ⟨bad,by simp [hbad],e,he,by simp [compilePatterns, hc, hrest, Except.map]⟩

private theorem compilePatterns_ok {patterns : List String} (h : ∀ pattern ∈ patterns, ∃ regex, Regex.compile pattern = .ok regex) :
    ∃ compiled, compilePatterns patterns = .ok compiled := by
  induction patterns with
  | nil => exact ⟨[],rfl⟩
  | cons pattern rest ih =>
    obtain ⟨regex,hc⟩ := h pattern (by simp)
    obtain ⟨compiled,hrest⟩ := ih fun other ho => h other (by simp [ho])
    exact ⟨regex.isMatch :: compiled,by simp [compilePatterns, hc, hrest, Except.map]⟩

theorem compile_error {policy : Policy} (h : ∃ pattern ∈ policy.deniedPatterns, ∃ e, Regex.compile pattern = .error e) :
    ∃ pattern ∈ policy.deniedPatterns, ∃ e, Regex.compile pattern = .error e ∧
      compile policy = .error (.invalidPattern (pattern ++ ": " ++ e.message)) := by
  obtain ⟨pattern,hp,e,he,hcompile⟩ := compilePatterns_error h
  exact ⟨pattern,hp,e,he,by rw [compile, hcompile]; rfl⟩

theorem compile_ok {policy : Policy} (h : ∀ pattern ∈ policy.deniedPatterns, ∃ regex, Regex.compile pattern = .ok regex) :
    ∃ checker, compile policy = .ok checker := by
  obtain ⟨compiled,hcompile⟩ := compilePatterns_ok h
  exact ⟨⟨policy,compiled⟩,by rw [compile, hcompile]; rfl⟩

end Checker

/-- The directories that a policy names as allowed, and their ancestors. -/
def Policy.ways (policy : Policy) : Set (List String) := {names | ∃ allowed ∈ policy.allowedPaths, names <+: Path.segments allowed}

namespace Guard
variable {σ : Type} [Storage σ]

private theorem createAllowed_grows [FallibleNodes σ] (hsteady : ¬ MayFail σ) {places : Set (List String)} {start s : σ}
    (hstart : Intact start) (now : Timestamp) {paths : List String}
    (hplaces : ∀ path ∈ paths, ∀ names, names <+: Path.segments path → names ∈ places) (hs : Grown places start s) :
    (createAllowed now paths).Yields s fun _ after => Grown places start after := by
  induction paths generalizing s with
  | nil => exact .pure hs
  | cons path rest ih =>
    have hrest {t : σ} (ht : Grown places start t) : (createAllowed now rest).Yields t fun _ after => Grown places start after :=
      ih (fun other ho => hplaces other (by simp [ho])) ht
    rw [createAllowed]
    split
    · exact (Storage.createDirAll_grows hsteady hstart now (hplaces path (by simp)) hs).bind fun _ _ => hrest
    · exact hrest hs

theorem install_error {policy : Policy} {e : StorageError} (h : Checker.compile policy = .error e) (now : Timestamp) (store : σ) :
    (install now policy (pure ())).on store = (.error e, store) := by
  rw [install, h]
  rfl

theorem install_yields [FallibleNodes σ] (hsteady : ¬ MayFail σ) {store : σ} (hs : Intact store) {policy : Policy} {checker : Checker}
    (h : Checker.compile policy = .ok checker) (now : Timestamp) :
    (install now policy (pure ())).Yields store fun guard after => guard = ⟨after,checker,[]⟩ ∧ Grown policy.ways store after := by
  have hplaces (path : String) (hp : path ∈ policy.allowedPaths) (names : List String) (hn : names <+: Path.segments path) :
      names ∈ policy.ways := ⟨path,hp,hn⟩
  rw [install, h]
  refine (createAllowed_grows hsteady hs now hplaces (.refl hs)).bind fun _ after hafter => ?_
  exact ⟨⟨after,checker,[]⟩,after,rfl,rfl,hafter⟩

end Guard

namespace FileSystem
variable {σ : Type} [Storage σ]

/-- What is asked of a file system: an operation, or that it be put under a policy. -/
inductive Deed where
  | act (action : Action)
  | police (policy : Policy)

/-- The rules that come into force with a deed. -/
def Deed.rules? : Deed → Option Checker
  | act _ => none
  | police policy => (Checker.compile policy).toOption

/-- A file system at a later time, after a deed that may have failed. -/
def undergo (fs : FileSystem σ) (event : Timestamp × Deed) : FileSystem σ :=
  match event.2 with
  | .act action => fs.step (event.1,action)
  | .police policy => ((applyPolicy policy).on { fs with clock := event.1 }).2

/-- A file system after a sequence of deeds. -/
def history (fs : FileSystem σ) (events : List (Timestamp × Deed)) : FileSystem σ := events.foldl undergo fs

/-- The rules of the last policy that took effect. -/
def inForce (events : List (Timestamp × Deed)) : Option Checker := (events.filterMap fun event => event.2.rules?).getLast?

/-- No policy takes effect. -/
def quiet (event : Timestamp × Deed) : Bool := event.2.rules?.isNone

/-- What events add to the log, the oldest first. -/
def noted (fs : FileSystem σ) : List (Timestamp × Deed) → List Violation
  | [] => []
  | event :: rest => (fs.undergo event).violations.drop fs.violations.length ++ (fs.undergo event).noted rest

section
variable (fs : FileSystem σ) (events : List (Timestamp × Deed)) (event : Timestamp × Deed)

private theorem history_concat : fs.history (events ++ [event]) = (fs.history events).undergo event := by simp [history]

private theorem inForce_concat : inForce (events ++ [event]) = event.2.rules?.or (inForce events) := by
  cases h : event.2.rules? <;> simp [inForce, h]

private theorem noted_concat : fs.noted (events ++ [event]) =
    fs.noted events ++ ((fs.history events).undergo event).violations.drop (fs.history events).violations.length := by
  induction events generalizing fs with
  | nil => simp [noted, history]
  | cons first rest ih =>
    rw [List.cons_append, noted, ih, noted, List.append_assoc]
    rfl

omit [Storage σ] in
private theorem mount_eq : fs.mount = match fs.rules? with
    | none => .plain fs.mount.store
    | some checker => .guarded ⟨fs.mount.store,checker,fs.violations⟩ := by
  obtain ⟨store | guard,_,_⟩ := fs <;> rfl

end

private theorem undergo_keeps {inv : σ → Prop} (h : Storage.Keeps inv)
    (hcleanup : Preserves inv (Storage.cleanup : Storing σ CleanupStats)) {fs : FileSystem σ} (event : Timestamp × Deed)
    (hinv : inv fs.mount.store) : inv (fs.undergo event).mount.store := by
  obtain ⟨time,action | policy⟩ := event
  · exact step_keeps h hcleanup (time,action) hinv
  · exact policed_keeps h.toKeepsGrowing policy hinv

private theorem mount_of_open {now : Timestamp} {base : σ} {start : FileSystem σ} (h : open_ now base = .ok start) :
    start.mount = .plain start.mount.store := by
  unfold open_ at h
  dsimp only at h
  split at h
  rename_i result _ _
  cases result with
  | error e => simp [Except.map] at h
  | ok done =>
    obtain rfl := Except.ok.inj h
    rfl

private theorem applyPolicy_error (fs : FileSystem σ) {policy : Policy} {e : StorageError} (h : Checker.compile policy = .error e) :
    (applyPolicy policy).on fs = (.error e, fs) := by
  have hinstall : (Guard.install fs.clock policy (pure ())).run.run fs.mount.store = (.error e, fs.mount.store) :=
    Guard.install_error h _ _
  obtain ⟨store | guard,_,_⟩ := fs <;> simp only [on, applyPolicy, ExceptT.mk, hinstall] <;> rfl

private theorem applyPolicy_ok [FallibleNodes σ] (hsteady : ¬ MayFail σ) {fs : FileSystem σ} (hs : Intact fs.mount.store)
    {policy : Policy} {checker : Checker} (h : Checker.compile policy = .ok checker) : ∃ store,
      (applyPolicy policy).on fs = (.ok (), { fs with mount := .guarded ⟨store,checker,[]⟩ }) ∧
        Grown policy.ways fs.mount.store store := by
  obtain ⟨_,store,he,rfl,hgrown⟩ := Guard.install_yields hsteady hs h fs.clock
  have hinstall : (Guard.install fs.clock policy (pure ())).run.run fs.mount.store = (.ok ⟨store,checker,[]⟩, store) := he
  exact ⟨store,by simp only [on, applyPolicy, ExceptT.mk, hinstall],hgrown⟩

/-- Where no policy takes effect the rules stay, and the log gets what they forbid. -/
private theorem undergo_quiet (fs : FileSystem σ) {event : Timestamp × Deed} (h : quiet event = true) :
    (fs.undergo event).rules? = fs.rules? ∧ ∃ noted, (fs.undergo event).violations = fs.violations ++ noted ∧
      ∀ violation ∈ noted, ∃ checker, fs.rules? = some checker ∧ checker.Denies violation := by
  obtain ⟨time,action | policy⟩ := event
  · exact fs.step_notes (time,action)
  · cases hcompile : Checker.compile policy with
    | error e =>
      rw [undergo]
      dsimp only
      rw [applyPolicy_error _ hcompile]
      exact ⟨rfl,[],(List.append_nil _).symm,by simp⟩
    | ok checker => simp [quiet, Deed.rules?, hcompile, Except.toOption] at h

/-- A policy that takes effect brings its rules into force and starts the log anew. -/
private theorem undergo_policed [FallibleNodes σ] (hsteady : ¬ MayFail σ) {fs : FileSystem σ} (hs : Intact fs.mount.store)
    {event : Timestamp × Deed} {checker : Checker} (h : event.2.rules? = some checker) :
    (fs.undergo event).rules? = some checker ∧ (fs.undergo event).violations = [] := by
  obtain ⟨time,action | policy⟩ := event
  · simp [Deed.rules?] at h
  · cases hcompile : Checker.compile policy with
    | error e => simp [Deed.rules?, hcompile, Except.toOption] at h
    | ok compiled =>
      obtain rfl : compiled = checker := by simpa [Deed.rules?, hcompile, Except.toOption] using h
      have hlater : Intact { fs with clock := time }.mount.store := hs
      obtain ⟨store,hon,_⟩ := applyPolicy_ok hsteady hlater hcompile
      rw [undergo]
      dsimp only
      rw [hon]
      exact ⟨rfl,rfl⟩

/-! ### File systems over stores of which no call fails -/

/-- How a file system stands that was opened over a store, after some events. -/
structure Governed (base : Provider) (events : List (Timestamp × Deed)) (fs : FileSystem Provider) : Prop where
  /-- The store is the one that it was opened over, with nothing but calls of its own made to it. -/
  base_played : Storage.Operation.Played base fs.mount.store
  /-- The store is by itself or under the last policy that took effect, and under no other. -/
  mount_eq : fs.mount = match inForce events with
    | none => .plain fs.mount.store
    | some checker => .guarded ⟨fs.mount.store,checker,fs.violations⟩
  name_eq : fs.providerName = match inForce events with
    | none => Storage.name base
    | some _ => "security(" ++ Storage.name base ++ ")"
  /-- That policy decides about every change, and nothing that came before it. -/
  decides : ∀ guard, fs.mount = .guarded guard → ∀ now change, guard.Resolves now change ((change.run now).on guard)
  cleans : ∀ guard, fs.mount = .guarded guard → (Storage.cleanup : Storing (Guard Provider) CleanupStats).on guard =
    if guard.policy.readOnly then (.ok ⟨0,0⟩, { guard with violations := guard.violations ++ [⟨.cleanup,tempDir,.readOnly⟩] })
    else (Guard.beneath Storage.cleanup).on guard
  /-- What is in the log is forbidden by that policy. -/
  denied : ∀ violation ∈ fs.violations, ∃ checker, inForce events = some checker ∧ checker.Denies violation

/-- What becomes of a file system that is to be put under a policy. -/
structure Polices (fs : FileSystem Provider) (policy : Policy) : Prop where
  /-- With a pattern that does not compile, nothing. -/
  refused : (∃ pattern ∈ policy.deniedPatterns, ∃ e, Regex.compile pattern = .error e) →
    ∃ pattern ∈ policy.deniedPatterns, ∃ e, Regex.compile pattern = .error e ∧
      (applyPolicy policy).on fs = (.error (.invalidPattern (pattern ++ ": " ++ e.message)), fs)
  /-- Else only its mount changes: the policy is put over the store, which has got directories that were missing. -/
  taken : (∀ pattern ∈ policy.deniedPatterns, ∃ regex, Regex.compile pattern = .ok regex) → ∃ checker store,
    Checker.compile policy = .ok checker ∧
    (applyPolicy policy).on fs = (.ok (), { fs with mount := .guarded ⟨store,checker,[]⟩ }) ∧
    ∀ path, Storage.sight path store = Storage.sight path fs.mount.store ∨
      (∃ allowed ∈ policy.allowedPaths, Path.AtOrBelow path allowed) ∧
        view fs.mount.store (Path.segments path) = none ∧ view store (Path.segments path) = some .dir

section
variable {base : Provider} {start : FileSystem Provider} {now : Timestamp}

private theorem history_keeps {inv : Provider → Prop} (h : Storage.Keeps inv)
    (hcleanup : Preserves inv (Storage.cleanup : Storing Provider CleanupStats)) (hstart : inv start.mount.store)
    (events : List (Timestamp × Deed)) : inv (start.history events).mount.store := by
  induction events generalizing start with
  | nil => exact hstart
  | cons event events ih => exact ih (undergo_keeps h hcleanup event hstart)

private theorem history_sound (hready : base.Ready) (hopen : open_ now base = .ok start) (events : List (Timestamp × Deed)) :
    Sound (start.history events).mount.store := by
  have hcleanup : Preserves Sound (Storage.cleanup : Storing Provider CleanupStats) := preserves_sound LawfulStorage.cleanup
  refine history_keeps keeps_sound hcleanup ((Reached.opened hready hopen).holds_of_ok keeps_sound ?_ hcleanup) events
  intro now store done after hk he
  have hsound := hk.sound_setUp now
  rwa [he] at hsound

private theorem history_played (hopen : open_ now base = .ok start) (events : List (Timestamp × Deed)) :
    Storage.Operation.Played base (start.history events).mount.store := by
  have hopened : Reached (· = base) start := .opened rfl hopen
  refine history_keeps Storage.Operation.keeps_played Storage.Operation.cleanup_played ?_ events
  refine hopened.holds_of_ok Storage.Operation.keeps_played ?_ Storage.Operation.cleanup_played
  intro now store done after hk he
  have hplayed : Storage.Operation.Played store _ := Storage.Operation.played_setUp now
  rwa [he, hk] at hplayed

/-- The rules in force and the log are those since the last policy took effect. -/
private theorem history_log (hready : base.Ready) (hopen : open_ now base = .ok start) (events : List (Timestamp × Deed)) :
    let fs := start.history events
    fs.rules? = inForce events ∧ fs.violations = (start.history (events.rdropWhile quiet)).noted (events.rtakeWhile quiet) ∧
      ∀ violation ∈ fs.violations, ∃ checker, inForce events = some checker ∧ checker.Denies violation := by
  induction events using List.reverseRecOn with
  | nil =>
    have hguard : start.mount.guard? = none := by
      rw [mount_of_open hopen]
      rfl
    simp [history, noted, rules?, inForce, violations, hguard]
  | append_singleton events event ih =>
    obtain ⟨hchecker,hlog,hdenied⟩ := ih
    simp only [history_concat, inForce_concat]
    cases hnew : event.2.rules? with
    | none =>
      have hquiet : quiet event = true := by rw [quiet, hnew, Option.isNone_none]
      obtain ⟨hsame,added,hadded,hforbidden⟩ := undergo_quiet (start.history events) hquiet
      rw [hchecker] at hsame hforbidden
      refine ⟨hsame,?_,fun violation hv => ?_⟩
      · have hsplit : (start.history (events.rdropWhile quiet)).history (events.rtakeWhile quiet) = start.history events := by
          rw [history, history, ← List.foldl_append, List.rdropWhile_append_rtakeWhile]
          rfl
        rw [List.rdropWhile_concat_pos _ _ _ hquiet, List.rtakeWhile_concat_pos _ _ _ hquiet, noted_concat, hsplit, ← hlog]
        rw [hadded, List.drop_left]
      · rw [hadded] at hv
        exact (List.mem_append.mp hv).elim (hdenied violation) (hforbidden violation)
    | some checker =>
      have hloud : ¬ quiet event = true := by simp [quiet, hnew]
      have hsteady : ¬ MayFail Provider := id
      obtain ⟨hforce,hempty⟩ := undergo_policed hsteady (history_sound hready hopen events) hnew
      refine ⟨hforce,?_,by simp [hempty]⟩
      rw [List.rdropWhile_concat_neg _ _ _ hloud, List.rtakeWhile_concat_neg _ _ _ hloud, hempty]
      rfl

private theorem history_governed (hready : base.Ready) (hopen : open_ now base = .ok start) (events : List (Timestamp × Deed)) :
    Governed base events (start.history events) := by
  obtain ⟨hchecker,_,hdenied⟩ := history_log hready hopen events
  have hplayed := history_played hopen events
  have hsound := history_sound hready hopen events
  generalize start.history events = fs at hchecker hdenied hplayed hsound
  refine ⟨hplayed,hchecker ▸ mount_eq fs,?_,fun guard hguard now change => ?_,fun guard _ => ?_,hdenied⟩
  · rw [← hchecker, ← Provider.name_of_played hplayed]
    obtain ⟨store | guard,_,_⟩ := fs <;> rfl
  · rw [hguard] at hsound
    exact guard.resolves (.sound hsound) now change
  · split
    · rename_i hread
      exact Guard.on_cleanup_of_readOnly hread
    · rename_i hread
      exact Guard.on_cleanup_of_writable (by simpa [Guard.policy] using hread)

private theorem polices {fs : FileSystem Provider} (hs : Sound fs.mount.store) (policy : Policy) : Polices fs policy where
  refused h := by
    obtain ⟨pattern,hp,e,he,hcompile⟩ := Checker.compile_error h
    exact ⟨pattern,hp,e,he,applyPolicy_error fs hcompile⟩
  taken h := by
    obtain ⟨checker,hcompile⟩ := Checker.compile_ok h
    have hsteady : ¬ MayFail Provider := id
    obtain ⟨store,hon,hgrown⟩ := applyPolicy_ok hsteady hs hcompile
    exact ⟨checker,store,hcompile,hon,hgrown.sights_eq⟩

/--
Policies replace one another. Whatever is done to a file system over a store of which no call fails, and whatever policies it is
put under, it is governed by the last that took effect, and the log holds what has been noted since then. A policy with a pattern
that does not compile is refused and changes nothing. Any other takes effect and changes nothing but the mount; beneath it
allowed paths and their ancestors that were missing have become directories, and all else is read as before, times included.
-/
theorem policies_replace (hready : base.Ready) (hopen : open_ now base = .ok start) (events : List (Timestamp × Deed)) :
    let fs := start.history events
    fs.Governed base events ∧
    fs.violations = (start.history (events.rdropWhile quiet)).noted (events.rtakeWhile quiet) ∧
    ∀ time policy, Polices { fs with clock := time } policy := by
  intro fs
  have hsound : Sound fs.mount.store := history_sound hready hopen events
  refine ⟨history_governed hready hopen events,(history_log hready hopen events).2.1,fun time policy => ?_⟩
  have hlater : Sound { fs with clock := time }.mount.store := hsound
  exact polices hlater policy

/-- Two policies after one another, a write that the second denies, and a third policy with a pattern that does not compile. -/
theorem second_policy_governs :
    let hidden : Policy := { Policy.unrestricted with deniedPaths := ["/etc"] }
    let narrow : Policy := { Policy.unrestricted with allowedPaths := ["/srv/data"] }
    let broken : Policy := { Policy.unrestricted with deniedPatterns := ["("] }
    let events : List (Timestamp × Deed) := [(1,.police hidden),(2,.act (.mkdir "/etc/a")),(3,.police narrow),
      (4,.act (.touch "/etc/b")),(5,.police broken)]
    ∃ start fs : FileSystem Provider, open_ 0 (.tree Tree.empty) = .ok start ∧ fs = start.history events ∧
      fs.Governed (.tree Tree.empty) events ∧ inForce events = some ⟨narrow,[]⟩ ∧
      fs.violations = [⟨.create,"/etc/b",.notAllowed⟩] ∧ view fs.mount.store ["srv","data"] = some .dir := by
  intro hidden narrow broken events
  cases hopen : open_ 0 (Provider.tree Tree.empty) with
  | error e =>
    have hok : (open_ 0 (Provider.tree Tree.empty)).isOk = true := by decide +kernel
    simp [hopen, Except.isOk, Except.toBool] at hok
  | ok start =>
    have hstart : start = opening (Provider.tree Tree.empty) := by rw [opening, hopen]; rfl
    obtain ⟨hgoverned,_,_⟩ := policies_replace Provider.Ready.tree hopen events
    have hrefused : (Checker.compile broken).toOption = none := by
      have hbad : (Checker.compile broken).toOption.isNone = true := by decide +kernel
      exact Option.isNone_iff_eq_none.mp hbad
    have hforce : inForce events = some ⟨narrow,[]⟩ := by
      simp only [inForce, events, List.filterMap_cons, Deed.rules?, hrefused]
      rfl
    have hlog : ((opening (Provider.tree Tree.empty)).history events).violations = [⟨.create,"/etc/b",.notAllowed⟩] := by
      decide +kernel
    have hmade : view ((opening (Provider.tree Tree.empty)).history events).mount.store ["srv","data"] = some .dir := by
      decide +kernel
    exact ⟨start,_,rfl,rfl,hgoverned,hforce,hstart ▸ hlog,hstart ▸ hmade⟩

end

end FileSystem
end VirtualShell
