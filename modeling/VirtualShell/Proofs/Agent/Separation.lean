import VirtualShell.Proofs.Agent.MemoryFiles
import VirtualShell.Proofs.Agent.Updates

/-!
What agents do to the memory of others. Whatever happens in whatever order, the file of an agent changes only where the
run of an agent with a name like its own is completed, or by what others do on the shell. So what a lookup finds was there
at the start, or was put there by these.
-/
namespace VirtualShell.Agent.System
open VirtualShell.Legible Manager
variable {σ : Type} [Storage σ] [FallibleNodes σ] {s : System σ} {event : Event σ} {events : List (Event σ)}
  {name other : String} {done : Job}

/-! ### One event -/

/-- Of all events, only what happens elsewhere and what is saved under a name like its own change the file of an agent. -/
theorem Invariant.file?_step (h : s.Invariant) (hs : Intact s.manager.shell.session.fs)
    (helsewhere : ∀ shell poisoned requests, event ≠ .elsewhere shell poisoned requests)
    (hsaved : ∀ other done, s.saved? other event = some done → ¬Alike name other) :
    (s.step event).manager.file? name = s.manager.file? name := by
  have hgoing := h.manager_step event helsewhere
  cases event with
  | elsewhere shell poisoned requests => exact absurd rfl (helsewhere shell poisoned requests)
  | create definition background => rfl
  | finish i outcome =>
    obtain ⟨jobs,⟨_,hended⟩ | ⟨done,hdone,hended⟩⟩ := h.manager_finish i outcome
    · rw [hended]
      rfl
    · rw [hended]
      have hother := file?_saveMemory_other (m := { s.manager with jobs }) hs (hsaved _ done hdone) done.memory
      exact hother
  | _ =>
    obtain hsame | ⟨number,act,_,_,hacted⟩ := hgoing (by simp) (by simp)
    · rw [hsame]
    · rw [hacted]
      rfl

/-- A save that is accepted is what stands then in the file, and so in the files of all names that are alike. -/
theorem Invariant.file?_saved (h : s.Invariant) (hs : Intact s.manager.shell.session.fs)
    (hsaved : s.saved? other event = some done) (haccepted : s.manager.Accepts other done.memory) (halike : Alike name other) :
    (s.step event).manager.file? name = some (Json.pretty 0 (.object done.memory)) := by
  obtain ⟨i,outcome,_,rfl,_⟩ := saved?_eq_some hsaved
  obtain ⟨jobs,⟨hnone,_⟩ | ⟨last,hlast,hended⟩⟩ := h.manager_finish i outcome
  · cases hsaved.symm.trans (hnone other)
  · obtain ⟨rfl,rfl⟩ := saved?_unique hsaved hlast
    have hkept := file?_saveMemory (m := { s.manager with jobs }) hs ⟨haccepted.usable,haccepted.accepted⟩
    rw [hended, file?_congr halike]
    exact hkept

theorem Invariant.intact_step (h : s.Invariant) (hs : Intact s.manager.shell.session.fs)
    (helsewhere : ∀ shell poisoned requests, event = .elsewhere shell poisoned requests → Intact shell.session.fs) :
    Intact (s.step event).manager.shell.session.fs := by
  have hgoing := h.manager_step event
  cases event with
  | elsewhere shell poisoned requests => exact helsewhere shell poisoned requests rfl
  | create definition background => exact hs
  | finish i outcome =>
    obtain ⟨jobs,⟨_,hended⟩ | ⟨done,_,hended⟩⟩ := h.manager_finish i outcome
    · rw [hended]
      exact hs
    · rw [hended]
      exact intact_saveMemory (m := { s.manager with jobs }) hs _ _
  | _ =>
    obtain hsame | ⟨number,act,_,_,hacted⟩ := hgoing (by simp) (by simp) (by simp)
    · rwa [hsame]
    · rw [hacted]
      exact hs

/-! ### Histories -/

/-- At a position, something happens elsewhere that may change the file of an agent. -/
def Strikes (name : String) (s : System σ) (events : List (Event σ)) (n : Nat) : Prop :=
  ∃ shell poisoned requests, events[n]? = some (.elsewhere shell poisoned requests) ∧
    (s.moment events (n + 1)).manager.file? name ≠ (s.moment events n).manager.file? name

/-- At a position, the run of an agent is completed whose name is like the given one. -/
def SavesAlike (name : String) (s : System σ) (events : List (Event σ)) (n : Nat) : Prop :=
  ∃ event other done, events[n]? = some event ∧ (s.moment events n).saved? other event = some done ∧ Alike name other

/-- What happens elsewhere leaves a store that can be read. -/
def Readable (events : List (Event σ)) : Prop :=
  ∀ shell poisoned requests, .elsewhere shell poisoned requests ∈ events → Intact shell.session.fs

theorem intact_moment (h : s.Invariant) (hs : Intact s.manager.shell.session.fs) (hreadable : Readable events) {n : Nat}
    (hn : n ≤ events.length) : Intact (s.moment events n).manager.shell.session.fs := by
  induction n with
  | zero => exact hs
  | succ n ih =>
    rw [moment_succ (List.getElem?_eq_getElem hn)]
    refine (h.moment events n).intact_step (ih (by omega)) fun shell poisoned requests hevent => ?_
    exact hreadable shell poisoned requests (hevent ▸ List.getElem_mem hn)

/-- An event that does not touch the file. -/
theorem file?_succ (h : s.Invariant) (hs : Intact s.manager.shell.session.fs) (hreadable : Readable events) {n : Nat}
    (hn : n < events.length) (hstrikes : ¬Strikes name s events n) (hsaves : ¬SavesAlike name s events n) :
    (s.moment events (n + 1)).manager.file? name = (s.moment events n).manager.file? name := by
  have hevent : events[n]? = some events[n] := List.getElem?_eq_getElem hn
  by_cases helsewhere : ∃ shell poisoned requests, events[n] = .elsewhere shell poisoned requests
  · obtain ⟨shell,poisoned,requests,hwhat⟩ := helsewhere
    by_contra hne
    exact hstrikes ⟨shell,poisoned,requests,hwhat ▸ hevent,hne⟩
  · rw [moment_succ hevent]
    refine (h.moment events n).file?_step (intact_moment h hs hreadable hn.le) ?_ ?_
    · exact fun shell poisoned requests hwhat => helsewhere ⟨shell,poisoned,requests,hwhat⟩
    · exact fun other done hsaved halike => hsaves ⟨_,other,done,hevent,hsaved,halike⟩

private theorem file?_moment (h : s.Invariant) (hs : Intact s.manager.shell.session.fs) (hreadable : Readable events) {k n : Nat}
    (hkn : k ≤ n) (hn : n ≤ events.length)
    (huntouched : ∀ m, k ≤ m → m < n → ¬Strikes name s events m ∧ ¬SavesAlike name s events m) :
    (s.moment events n).manager.file? name = (s.moment events k).manager.file? name := by
  induction n, hkn using Nat.le_induction with
  | base => rfl
  | succ n hkn ih =>
    obtain ⟨hstrikes,hsaves⟩ := huntouched n hkn n.lt_succ_self
    rw [file?_succ h hs hreadable hn hstrikes hsaves]
    exact ih (by omega) fun m hkm hmn => huntouched m hkm (by omega)

/-- Where the text of a file comes from: it was there at the start, or was left by the last that touched the file. -/
private theorem file?_origin (h : s.Invariant) (hs : Intact s.manager.shell.session.fs) (hreadable : Readable events) {n : Nat}
    (hn : n ≤ events.length) : (s.moment events n).manager.file? name = s.manager.file? name ∨
      ∃ m < n, (Strikes name s events m ∨ SavesAlike name s events m) ∧
        (s.moment events n).manager.file? name = (s.moment events (m + 1)).manager.file? name := by
  induction n with
  | zero => exact .inl rfl
  | succ n ih =>
    by_cases htouched : Strikes name s events n ∨ SavesAlike name s events n
    · exact .inr ⟨n,n.lt_succ_self,htouched,rfl⟩
    · obtain ⟨hstrikes,hsaves⟩ := not_or.mp htouched
      rw [file?_succ h hs hreadable hn hstrikes hsaves]
      obtain hstart | ⟨m,hm,htouches,hsame⟩ := ih (by omega)
      · exact .inl hstart
      · exact .inr ⟨m,by omega,htouches,hsame⟩

/--
The file for the memory of an agent stands in the directory for memory, whatever its name is; two names lead to the same
file just in case they differ in nothing but slashes and underscores, so that names without slashes have files of their
own. Whatever happens in whatever order: as long as no run of an agent with a name like its own is completed, and nothing
is done elsewhere to the file, it stays as it is; and what an agent finds when it looks up was there at the start, or was
left by these. A run that is completed and whose save is accepted replaces the memory of all agents with names like its own.
-/
theorem memory_apart {shell : Shell σ} (hshell : Intact shell.session.fs) (model : Model) (limit : Option Nat)
    (hreadable : Readable events) :
    let s := new (Manager.new shell model limit)
    (∀ name, Path.Canonical (memoryPath name) ∧ (Path.split (memoryPath name)).1 = memoryDir) ∧
    (∀ name other, memoryPath name = memoryPath other ↔ Alike name other) ∧
    (∀ name other, '/' ∉ name.toList → '/' ∉ other.toList → memoryPath name = memoryPath other → name = other) ∧
    (∀ name k n, k ≤ n → n ≤ events.length →
      (∀ m, k ≤ m → m < n → ¬Strikes name s events m ∧ ¬SavesAlike name s events m) →
      (s.moment events n).manager.file? name = (s.moment events k).manager.file? name) ∧
    (∀ name n, n ≤ events.length → (s.moment events n).manager.Answers name →
      ((loadMemory name).run (s.moment events n).manager).1 = decoded (.ok (s.manager.file? name)) ∨
      ∃ m < n, (Strikes name s events m ∨ SavesAlike name s events m) ∧
        ((loadMemory name).run (s.moment events n).manager).1 =
          decoded (.ok ((s.moment events (m + 1)).manager.file? name))) ∧
    ∀ name other n event done, events[n]? = some event → (s.moment events n).saved? other event = some done →
      (s.moment events n).manager.Accepts other done.memory → Alike name other →
      (s.moment events (n + 1)).manager.file? name = some (Json.pretty 0 (.object done.memory)) := by
  intro s
  have h : s.Invariant := invariant_new shell model limit
  have hs : Intact s.manager.shell.session.fs := hshell
  refine ⟨fun name => ⟨canonical_memoryPath name,?_⟩,memoryPath_eq_iff,?_,?_,?_,?_⟩
  · rw [split_memoryPath]
  · intro name other hname hother hsame
    exact ((memoryPath_eq_iff name other).mp hsame).eq hname hother
  · exact fun name k n hkn hn huntouched => file?_moment h hs hreadable hkn hn huntouched
  · intro name n hn hanswers
    rw [hanswers.loadMemory (intact_moment h hs hreadable hn)]
    obtain hstart | ⟨m,hm,htouches,hsame⟩ := file?_origin h hs hreadable hn
    · exact .inl (by rw [hstart])
    · exact .inr ⟨m,hm,htouches,by rw [hsame]⟩
  · intro name other n event done hevent hsaved haccepted halike
    have hn := (List.getElem?_eq_some_iff.mp hevent).1
    rw [moment_succ hevent]
    exact (h.moment events n).file?_saved (intact_moment h hs hreadable hn.le) hsaved haccepted halike

/-! ### Two agents -/

theorem not_strikes (h : ∀ shell poisoned requests, .elsewhere shell poisoned requests ∉ events) (n : Nat) :
    ¬Strikes name s events n := by
  rintro ⟨shell,poisoned,requests,hevent,_⟩
  exact h shell poisoned requests (List.mem_of_getElem? hevent)

omit [FallibleNodes σ] in
/-- Only what ends a run saves, and it saves under one name. -/
private theorem not_savesAlike {n : Nat} (h : ∀ i outcome, events[n]? = some (.finish i outcome) → ∃ other,
    ¬Alike name other ∧ ((s.moment events n).saved? other (.finish i outcome)).isSome) : ¬SavesAlike name s events n := by
  rintro ⟨event,other,done,hevent,hsaved,halike⟩
  obtain ⟨i,outcome,_,rfl,_⟩ := saved?_eq_some hsaved
  obtain ⟨last,hnot,hlast⟩ := h i outcome hevent
  obtain ⟨_,hlast⟩ := Option.isSome_iff_exists.mp hlast
  obtain ⟨rfl,_⟩ := saved?_unique hsaved hlast
  exact hnot halike

/-- The run of another agent leaves what was saved. -/
theorem apart_of_two_names :
    let store := ((Storage.setUp 0).on (Provider.tree .empty)).2
    let shell : Shell Provider := ⟨⟨⟨.plain store,"/",0⟩,[],[],true,"",[]⟩,[]⟩
    let agent : Definition := { Definition.standard with name := "..", memory := .persistent }
    let other : Definition := { Definition.standard with name := "a/b", memory := .persistent }
    let s := new (Manager.new shell (Mock.model 100) none)
    let events : List (Event Provider) := [.create agent false,.run 1 "x",.remember 0 [],.finish 0 (.completed "one"),
      .create other false,.run 2 "y",.remember 1 [],.finish 1 (.completed "two")]
    Intact shell.session.fs ∧ Readable events ∧
      (∀ m, 4 ≤ m → m < 8 → ¬Strikes ".." s events m ∧ ¬SavesAlike ".." s events m) ∧
      ∃ done, (s.moment events 3).saved? ".." (.finish 0 (.completed "one")) = some done ∧
        (s.moment events 3).manager.Accepts ".." done.memory ∧
        (s.after events).manager.file? ".." = some (Json.pretty 0 (.object done.memory)) := by
  intro store shell agent other s events
  have hshell : Intact shell.session.fs := Provider.Ready.tree.sound_setUp 0
  have hnowhere : ∀ shell poisoned requests, Event.elsewhere shell poisoned requests ∉ events := by simp [events]
  have hreadable : Readable events := fun shell poisoned requests h => absurd h (hnowhere shell poisoned requests)
  have huntouched : ∀ m, 4 ≤ m → m < 8 → ¬Strikes ".." s events m ∧ ¬SavesAlike ".." s events m := by
    intro m hm hlt
    refine ⟨not_strikes hnowhere m,not_savesAlike fun i outcome hevent => ⟨"a/b",?_,?_⟩⟩
    · simp [Alike, SameSign]
    · obtain rfl | hlt : m = 7 ∨ m < 7 := by omega
      · obtain ⟨rfl,rfl⟩ := Event.finish.inj (Option.some.inj hevent).symm
        decide +kernel
      · obtain rfl | rfl | rfl : m = 4 ∨ m = 5 ∨ m = 6 := by omega
        all_goals cases hevent
  have hsaved : ((s.moment events 3).saved? ".." (.finish 0 (.completed "one"))).any (fun done =>
      !(s.moment events 3).manager.poisoned && decide
        (((s.moment events 3).manager.shell.onFiles (keep ".." done.memory)).1 = .ok true)) := by decide +kernel
  obtain ⟨done,hdone,haccepted⟩ := (Option.any_eq_true _ _).mp hsaved
  rw [Bool.and_eq_true, Bool.not_eq_true', decide_eq_true_eq] at haccepted
  obtain ⟨_,_,_,hstays,_,hleaves⟩ := memory_apart hshell (Mock.model 100) none hreadable
  refine ⟨hshell,hreadable,huntouched,done,hdone,⟨haccepted.1,haccepted.2⟩,?_⟩
  have hlater := hstays ".." 4 8 (by omega) (by simp [events]) huntouched
  rw [hleaves ".." ".." 3 _ done rfl hdone ⟨haccepted.1,haccepted.2⟩ (.refl "..")] at hlater
  exact hlater

/-- Two agents of different names that keep what they remember in one file: the second finds what the first one saved. -/
theorem shared_by_two_names :
    let store := ((Storage.setUp 0).on (Provider.tree .empty)).2
    let shell : Shell Provider := ⟨⟨⟨.plain store,"/",0⟩,[],[],true,"",[]⟩,[]⟩
    let agent : Definition := { Definition.standard with name := "a/b", memory := .persistent }
    let other : Definition := { Definition.standard with name := "a_b", memory := .persistent }
    let s := new (Manager.new shell (Mock.model 100) none)
    let before : List (Event Provider) := [.create agent false,.create other false,.run 1 "x",.remember 0 [],
      .finish 0 (.completed "done"),.run 2 "y"]
    let events := before ++ [.remember 1 ((s.after before).stored "a_b"),.finish 1 (.completed "done")]
    let last := s.after events
    "a/b" ≠ "a_b" ∧ memoryPath "a/b" = memoryPath "a_b" ∧
      (s.after before).completed "a_b" = 0 ∧ runsOf ((s.after before).stored "a_b") = 1 ∧
      last.completed "a_b" = 1 ∧ runsOf (last.stored "a_b") = 2 ∧ runsOf (last.stored "a/b") = 2 := by
  decide +kernel

end VirtualShell.Agent.System
