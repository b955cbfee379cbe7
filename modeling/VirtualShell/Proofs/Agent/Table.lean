import Mathlib.Data.List.Nodup
import VirtualShell.Agent.Manager
import VirtualShell.Proofs.Agent.Acts
import VirtualShell.Proofs.Keyed

/-!
The job table. Jobs are numbered from 1 on without gaps, so that an act is done to one job only, and a name in the table is
the name of one job; what is done elsewhere, on the shell or with the model, leaves the table alone.
-/
namespace VirtualShell.Agent.Manager
variable {σ α β : Type} {m : Manager σ} {job : Job} {jobs : List Job} {table : Keyed Nat} {next number : Nat} {pid : String}

/-! ### Jobs and their names -/

/-- All jobs there have been, the table with the numbers of some, and the number of the next one. -/
structure Orderly (jobs : List Job) (table : Keyed Nat) (next : Nat) : Prop where
  /-- The jobs are numbered in order from 1 on. -/
  numbers : jobs.map Job.number = List.range' 1 jobs.length
  next : next = jobs.length + 1
  rising : table.Rising
  /-- A name in the table is the name of the job with the number there. -/
  named : ∀ pid number, Keyed.find? pid table = some number → ∃ job ∈ jobs, job.number = number ∧ job.pid = pid
  /-- Only what has ended leaves the table. -/
  present : ∀ job ∈ jobs, ¬job.state.isTerminal → Keyed.find? job.pid table = some job.number

namespace Orderly

theorem eq_of_number (h : Orderly jobs table next) {other : Job} (hj : job ∈ jobs) (ho : other ∈ jobs)
    (hn : other.number = job.number) : other = job := by
  have hnodup : (jobs.map Job.number).Nodup := by
    rw [h.numbers]
    exact List.nodup_range'
  exact List.inj_on_of_nodup_map hnodup ho hj hn

/-- The next job has a number that no job has. -/
theorem number_lt (h : Orderly jobs table next) (hj : job ∈ jobs) : job.number < next := by
  have hmem : job.number ∈ List.range' 1 jobs.length := h.numbers ▸ List.mem_map_of_mem hj
  rw [List.mem_range'_1] at hmem
  rw [h.next]
  omega

/-- What is done to jobs leaves names and numbers alone, and what has ended ended. -/
theorem map (h : Orderly jobs table next) {f : Job → Job} (hnumber : ∀ job, (f job).number = job.number)
    (hterminal : ∀ job ∈ jobs, job.state.isTerminal → (f job).state.isTerminal) : Orderly (jobs.map f) table next := by
  have hpid (job : Job) : (f job).pid = job.pid := by rw [Job.pid, Job.pid, hnumber]
  refine ⟨?_,?_,h.rising,fun pid number hfound => ?_,fun later hl hlater => ?_⟩
  · simp [Function.comp_def, hnumber, h.numbers]
  · rw [List.length_map]
    exact h.next
  · obtain ⟨job,hj,hn,hp⟩ := h.named pid number hfound
    exact ⟨f job,List.mem_map_of_mem hj,(hnumber job).trans hn,(hpid job).trans hp⟩
  · obtain ⟨job,hj,rfl⟩ := List.mem_map.mp hl
    rw [hnumber, hpid]
    exact h.present job hj fun hends => hlater (hterminal job hj hends)

theorem on (h : Orderly jobs table next) (number : Nat) (act : Job.Act) : Orderly (jobs.map (act.on number)) table next :=
  h.map (Job.Act.number_on number act) fun _ _ => Job.Act.terminal_on

/-- A new job comes under a name that was never used. -/
theorem concat (h : Orderly jobs table next) (definition : Definition) (background : Bool) :
    Orderly (jobs ++ [.new next definition background])
      (Keyed.insert (Job.new next definition background).pid next table) (next + 1) := by
  have hfresh : ∀ other ∈ jobs, (Job.new next definition background).pid ≠ other.pid := by
    intro other ho hsame
    have hnumber : other.number = next := Job.number_of_pid hsame.symm
    exact absurd (h.number_lt ho) (by omega)
  refine ⟨?_,?_,h.rising.insert _ _,fun pid number hfound => ?_,fun other ho hstate => ?_⟩
  · simp [h.numbers, Job.new, h.next, List.range'_concat, Nat.add_comm]
  · rw [List.length_append, h.next]
    rfl
  · rw [Keyed.find?_insert] at hfound
    split at hfound
    · rename_i hpid
      exact ⟨_,List.mem_append_right _ (List.mem_singleton_self _),Option.some.inj hfound,hpid⟩
    · obtain ⟨job,hj,hnamed⟩ := h.named pid number hfound
      exact ⟨job,List.mem_append_left _ hj,hnamed⟩
  · rw [Keyed.find?_insert]
    rcases List.mem_append.mp ho with ho | ho
    · rw [if_neg (hfresh other ho)]
      exact h.present other ho hstate
    · rw [List.mem_singleton.mp ho, if_pos rfl]
      rfl

/-- A name is taken out of the table, if its job has ended. -/
theorem erase (h : Orderly jobs table next) (hends : ∀ job ∈ jobs, job.pid = pid → job.state.isTerminal) :
    Orderly jobs (Keyed.erase pid table) next := by
  refine ⟨h.numbers,h.next,h.rising.erase pid,fun other number hfound => ?_,fun job hj hstate => ?_⟩
  · rw [h.rising.find?_erase] at hfound
    split at hfound
    · cases hfound
    · exact h.named other number hfound
  · rw [h.rising.find?_erase, if_neg fun hsame => hstate (hends job hj hsame.symm)]
    exact h.present job hj hstate

end Orderly

/-- The jobs are numbered in order, and the table has the numbers of some under their names. -/
def Numbered (m : Manager σ) : Prop := Orderly m.jobs m.table m.next

theorem numbered_new (shell : Shell σ) (model : Model) (limit : Option Nat) : (new shell model limit).Numbered :=
  ⟨rfl,rfl,Keyed.rising_nil,by simp [new, Keyed.find?],by simp [new]⟩

theorem mem_of_job? (h : m.job? number = some job) : job ∈ m.jobs ∧ job.number = number :=
  ⟨List.mem_of_find?_eq_some h,by simpa using List.find?_some h⟩

theorem job?_map {later : Manager σ} {f : Job → Job} (hjobs : later.jobs = m.jobs.map f)
    (hnumber : ∀ job, (f job).number = job.number) (number : Nat) : later.job? number = (m.job? number).map f := by
  simp only [job?, hjobs, List.find?_map, Function.comp_def, hnumber]

/-- A job is found by its number. -/
theorem Numbered.job?_number (h : m.Numbered) (hj : job ∈ m.jobs) : m.job? job.number = some job := by
  cases hfound : m.job? job.number with
  | none => simpa using List.find?_eq_none.mp hfound job hj
  | some other =>
    obtain ⟨ho,hn⟩ := mem_of_job? hfound
    rw [h.eq_of_number hj ho hn]

theorem number_getD (m : Manager σ) (job : Job) : ((m.job? job.number).getD job).number = job.number := by
  cases hfound : m.job? job.number with
  | none => rfl
  | some other => exact (mem_of_job? hfound).2

/-- An act changes at most the job with the number, and tells whether it did. -/
theorem run_act (h : m.Numbered) (number : Nat) (act : Job.Act) :
    (Manager.act number act).run m =
      ((m.job? number).any fun job => act.fits job.state, { m with jobs := m.jobs.map (act.on number) }) := by
  simp only [Manager.act, put]
  cases hfound : m.job? number with
  | none =>
    have hmap : m.jobs.map (act.on number) = m.jobs := by
      refine (List.map_congr_left fun job hj => ?_).trans (List.map_id _)
      have hne : job.number ≠ number := by simpa using List.find?_eq_none.mp hfound job hj
      simp [Job.Act.on, hne]
    simp [hfound, hmap]
    rfl
  | some job =>
    obtain ⟨hj,hn⟩ := mem_of_job? hfound
    have hmap (other : Job) (ho : other ∈ m.jobs) : act.on number other =
        if other.number = number ∧ act.fits job.state then act.apply job else other := by
      by_cases hnumber : other.number = number
      · rw [h.eq_of_number hj ho (hnumber.trans hn.symm), Job.Act.on]
      · simp [Job.Act.on, hnumber]
    by_cases hfits : act.fits job.state
    · simp [hfound, hfits, hn, List.map_congr_left hmap]
      rfl
    · simp [hfound, hfits, List.map_congr_left hmap]
      rfl

theorem Numbered.act (h : m.Numbered) (number : Nat) (act : Job.Act) : ((Manager.act number act).run m).2.Numbered := by
  rw [run_act h]
  exact h.on number act

/-- An act that does not fit a job leaves all jobs as they are. -/
theorem Numbered.map_on (h : m.Numbered) {act : Job.Act} (hj : job ∈ m.jobs) (hfits : ¬act.fits job.state) :
    m.jobs.map (act.on job.number) = m.jobs := by
  refine (List.map_congr_left fun other ho => ?_).trans (List.map_id _)
  by_cases hnumber : other.number = job.number
  · simp [h.eq_of_number hj ho hnumber, Job.Act.on, hfits]
  · simp [Job.Act.on, hnumber]

theorem run_begin (h : m.Numbered) (now : Nat) (input : String) (hj : job ∈ m.jobs) (hpending : job.state = .pending) :
    (begin now job input).run m = (.ok (), { m with jobs := m.jobs.map ((Job.Act.begin now input).on job.number) }) := by
  simp only [begin, StateT.run_bind, run_act h, h.job?_number hj, Option.any_some, Job.Act.fits, hpending]
  rfl

/-- A run that cannot begin changes nothing. -/
theorem run_begin_refused (h : m.Numbered) (now : Nat) (input : String) (hj : job ∈ m.jobs)
    (hpending : job.state ≠ .pending) : (begin now job input).run m = (.error (.notPending job.pid),m) := by
  have hfits : ¬(Job.Act.begin now input).fits job.state := by simpa [Job.Act.fits] using hpending
  simp only [begin, StateT.run_bind, run_act h, h.job?_number hj, Option.any_some, h.map_on hj hfits, hfits]
  rfl

/-- A run begins at most. -/
theorem Numbered.begin (h : m.Numbered) (now : Nat) (input : String) (hj : job ∈ m.jobs) :
    ((begin now job input).run m).2.Numbered := by
  by_cases hpending : job.state = .pending
  · rw [run_begin h now input hj hpending]
    exact h.on _ _
  · rwa [run_begin_refused h now input hj hpending]

/-- Whether a job is in the table. -/
def lists (m : Manager σ) (job : Job) : Bool := Keyed.contains job.pid m.table

/-- What has not ended is in the table. -/
theorem Numbered.lists_of (h : m.Numbered) (hj : job ∈ m.jobs) (hstate : ¬job.state.isTerminal) : m.lists job := by
  rw [lists, Keyed.contains, h.present job hj hstate]
  rfl

/-- In the table a name has the number of the job with that name, and nothing is found under other names. -/
theorem Numbered.find?_table_iff (h : m.Numbered) :
    Keyed.find? pid m.table = some number ↔ ∃ job ∈ m.jobs, job.number = number ∧ job.pid = pid ∧ m.lists job := by
  constructor
  · intro hfound
    obtain ⟨job,hj,hnumber,rfl⟩ := h.named pid number hfound
    exact ⟨job,hj,hnumber,rfl,by rw [lists, Keyed.contains, hfound]; rfl⟩
  · rintro ⟨job,hj,rfl,rfl,hlists⟩
    obtain ⟨number,hfound⟩ := Option.isSome_iff_exists.mp hlists
    obtain ⟨other,ho,rfl,hpid⟩ := h.named _ _ hfound
    rw [hfound, Job.number_of_pid hpid]

/-- What is found under a name is the job with that name, if it is in the table. -/
theorem Numbered.find?_iff (h : m.Numbered) : m.find? pid = some job ↔ job ∈ m.jobs ∧ job.pid = pid ∧ m.lists job := by
  rw [find?, Option.bind_eq_some_iff]
  constructor
  · rintro ⟨number,hfound,hjob⟩
    obtain ⟨other,ho,rfl,hother⟩ := h.find?_table_iff.mp hfound
    obtain rfl : other = job := Option.some.inj ((h.job?_number ho).symm.trans hjob)
    exact ⟨ho,hother⟩
  · rintro ⟨hj,hpid⟩
    exact ⟨job.number,h.find?_table_iff.mpr ⟨job,hj,rfl,hpid⟩,h.job?_number hj⟩

theorem Numbered.mem_of_find? (h : m.Numbered) (hfound : m.find? pid = some job) : job ∈ m.jobs ∧ job.pid = pid :=
  (h.find?_iff.mp hfound).imp_right And.left

/-- A job that is in the table is found by its name. -/
theorem Numbered.find?_pid (h : m.Numbered) (hj : job ∈ m.jobs) (hlists : m.lists job) : m.find? job.pid = some job :=
  h.find?_iff.mpr ⟨hj,rfl,hlists⟩

/-- A successful kill ends the active job of that name. -/
theorem run_kill (h : m.Numbered) (now : Nat) (pid : String) (hkill : ((kill now pid).run m).1) :
    ∃ job, m.find? pid = some job ∧ job.state.isActive ∧
      ((kill now pid).run m).2 = { m with jobs := m.jobs.map ((Job.Act.kill now).on job.number) } := by
  simp only [kill, actOn, StateT.run_bind, StateT.run_get, pure_bind] at hkill ⊢
  cases hfound : m.find? pid with
  | none =>
    rw [hfound] at hkill
    cases hkill
  | some job =>
    have hjob := h.job?_number (h.mem_of_find? hfound).1
    simp only [hfound, run_act h, hjob, Option.any_some] at hkill ⊢
    exact ⟨job,rfl,hkill,rfl⟩

/-- What is not active is not killed, and nothing changes. -/
theorem run_kill_refused (h : m.Numbered) (now : Nat) (hj : job ∈ m.jobs) (hactive : ¬job.state.isActive) :
    (kill now job.pid).run m = (false,m) := by
  have hfits : ¬(Job.Act.kill now).fits job.state := hactive
  simp only [kill, actOn, StateT.run_bind, StateT.run_get, pure_bind]
  cases hfound : m.find? job.pid with
  | none => rfl
  | some other =>
    obtain ⟨ho,hpid⟩ := h.mem_of_find? hfound
    obtain rfl := h.eq_of_number hj ho (Job.number_of_pid hpid)
    simp only [run_act h, h.job?_number hj, Option.any_some, h.map_on hj hfits]
    exact Prod.ext (by simpa using hfits) rfl

/-- What has ended is taken out of the table. -/
theorem run_drop (h : m.Numbered) (hfound : m.find? pid = some job) (hends : job.state.isTerminal) : (drop pid).run m = ((),
    { m with jobs := m.jobs.map (Job.Act.clear.on job.number), table := Keyed.erase pid m.table }) := by
  have hjob := h.job?_number (h.mem_of_find? hfound).1
  have hact : (actOn pid .clear).run m = pure (true, { m with jobs := m.jobs.map (Job.Act.clear.on job.number) }) := by
    simp only [actOn, StateT.run_bind, StateT.run_get, pure_bind, hfound, run_act h, hjob, Option.any_some, Job.Act.fits, hends]
    rfl
  simp only [drop, StateT.run_bind, hact, pure_bind]
  rfl

/-- Whatever has not ended stays in the table. -/
theorem run_drop_kept (h : m.Numbered) (hkept : ∀ job, m.find? pid = some job → ¬job.state.isTerminal) :
    (drop pid).run m = ((),m) := by
  have hact : (actOn pid .clear).run m = pure (false,m) := by
    simp only [actOn, StateT.run_bind, StateT.run_get, pure_bind]
    cases hfound : m.find? pid with
    | none => rfl
    | some job =>
      have hj := (h.mem_of_find? hfound).1
      have hfits : ¬Job.Act.clear.fits job.state := hkept job hfound
      simp only [run_act h, h.job?_number hj, Option.any_some, h.map_on hj hfits, hfits]
      rfl
  simp only [drop, StateT.run_bind, hact, pure_bind]
  rfl

/-- At most a job that has ended is taken out of the table. -/
theorem run_drop_cases (h : m.Numbered) (pid : String) : (drop pid).run m = ((),m) ∨
    ∃ job, m.find? pid = some job ∧ job.state.isTerminal ∧ (drop pid).run m = ((),
      { m with jobs := m.jobs.map (Job.Act.clear.on job.number), table := Keyed.erase pid m.table }) := by
  by_cases hkept : ∀ job, m.find? pid = some job → ¬job.state.isTerminal
  · exact .inl (run_drop_kept h hkept)
  · obtain ⟨job,hfound,hends⟩ : ∃ job, m.find? pid = some job ∧ job.state.isTerminal := by simpa using hkept
    exact .inr ⟨job,hfound,hends,run_drop h hfound hends⟩

theorem Numbered.drop (h : m.Numbered) (pid : String) : ((drop pid).run m).2.Numbered := by
  rcases run_drop_cases h pid with hsame | ⟨job,hfound,hends,hdrop⟩
  · rwa [hsame]
  · obtain ⟨hj,hpid⟩ := h.mem_of_find? hfound
    rw [hdrop]
    refine (h.on job.number .clear).erase fun later hl hsame => ?_
    obtain ⟨other,ho,rfl⟩ := List.mem_map.mp hl
    rw [Job.Act.pid_on, ← hpid] at hsame
    rw [h.eq_of_number hj ho (Job.number_of_pid hsame)]
    exact Job.Act.terminal_on hends

/-! ### Beside the table -/

/-- Whatever an action does is done on the shell and with the model. -/
def Aside (act : Managing σ α) : Prop :=
  ∀ m, ∃ shell requests, (act.run m).2 = { m with shell, requests }

theorem Aside.pure (x : α) : Aside (Pure.pure x : Managing σ α) := fun m => ⟨m.shell,m.requests,rfl⟩

theorem Aside.get : Aside (MonadState.get : Managing σ (Manager σ)) := fun m => ⟨m.shell,m.requests,rfl⟩

theorem Aside.bind {act : Managing σ α} {next : α → Managing σ β} (h : Aside act) (hnext : ∀ x, Aside (next x)) :
    Aside (act >>= next) := by
  intro m
  obtain ⟨shell,requests,hact⟩ := h m
  obtain ⟨shell',requests',hlast⟩ := hnext (act.run m).1 (act.run m).2
  refine ⟨shell',requests',?_⟩
  change ((next (act.run m).1).run (act.run m).2).2 = _
  rw [hlast, hact]

theorem Aside.get_set {f : Manager σ → Manager σ} {next : Manager σ → Managing σ α}
    (h : ∀ m, ∃ shell requests, f m = { m with shell, requests }) (hnext : ∀ m, Aside (next m)) :
    Aside (MonadState.get >>= fun m => set (f m) >>= fun _ => next m) := by
  intro m
  obtain ⟨shell,requests,hf⟩ := h m
  obtain ⟨shell',requests',hlast⟩ := hnext m (f m)
  refine ⟨shell',requests',?_⟩
  change ((next m).run (f m)).2 = _
  rw [hlast, hf]

theorem Aside.ite {p : Prop} [Decidable p] {act other : Managing σ α} (h : Aside act) (ho : Aside other) :
    Aside (if p then act else other) := by
  split
  · exact h
  · exact ho

theorem run_onFiles (act : Filing σ α) (m : Manager σ) :
    (onFiles act).run m = pure ((m.shell.onFiles act).1,{ m with shell := (m.shell.onFiles act).2 }) := rfl

theorem aside_onFiles (act : Filing σ α) : Aside (onFiles act) := fun m => ⟨_,m.requests,rfl⟩

variable [Storage σ]

theorem aside_saveMemory (agent : String) (memory : Memories) : Aside (σ := σ) (saveMemory agent memory) :=
  .bind .get fun _ => .ite (.pure ()) ((aside_onFiles _).bind fun _ => .pure ())

/-- Ending a run is an act on its job; then what it remembers is saved, if it was completed and its agent keeps that. -/
theorem run_finish_eq (h : m.Numbered) (now : Nat) (outcome : Job.Outcome) (job : Job) :
    let done := (((m.job? job.number).getD job).finish now outcome).2
    let ended : Manager σ := { m with jobs := m.jobs.map ((Job.Act.finish now outcome).on job.number) }
    (finish now job outcome).run m = ((((m.job? job.number).getD job).finish now outcome).1,
      if done.state == .completed && done.definition.memory == .persistent then
        ((saveMemory done.definition.name done.memory).run ended).2
      else ended) := by
  intro done ended
  have hdone : done.number = job.number := (Job.Act.number_apply (.finish now outcome) _).trans (number_getD m job)
  have hact : ((act done.number (.finish now outcome)).run m).2 = ended := by rw [hdone, run_act h]
  rw [← hact]
  simp only [finish, StateT.run_bind, StateT.run_get, pure_bind]
  split
  · rfl
  · rfl

/-- Nothing but the table changes, the shell and the requests apart. -/
theorem run_finish (h : m.Numbered) (now : Nat) (outcome : Job.Outcome) (job : Job) :
    ∃ shell requests, (finish now job outcome).run m = ((((m.job? job.number).getD job).finish now outcome).1,
      { m with shell, requests, jobs := m.jobs.map ((Job.Act.finish now outcome).on job.number) }) := by
  rw [run_finish_eq h]
  split
  · obtain ⟨shell,requests,hsave⟩ := aside_saveMemory (σ := σ) _ _ _
    exact ⟨shell,requests,Prod.ext rfl hsave⟩
  · exact ⟨m.shell,m.requests,rfl⟩

theorem Numbered.finish (h : m.Numbered) (now : Nat) (outcome : Job.Outcome) (job : Job) :
    ((finish now job outcome).run m).2.Numbered := by
  obtain ⟨shell,requests,hrun⟩ := run_finish h now outcome job
  rw [hrun]
  exact h.on _ _

/-- A run is ended by the number of its job. -/
theorem run_finish_of_number {other : Job} (now : Nat) (outcome : Job.Outcome) (hj : m.job? other.number = some job) :
    (finish now other outcome).run m = (finish now job outcome).run m := by
  obtain ⟨_,hnumber⟩ := mem_of_job? hj
  have hsame : m.job? job.number = some job := by rw [hnumber, hj]
  simp only [finish, StateT.run_bind, StateT.run_get, pure_bind, hj, hsame, Option.getD_some]

/-- A run whose work was given up leaves nothing behind but its error. -/
theorem run_finish_cancelled (h : m.Numbered) (now : Nat) (job : Job) : (finish now job .cancelled).run m =
    ("Process cancelled", { m with jobs := m.jobs.map ((Job.Act.finish now .cancelled).on job.number) }) := by
  have hfinish (job : Job) : job.finish now .cancelled = ("Process cancelled", { job with
      endTime := job.endTime.or (some now), state := .terminated, error := "Process was cancelled" }) := by
    simp [Job.finish]
  simp only [finish, StateT.run_bind, StateT.run_get, pure_bind, hfinish, run_act h, number_getD]
  rfl

/-- The shell is as it was, or what an agent remembers was looked up on it. -/
def Looked (agent : String) (shell later : Shell σ) : Prop :=
  later = shell ∨ later = (shell.onFiles (FileSystem.read (memoryPath agent))).2

theorem run_loadMemory (m : Manager σ) (agent : String) : ∃ shell memory,
    Looked agent m.shell shell ∧ (loadMemory agent).run m = (memory, { m with shell }) := by
  by_cases hpoisoned : m.poisoned
  · refine ⟨m.shell,[],.inl rfl,?_⟩
    simp only [loadMemory, StateT.run_bind, StateT.run_get, pure_bind]
    rw [if_pos hpoisoned]
    rfl
  · refine ⟨_,((loadMemory agent).run m).1,.inr rfl,Prod.ext rfl ?_⟩
    simp only [loadMemory, StateT.run_bind, StateT.run_get, pure_bind]
    rw [if_neg hpoisoned, StateT.run_bind, run_onFiles, pure_bind]
    split
    · split
      · rfl
      · rfl
    · rfl

/-- What a run has at its beginning is nothing, or was looked up. -/
theorem run_memoryOf (m : Manager σ) (job : Job) : ∃ shell memory,
    Looked job.definition.name m.shell shell ∧ (memoryOf job).run m = (memory, { m with shell }) := by
  unfold memoryOf
  split
  · exact run_loadMemory m job.definition.name
  · exact ⟨m.shell,[],.inl rfl,rfl⟩

theorem run_start_refused (h : m.Numbered) (now : Nat) (input : String) (hj : job ∈ m.jobs)
    (hpending : job.state ≠ .pending) : (start now job input).run m = (.error (.notPending job.pid),m) := by
  simp only [start, StateT.run_bind, run_begin_refused h now input hj hpending]
  rfl

omit [Storage σ] in
/-- After the start of its run a job stands in the table with what it remembers. -/
theorem mem_started (now : Nat) (input : String) (memory : Memories) (hj : job ∈ m.jobs) (hpending : job.state = .pending) :
    { job.begin now input with memory } ∈ (m.jobs.map ((Job.Act.begin now input).on job.number)).map
      ((Job.Act.remember memory).on job.number) := by
  rw [List.map_map]
  exact List.mem_map.mpr ⟨job,hj,by simp [Job.Act.on, Job.Act.fits, Job.Act.apply, Job.begin, hpending]⟩

/-- The start of a run locks its job twice, and looks up what its agent remembers in between. -/
theorem run_start (h : m.Numbered) (now : Nat) (input : String) (hj : job ∈ m.jobs) (hpending : job.state = .pending) :
    ∃ shell memory, Looked job.definition.name m.shell shell ∧
      (start now job input).run m = (.ok { job.begin now input with memory }, ((act job.number (.remember memory)).run { m with
        shell, jobs := m.jobs.map ((Job.Act.begin now input).on job.number) }).2) := by
  let begun : Manager σ := { m with jobs := m.jobs.map ((Job.Act.begin now input).on job.number) }
  obtain ⟨shell,memory,hlooked,hmemory⟩ := run_memoryOf begun job
  let last := ((act job.number (.remember memory)).run { begun with shell }).2
  have hnumbered : Numbered { begun with shell } := h.on _ _
  have hlast : last.job? job.number = some { job.begin now input with memory } := by
    have hlater : last.Numbered := by
      simp only [last, run_act hnumbered]
      exact hnumbered.on _ _
    have hthere : { job.begin now input with memory } ∈ last.jobs := by
      simp only [last, run_act hnumbered, begun]
      exact mem_started now input memory hj hpending
    exact hlater.job?_number hthere
  refine ⟨shell,memory,hlooked,?_⟩
  have hrun : (start now job input).run m = (.ok ((last.job? job.number).getD job),last) := by
    have hlook : (memoryOf job).run begun = pure (memory, { begun with shell }) := hmemory
    have hbegin : (begin now job input).run m = pure (.ok (),begun) := run_begin h now input hj hpending
    simp only [start, StateT.run_bind, hbegin, hlook, pure_bind]
    rfl
  rw [hrun, hlast]
  rfl

end VirtualShell.Agent.Manager
