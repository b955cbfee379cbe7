import VirtualShell.Proofs.Agent.Queue

/-!
What runs leave alone. A run does nothing to the jobs but three acts on its own one, so what these acts uphold is upheld
by all the work of a schedule; only calls of the manager can do more.
-/
namespace VirtualShell.Agent

/-- The acts that a run does to its job. -/
inductive Job.Act.OfRun : Job.Act → Prop
  | begin (now : Nat) (input : String) : OfRun (.begin now input)
  | remember (memory : Memories) : OfRun (.remember memory)
  | finish (now : Nat) (outcome : Job.Outcome) : OfRun (.finish now outcome)

/-- The job that a task still has to do with. -/
def Stage.job? : Stage → Option Nat
  | .queued number _ => some number
  | .waiting wait => some wait.job.number
  | .done _ => none

/-- What runs of the job with a number uphold of all jobs and the table. -/
def RunsUphold (P : List Job → Keyed Nat → Prop) (number : Nat) : Prop :=
  ∀ act : Job.Act, act.OfRun → ∀ jobs table, P jobs table → P (jobs.map (act.on number)) table

/-- The jobs with other numbers are left alone. -/
theorem runsUphold_of_ne {Q : Job → Prop} {number other : Nat} (hne : other ≠ number) :
    RunsUphold (fun jobs _ => ∃ job ∈ jobs, job.number = number ∧ Q job) other := by
  rintro act - jobs - ⟨job,hj,hnumber,hq⟩
  refine ⟨job,List.mem_map.mpr ⟨job,hj,if_neg fun h => hne (h.1.symm.trans hnumber)⟩,hnumber,hq⟩

namespace Manager
variable {σ α β : Type} {P : List Job → Keyed Nat → Prop}

/-- What an action upholds of all jobs and the table, whatever the manager is. -/
def Upholds (P : List Job → Keyed Nat → Prop) (act : Managing σ α) : Prop :=
  ∀ m, m.Numbered → P m.jobs m.table → (act.run m).2.Numbered ∧ P (act.run m).2.jobs (act.run m).2.table

namespace Upholds

theorem pure (x : α) : Upholds P (Pure.pure x : Managing σ α) := fun _ hn hp => ⟨hn,hp⟩

theorem bind {act : Managing σ α} {next : α → Managing σ β} (h : Upholds P act) (hnext : ∀ x, Upholds P (next x)) :
    Upholds P (act >>= next) := by
  intro m hn hp
  obtain ⟨hn',hp'⟩ := h m hn hp
  exact hnext _ _ hn' hp'

theorem get_bind {next : Manager σ → Managing σ α} (h : ∀ m, m.Numbered → Upholds P (next m)) :
    Upholds P (MonadState.get >>= next) := fun m hn hp => h m hn m hn hp

theorem ite {c : Prop} [Decidable c] {act other : Managing σ α} (h : Upholds P act) (ho : Upholds P other) :
    Upholds P (if c then act else other) := by
  split
  · exact h
  · exact ho

theorem aside {act : Managing σ α} (h : Aside act) : Upholds P act := by
  intro m hn hp
  obtain ⟨shell,requests,hrun⟩ := h m
  rw [hrun]
  exact ⟨hn,hp⟩

theorem act {number : Nat} {act : Job.Act} (h : ∀ jobs table, P jobs table → P (jobs.map (act.on number)) table) :
    Upholds P (Manager.act (σ := σ) number act) := by
  intro m hn hp
  rw [run_act hn]
  exact ⟨hn.on number act,h m.jobs m.table hp⟩

/-- An act on a job of the table is one on a job of that name. -/
theorem actOn {pid : String} {act : Job.Act}
    (h : ∀ job : Job, job.pid = pid → ∀ jobs table, P jobs table → P (jobs.map (act.on job.number)) table) :
    Upholds P (Manager.actOn (σ := σ) pid act) := by
  refine .get_bind fun m hn => ?_
  cases hfound : m.find? pid with
  | none => exact .pure false
  | some job => exact .act (h job (hn.mem_of_find? hfound).2)

theorem create (h : ∀ jobs job table, P jobs table → P (jobs ++ [job]) (Keyed.insert job.pid job.number table))
    (definition : Definition) (background : Bool) : Upholds P (Manager.create (σ := σ) definition background) :=
  fun _ hn hp => ⟨hn.concat definition background,h _ _ _ hp⟩

theorem drop (h : ∀ number pid jobs table, P jobs table → P (jobs.map (Job.Act.clear.on number)) (Keyed.erase pid table))
    (pid : String) : Upholds P (Manager.drop (σ := σ) pid) := by
  intro m hn hp
  refine ⟨hn.drop pid,?_⟩
  rcases run_drop_cases hn pid with hsame | ⟨job,_,_,hdrop⟩
  · rwa [hsame]
  · rw [hdrop]
    exact h job.number pid m.jobs m.table hp

theorem cleanupCompleted
    (h : ∀ number pid jobs table, P jobs table → P (jobs.map (Job.Act.clear.on number)) (Keyed.erase pid table)) :
    Upholds P (Manager.cleanupCompleted (σ := σ)) := by
  have hdrops (pids : List String) : Upholds P (pids.forM (Manager.drop (σ := σ))) := by
    induction pids with
    | nil => exact .pure ()
    | cons pid rest ih => exact (Upholds.drop h pid).bind fun _ => ih
  exact .get_bind fun m _ => (hdrops m.table.keys).bind fun _ => .get_bind fun _ _ => .pure _

/-- Others use the shell. -/
theorem elsewhere (shell : Shell σ) (poisoned : Bool) :
    Upholds P (modify fun manager : Manager σ => { manager with shell, poisoned }) := fun _ hn hp => ⟨hn,hp⟩

end Upholds

variable [Storage σ] {job : Job}

private theorem aside_memoryOf (job : Job) : Aside (σ := σ) (memoryOf job) := by
  intro m
  obtain ⟨shell,_,_,hrun⟩ := run_memoryOf m job
  exact ⟨shell,m.requests,by rw [hrun]⟩

theorem upholds_start (h : RunsUphold P job.number) (now : Nat) (input : String) : Upholds (σ := σ) P (start now job input) := by
  have hact {act : Job.Act} (hrun : act.OfRun) : Upholds (σ := σ) P (Manager.act job.number act) := .act (h act hrun)
  have hbegin : Upholds (σ := σ) P (begin now job input) := (hact (.begin now input)).bind fun _ => .ite (.pure _) (.pure _)
  refine hbegin.bind fun begun => ?_
  cases begun with
  | error e => exact .pure _
  | ok => exact (Upholds.aside (aside_memoryOf job)).bind fun memory =>
      (hact (.remember memory)).bind fun _ => .get_bind fun _ _ => .pure _

theorem upholds_finish (h : RunsUphold P job.number) (now : Nat) (outcome : Job.Outcome) :
    Upholds (σ := σ) P (finish now job outcome) := by
  intro m hn hp
  obtain ⟨shell,requests,hrun⟩ := run_finish hn now outcome job
  rw [hrun]
  exact ⟨hn.on _ _,h _ (.finish now outcome) m.jobs m.table hp⟩

end Manager

namespace Schedule
variable {σ α : Type} {P : List Job → Keyed Nat → Prop} {moment : Nat}

/-! ### Steps of a schedule -/

/-- A schedule at a moment, with jobs and a table for which something holds. -/
structure Holding (P : List Job → Keyed Nat → Prop) (moment : Nat) (schedule : Schedule σ) : Prop where
  now : schedule.now = moment
  numbered : schedule.manager.Numbered
  table : P schedule.manager.jobs schedule.manager.table

theorem leads_upheld {act : Nat → Managing σ α} (h : ∀ now, Manager.Upholds P (act now)) :
    Leads (Holding P moment) (managing act) fun _ => Holding P moment := by
  intro schedule hs
  obtain ⟨hn,hp⟩ := h schedule.now schedule.manager hs.numbered hs.table
  exact ⟨hs.now,hn,hp⟩

variable [Storage σ]

/-- After a start the run of the job is under way, unless it was refused. -/
def Begins (P : List Job → Keyed Nat → Prop) (moment number : Nat) : Except AgentError Job → Schedule σ → Prop
  | .error _, schedule => Holding P moment schedule
  | .ok job, schedule => job.number = number ∧ Holding P moment schedule

omit [Storage σ] in
theorem Begins.holding {number : Nat} {result : Except AgentError Job} {schedule : Schedule σ}
    (h : Begins P moment number result schedule) : Holding P moment schedule := by
  cases result with
  | error => exact h
  | ok => exact h.2

theorem upheld_start {number : Nat} (h : RunsUphold P number) (input : String) :
    Leads (Holding P moment) (start number input) (Begins (σ := σ) P moment number) := by
  refine .get_bind fun now hn => ?_
  cases hfound : now.manager.job? number with
  | none => exact .pure _ fun _ he => he ▸ hn
  | some job =>
    obtain ⟨hj,rfl⟩ := Manager.mem_of_job? hfound
    rintro schedule rfl
    have hlater := leads_upheld (fun now => Manager.upholds_start h now input) schedule hn
    rw [run_managing] at hlater ⊢
    by_cases hpending : job.state = .pending
    · obtain ⟨_,_,_,hrun⟩ := Manager.run_start hn.numbered schedule.now input hj hpending
      rw [hrun] at hlater ⊢
      exact ⟨rfl,hlater⟩
    · rw [Manager.run_start_refused hn.numbered schedule.now input hj hpending] at hlater ⊢
      exact hlater

theorem upheld_finish {job : Job} (h : RunsUphold P job.number) (outcome : Job.Outcome) :
    Leads (Holding (σ := σ) P moment) (managing fun now => Manager.finish now job outcome) fun _ => Holding P moment :=
  leads_upheld fun now => Manager.upholds_finish h now outcome

/-- After the work of a run it waits on behalf of its job, unless it has ended. -/
def Works (P : List Job → Keyed Nat → Prop) (moment : Nat) (job : Job) : String ⊕ Wait → Schedule σ → Prop
  | .inl _, schedule => Holding P moment schedule
  | .inr wait, schedule => wait.job = job ∧ Holding P moment schedule

omit [Storage σ] in
theorem Works.holding {job : Job} {progress : String ⊕ Wait} {schedule : Schedule σ} (h : Works P moment job progress schedule) :
    Holding P moment schedule := by
  cases progress with
  | inl => exact h
  | inr => exact h.2

theorem upheld_work {job : Job} (h : RunsUphold P job.number) :
    Leads (Holding P moment) (work job) (Works (σ := σ) P moment job) := by
  refine (leads_upheld fun _ => .aside (aside_work job)).bind fun progress => ?_
  cases progress with
  | ended outcome => exact (upheld_finish h outcome).bind fun reply => .pure _ fun _ hs => hs
  | waiting delay answer limit => exact .get_bind fun now hn => .pure _ fun _ he => ⟨rfl,he ▸ hn⟩

theorem upheld_endWait {wait : Wait} (h : RunsUphold P wait.job.number) :
    Leads (Holding (σ := σ) P moment) (endWait wait) fun _ => Holding P moment := by
  refine .get_bind fun now hn => ?_
  exact ((leads_upheld fun time => .aside (aside_outcome now wait time)).from_ hn).bind fun outcome => upheld_finish h outcome

omit [Storage σ] in
private theorem upheld_setStage (id : Nat) (stage : Stage) :
    Leads (Holding (σ := σ) P moment) (setStage id stage) fun _ => Holding P moment :=
  .update fun _ hs => ⟨hs.now,hs.numbered,hs.table⟩

private theorem upheld_over {wait : Wait} (h : RunsUphold P wait.job.number) (id : Nat) :
    Leads (Holding (σ := σ) P moment) (do setStage id (.done (.ok (← endWait wait)))) fun _ => Holding P moment :=
  (upheld_endWait h).bind fun _ => upheld_setStage id _

/-- What runs of its job uphold is upheld when a task goes on, and no time passes. -/
theorem upheld_advance {id : Nat} {schedule : Schedule σ} (hs : Holding P moment schedule)
    (h : ∀ stage ∈ schedule.stage? id, ∀ number ∈ stage.job?, RunsUphold P number) :
    Holding P moment ((advance id).run schedule).2 := by
  refine (?_ : Leads (fun now => now = schedule) (advance id) fun _ => Holding P moment) schedule rfl
  refine .get_bind ?_
  rintro now rfl
  rw [show (now.task? id).map Task.stage = now.stage? id from rfl]
  cases hstage : now.stage? id with
  | none => exact .pure _ fun _ he => he ▸ hs
  | some stage =>
    rw [hstage] at h
    cases stage with
    | done reply => exact .pure _ fun _ he => he ▸ hs
    | waiting wait => exact (upheld_over (h _ rfl _ rfl) id).from_ hs
    | queued number input =>
      have hown : RunsUphold P number := h _ rfl _ rfl
      refine ((upheld_start hown input).from_ hs).bind fun result => ?_
      cases result with
      | error e => exact upheld_setStage id _
      | ok job =>
        refine .given (c := job.number = number) fun hnumber => ?_
        subst hnumber
        refine (upheld_work hown).bind fun progress => ?_
        cases progress with
        | inl reply => exact upheld_setStage id _
        | inr wait =>
          refine .given (c := wait.job = job) fun hwait => ?_
          subst hwait
          refine .get_bind fun later hl => .ite ((upheld_over hown id).from_ hl) ?_
          exact ((upheld_setStage id _).from_ hl).bind fun _ => .update fun _ hs => ⟨hs.now,hs.numbered,hs.table⟩

/-- What all runs uphold is kept, if the calls of the manager do so too. -/
theorem sustained_table (h : ∀ number, RunsUphold P number) :
    Sustained (σ := σ) (fun act => ∀ now, Manager.Upholds P (act now)) fun _ _ schedule => ∃ moment, Holding P moment schedule where
  idling _ := {
    queue := fun ⟨_,hs⟩ _ => ⟨_,hs.now,hs.numbered,hs.table⟩
    advance := fun _ _ ⟨_,hs⟩ => ⟨_,upheld_advance hs fun _ _ number _ => h number⟩
    wake := fun ⟨_,hs⟩ _ => ⟨_,hs.now,hs.numbered,hs.table⟩
    clock := fun ⟨_,hs⟩ _ => ⟨_,rfl,hs.numbered,hs.table⟩
    credit := fun _ ⟨_,hs⟩ => ⟨_,hs.now,hs.numbered,hs.table⟩ }
  spawn _ _ := fun _ ⟨_,hs⟩ => ⟨_,hs.now,hs.numbered,hs.table⟩
  managing hact := fun schedule ⟨_,hs⟩ => ⟨_,leads_upheld hact schedule hs⟩
  start number input := fun schedule ⟨_,hs⟩ => ⟨_,(upheld_start (h number) input schedule hs).holding⟩
  work job := fun schedule ⟨_,hs⟩ => ⟨_,(upheld_work (h job.number) schedule hs).holding⟩
  endWait wait := fun schedule ⟨_,hs⟩ => ⟨_,upheld_endWait (h wait.job.number) schedule hs⟩

end Schedule
end VirtualShell.Agent
