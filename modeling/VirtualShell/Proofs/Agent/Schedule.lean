import VirtualShell.Agent.Schedule
import VirtualShell.Proofs.Agent.Lifecycle

/-!
The scheduler makes one of the interleavings of a system. Its waiting tasks are calls that ask the model, and each of
its actions is followed by a sequence of events that leads to the same manager at the same time.
-/
namespace VirtualShell.Agent.Schedule
variable {σ α β : Type}

/-! ### A schedule and its mirror -/

/-- A system at the time of a schedule and with its manager, in which the calls of some jobs ask the model. -/
structure Mirrors (asking : List Nat) (schedule : Schedule σ) (s : System σ) : Prop where
  now : s.now = schedule.now
  manager : s.manager = schedule.manager
  invariant : s.Invariant
  nodup : asking.Nodup
  calls : ∀ number ∈ asking, ∃ (i : Nat) (input : String), s.calls[i]? = some ⟨number,input,.asking⟩
  active : ∀ job ∈ s.manager.jobs, job.state.isActive → job.number ∈ asking

/-- A mirrored schedule with certain tasks. -/
def Holds (asking : List Nat) (tasks : List Task) (schedule : Schedule σ) (s : System σ) : Prop :=
  Mirrors asking schedule s ∧ schedule.tasks = tasks

variable {asking : List Nat} {tasks : List Task} {schedule : Schedule σ} {s : System σ}

theorem run_managing (act : Nat → Managing σ α) (schedule : Schedule σ) : (managing act).run schedule =
    (((act schedule.now).run schedule.manager).1,
      { schedule with manager := ((act schedule.now).run schedule.manager).2 }) := rfl

private theorem Mirrors.perm (h : Mirrors asking schedule s) {other : List Nat} (hperm : asking.Perm other) :
    Mirrors other schedule s :=
  ⟨h.now,h.manager,h.invariant,hperm.nodup h.nodup,fun number hn => h.calls number (hperm.mem_iff.mpr hn),
    fun job hj hs => hperm.mem_iff.mp (h.active job hj hs)⟩

/-- Only the time and the manager of a schedule are mirrored. -/
private theorem Mirrors.of_same (h : Mirrors asking schedule s) {other : Schedule σ} (hnow : other.now = schedule.now)
    (hmanager : other.manager = schedule.manager) : Mirrors asking other s :=
  ⟨h.now.trans hnow.symm,h.manager.trans hmanager.symm,h.invariant,h.nodup,h.calls,h.active⟩

/-- What makes no job active leaves the calls of the active ones asking. -/
theorem Mirrors.active_on (h : Mirrors asking schedule s) {act : Job.Act} (number : Nat)
    (hact : ∀ now input, act ≠ .begin now input) :
    ∀ job ∈ s.manager.jobs.map (act.on number), job.state.isActive → job.number ∈ asking := by
  intro later hl hs
  obtain ⟨job,hj,rfl⟩ := List.mem_map.mp hl
  rw [Job.Act.number_on]
  refine h.active job hj ?_
  unfold Job.Act.on at hs
  split at hs
  · rename_i hfits
    exact Job.Act.active_apply hfits.2 hact hs
  · exact hs

private theorem Mirrors.calls_concat (h : Mirrors asking schedule s) (call : Call) :
    ∀ number ∈ asking, ∃ (i : Nat) (input : String), (s.calls ++ [call])[i]? = some ⟨number,input,.asking⟩ := by
  intro number hn
  obtain ⟨i,input,hcall⟩ := h.calls number hn
  exact ⟨i,input,by rw [List.getElem?_append_left (List.getElem?_eq_some_iff.mp hcall).1, hcall]⟩

/-- A job whose call asks the model is not pending. -/
private theorem Mirrors.not_pending (h : Mirrors asking schedule s) {job : Job} (hj : job ∈ s.manager.jobs)
    (hpending : job.state = .pending) : job.number ∉ asking := by
  intro hasking
  obtain ⟨i,input,hcall⟩ := h.calls job.number hasking
  exact h.invariant.first hj hpending (List.mem_of_getElem? hcall) rfl rfl

/-- When a run has begun, its job is the only one that has become active. -/
private theorem Mirrors.active_begun (h : Mirrors asking schedule s) (number : Nat) (input : String) :
    ∀ job ∈ s.manager.jobs.map ((Job.Act.begin s.now input).on number), job.state.isActive → job.number ∈ number :: asking := by
  intro later hl hs
  obtain ⟨job,hj,rfl⟩ := List.mem_map.mp hl
  rw [Job.Act.number_on]
  unfold Job.Act.on at hs
  split at hs
  · rename_i hfits
    exact List.mem_cons.mpr (.inl hfits.1)
  · exact List.mem_cons_of_mem _ (h.active job hj hs)

variable [Storage σ]

/-- An event that leaves the calls alone. -/
theorem Mirrors.step (h : Mirrors asking schedule s) (event : Event σ) {next : Schedule σ}
    (hnow : (s.step event).now = next.now) (hmanager : (s.step event).manager = next.manager)
    (hcalls : (s.step event).calls = s.calls)
    (hactive : ∀ job ∈ (s.step event).manager.jobs, job.state.isActive → job.number ∈ asking) :
    Mirrors asking next (s.step event) where
  now := hnow
  manager := hmanager
  invariant := h.invariant.next event
  nodup := h.nodup
  calls := by rw [hcalls]; exact h.calls
  active := hactive

/-! ### Following an action -/

/-- From a state of affairs, some events lead a system to where an action leads a schedule. -/
def Follows (P : Schedule σ → System σ → Prop) (act : Scheduling σ α) (Q : α → Schedule σ → System σ → Prop) : Prop :=
  ∀ schedule s, P schedule s → ∃ events, Q (act.run schedule).1 (act.run schedule).2 (s.after events)

namespace Follows
variable {P P' : Schedule σ → System σ → Prop} {Q Q' : α → Schedule σ → System σ → Prop}
  {R : β → Schedule σ → System σ → Prop}

theorem pure (x : α) (h : ∀ schedule s, P schedule s → Q x schedule s) : Follows P (Pure.pure x) Q :=
  fun schedule s hp => ⟨[],h schedule s hp⟩

theorem bind {act : Scheduling σ α} {next : α → Scheduling σ β} (h : Follows P act Q)
    (hnext : ∀ x, Follows (Q x) (next x) R) : Follows P (act >>= next) R := by
  intro schedule s hp
  obtain ⟨events,hq⟩ := h schedule s hp
  obtain ⟨more,hr⟩ := hnext _ _ _ hq
  refine ⟨events ++ more,?_⟩
  rw [System.after, List.foldl_append]
  exact hr

/-- What the schedule is when an action looks at it. -/
theorem get_bind {next : Schedule σ → Scheduling σ β}
    (h : ∀ now, Follows (fun schedule s => schedule = now ∧ P schedule s) (next now) R) :
    Follows P (MonadState.get >>= next) R := fun schedule s hp => h schedule schedule s ⟨rfl,hp⟩

theorem mono {act : Scheduling σ α} (h : Follows P act Q) (hp : ∀ schedule s, P' schedule s → P schedule s)
    (hq : ∀ x schedule s, Q x schedule s → Q' x schedule s) : Follows P' act Q' := by
  intro schedule s hs
  obtain ⟨events,he⟩ := h schedule s (hp schedule s hs)
  exact ⟨events,hq _ _ _ he⟩

/-- What is known of the state of affairs. -/
theorem assuming {c : Prop} {act : Scheduling σ α} (hc : ∀ schedule s, P schedule s → c) (h : c → Follows P act Q) :
    Follows P act Q := fun schedule s hp => h (hc schedule s hp) schedule s hp

/-- What all events keep is kept on the way. -/
theorem keeping {known : System σ → Prop} (hknown : System.Kept known) {act : Scheduling σ α} (h : Follows P act Q)
    (hinvariant : ∀ schedule s, P schedule s → s.Invariant) :
    Follows (fun schedule s => P schedule s ∧ known s) act fun x schedule s => Q x schedule s ∧ known s := by
  rintro schedule s ⟨hp,hk⟩
  obtain ⟨events,hq⟩ := h schedule s hp
  exact ⟨events,hq,hknown.after (hinvariant schedule s hp) hk events⟩

theorem ite {c : Prop} [Decidable c] {act other : Scheduling σ α} (h : Follows P act Q) (ho : Follows P other Q) :
    Follows P (if c then act else other) Q := by
  split
  · exact h
  · exact ho

end Follows

theorem follows_aside {act : Nat → Managing σ α} (h : ∀ now, Manager.Aside (act now)) :
    Follows (Holds asking tasks) (managing act) fun _ => Holds asking tasks := by
  intro schedule s ⟨hs,htasks⟩
  obtain ⟨shell,requests,hact⟩ := h schedule.now schedule.manager
  refine ⟨[.elsewhere shell s.manager.poisoned requests],?_,htasks⟩
  refine hs.step (.elsewhere shell s.manager.poisoned requests) hs.now ?_ rfl hs.active
  rw [run_managing, hact]
  simp only [System.step, hs.manager]

/-! ### Runs -/

/-- The events of a call that gets past the check, up to where it asks the model. -/
private theorem after_started (h : s.Invariant) {job : Job} {input : String} (hfound : s.manager.job? job.number = some job)
    (hpending : job.state = .pending) (shell : Shell σ) (requests : List (Request × List String)) (memory : Memories) :
    s.after [.run job.number input,.elsewhere shell s.manager.poisoned requests,.remember s.calls.length memory] = { s with
      manager := ((Manager.act job.number (.remember memory)).run { s.manager with
        shell, requests, jobs := s.manager.jobs.map ((Job.Act.begin s.now input).on job.number) }).2
      calls := s.calls ++ [⟨job.number,input,.asking⟩] } := by
  have hj := (Manager.mem_of_job? hfound).1
  simp [System.after, System.step, hfound, Manager.run_begin h.numbered s.now input hj hpending, System.stageAt]

/-- After the start of a run one more call asks the model, unless the run was refused. -/
def Started (number : Nat) (asking : List Nat) (tasks : List Task) : Except AgentError Job → Schedule σ → System σ → Prop
  | .error _, schedule, s => Holds asking tasks schedule s
  | .ok job, schedule, s => job.number = number ∧ Holds (job.number :: asking) tasks schedule s

theorem follows_start (number : Nat) (input : String) :
    Follows (Holds asking tasks) (start number input) (Started (σ := σ) number asking tasks) := by
  refine .get_bind fun now => ?_
  cases hfound : now.manager.job? number with
  | none => exact .pure _ fun _ _ h => h.2
  | some job =>
    rintro schedule s ⟨rfl,hs,htasks⟩
    obtain ⟨hj,rfl⟩ := Manager.mem_of_job? hfound
    rw [← hs.manager] at hfound hj
    rw [run_managing, ← hs.manager, ← hs.now]
    by_cases hpending : job.state = .pending
    · obtain ⟨shell,memory,_,hrun⟩ := Manager.run_start hs.invariant.numbered s.now input hj hpending
      have hinvariant := hs.invariant.after
        [.run job.number input,.elsewhere shell s.manager.poisoned s.manager.requests,.remember s.calls.length memory]
      refine ⟨[.run job.number input,.elsewhere shell s.manager.poisoned s.manager.requests,
        .remember s.calls.length memory],?_⟩
      rw [after_started hs.invariant hfound hpending] at hinvariant ⊢
      rw [hrun]
      refine ⟨rfl,⟨rfl,rfl,hinvariant,?_,?_,?_⟩,htasks⟩
      · have hnew := hs.not_pending hj hpending
        exact List.nodup_cons.mpr ⟨hnew,hs.nodup⟩
      · exact List.forall_mem_cons.mpr ⟨⟨_,input,List.getElem?_concat_length⟩,hs.calls_concat _⟩
      · have hnumbered : Manager.Numbered { s.manager with
            shell, jobs := s.manager.jobs.map ((Job.Act.begin s.now input).on job.number) } :=
          hs.invariant.numbered.on _ _
        rw [Manager.run_act hnumbered]
        intro later hl hactive
        obtain ⟨other,ho,rfl⟩ := List.mem_map.mp hl
        rw [Job.Act.number_on]
        refine hs.active_begun job.number input other ho ?_
        unfold Job.Act.on at hactive
        split at hactive <;> exact hactive
    · have hinvariant := hs.invariant.after [.run job.number input]
      refine ⟨[.run job.number input],?_⟩
      rw [Manager.run_start_refused hs.invariant.numbered s.now input hj hpending]
      simp only [System.after, List.foldl_cons, List.foldl_nil, System.step, hfound,
        Manager.run_begin_refused hs.invariant.numbered s.now input hj hpending] at hinvariant ⊢
      exact ⟨⟨rfl,rfl,hinvariant,hs.nodup,hs.calls_concat _,hs.active⟩,htasks⟩

/-- The run of a job has ended, and has told so if it was ended by force. -/
def Ended (number : Nat) (reply : String) (s : System σ) : Prop :=
  ∃ job ∈ s.manager.jobs, job.number = number ∧ job.Told reply

theorem kept_ended (number : Nat) (reply : String) : System.Kept (σ := σ) (Ended number reply) :=
  System.kept_job number fun hmoves hsound ht => hmoves.told hsound ht

theorem follows_finish (job : Job) (outcome : Job.Outcome) : Follows (Holds (job.number :: asking) tasks)
    (managing fun now => Manager.finish now job outcome)
    fun reply schedule s => Holds (σ := σ) asking tasks schedule s ∧ Ended job.number reply s := by
  rintro schedule s ⟨hs,htasks⟩
  obtain ⟨i,input,hcall⟩ := hs.calls job.number List.mem_cons_self
  obtain ⟨found,hmem,hnumber,_⟩ := hs.invariant.underway _ (List.mem_of_getElem? hcall) rfl
  have hfound : s.manager.job? job.number = some found := by
    rw [← hs.invariant.numbered.job?_number hmem, hnumber]
  have hinvariant := hs.invariant.after [.finish i outcome]
  obtain ⟨shell,requests,hrun⟩ := Manager.run_finish hs.invariant.numbered s.now outcome found
  rw [hnumber, hfound, Option.getD_some] at hrun
  refine ⟨[.finish i outcome],?_⟩
  rw [run_managing, ← hs.manager, ← hs.now, Manager.run_finish_of_number s.now outcome hfound]
  simp only [System.after, List.foldl_cons, List.foldl_nil, System.step, hcall, hfound, hrun] at hinvariant ⊢
  obtain ⟨hnew,hnodup⟩ := List.nodup_cons.mp hs.nodup
  have hends : (Job.Act.finish s.now outcome).on job.number found = (found.finish s.now outcome).2 :=
    if_pos ⟨hnumber,rfl⟩
  refine ⟨⟨⟨rfl,rfl,hinvariant,hnodup,fun other ho => ?_,fun later hl hactive => ?_⟩,htasks⟩,
    (found.finish s.now outcome).2,hends ▸ List.mem_map_of_mem hmem,?_,found.told_finish s.now outcome⟩
  · obtain ⟨j,input',hother⟩ := hs.calls other (List.mem_cons_of_mem _ ho)
    have hij : i ≠ j := by
      rintro rfl
      rw [hcall] at hother
      cases hother
      exact hnew ho
    exact ⟨j,input',by simpa [System.stageAt, List.getElem?_set_ne hij] using hother⟩
  · -- The job that is finished is no longer active, and the others are what they were.
    refine (List.mem_cons.mp (hs.active_on job.number (by simp) later hl hactive)).resolve_left fun he => ?_
    obtain ⟨other,ho,rfl⟩ := List.mem_map.mp hl
    rw [Job.Act.number_on] at he
    rw [hs.invariant.numbered.eq_of_number hmem ho (he.trans hnumber.symm), hends] at hactive
    have hterminal := found.terminal_finish s.now outcome
    cases hs : (found.finish s.now outcome).2.state <;> simp_all [State.isActive, State.isTerminal]
  · rw [← hends, Job.Act.number_on, hnumber]

/-! ### Work -/

private theorem aside_runTool (call : ToolCall) : Manager.Aside (σ := σ) (Manager.runTool call) := by
  rintro ⟨shell,poisoned,model,limit,jobs,table,next,requests⟩
  cases poisoned with
  | true => exact ⟨shell,requests,rfl⟩
  | false => exact ⟨_,requests,rfl⟩

omit [Storage σ] in
private theorem aside_expandPieces {run : ToolCall → Managing σ (Except AgentError String)}
    (h : ∀ call, Manager.Aside (run call)) (pieces : List Piece) : Manager.Aside (expandPieces run pieces) := by
  induction pieces with
  | nil => exact .pure []
  | cons piece rest ih =>
    cases piece with
    | char c => exact ih.bind fun _ => .pure _
    | call call => exact (h call).bind fun _ => ih.bind fun _ => .pure _

private theorem aside_outcomeOf (answer : Answer) : Manager.Aside (σ := σ) (Manager.outcomeOf answer) := by
  cases answer with
  | text text => exact .pure _
  | calls text => exact ((aside_expandPieces aside_runTool _).bind fun _ => .pure _).bind fun _ => .pure _
  | failure reason => exact .pure _

private theorem aside_ask (job : Job) (tools : List Tool) : Manager.Aside (σ := σ) (Manager.ask job tools) := by
  refine .get_set (fun m => ⟨m.shell,_,rfl⟩) fun m => ?_
  split
  · exact (aside_outcomeOf _).bind fun _ => .pure _
  · exact .pure _

theorem aside_work (job : Job) : Manager.Aside (σ := σ) (Manager.work job) :=
  .bind .get fun _ => .ite (.pure _) (.ite (.pure _) (aside_ask job _))

/-- After the work of a run its call still asks the model, unless the run has ended. -/
def Worked (number : Nat) (asking : List Nat) (tasks : List Task) : String ⊕ Wait → Schedule σ → System σ → Prop
  | .inl reply, schedule, s => Holds asking tasks schedule s ∧ Ended number reply s
  | .inr wait, schedule, s => wait.job.number = number ∧ Holds (number :: asking) tasks schedule s

theorem follows_work (job : Job) : Follows (Holds (job.number :: asking) tasks) (work job)
    (Worked (σ := σ) job.number asking tasks) := by
  refine (follows_aside fun _ => aside_work job).bind fun progress => ?_
  cases progress with
  | ended outcome => exact (follows_finish job outcome).bind fun _ => .pure _ fun _ _ h => h
  | waiting delay answer limit => exact .get_bind fun now => .pure _ fun _ _ h => ⟨rfl,h.2⟩

theorem aside_outcome (schedule : Schedule σ) (wait : Wait) (now : Nat) : Manager.Aside (schedule.outcomeOf wait now) :=
  .ite (.pure _) (.ite (aside_outcomeOf _) (.pure _))

theorem follows_endWait (wait : Wait) : Follows (Holds (wait.job.number :: asking) tasks) (endWait wait)
    fun reply schedule s => Holds (σ := σ) asking tasks schedule s ∧ Ended wait.job.number reply s := by
  refine .get_bind fun now => ?_
  exact .bind ((follows_aside (aside_outcome now wait)).mono (fun _ _ h => h.2) fun _ _ _ h => h)
    fun outcome => follows_finish wait.job outcome

/-! ### Tasks -/

/-- The job whose call asks the model at a stage, if there is one. -/
def askingAt : Stage → List Nat
  | .waiting wait => [wait.job.number]
  | _ => []

/-- The jobs whose calls ask the model while tasks wait. -/
def waits (tasks : List Task) : List Nat := tasks.flatMap fun task => askingAt task.stage

def withStage (id : Nat) (stage : Stage) (tasks : List Task) : List Task :=
  tasks.map fun task => if task.id == id then { task with stage } else task

private theorem withStage_eq_self {id : Nat} (stage : Stage) (h : ∀ task ∈ tasks, task.id ≠ id) :
    withStage id stage tasks = tasks := by
  refine (List.map_congr_left fun task ht => ?_).trans (List.map_id _)
  simp [h task ht]

/-- One of some tasks, and the jobs that the others wait for. -/
structure Picked (tasks : List Task) (id : Nat) (task : Task) (rest : List Nat) : Prop where
  ids : tasks.map Task.id = List.range tasks.length
  mem : task ∈ tasks
  only : ∀ other ∈ tasks, other.id = id → other = task
  before : (waits tasks).Perm (askingAt task.stage ++ rest)
  after : ∀ stage, (waits (withStage id stage tasks)).Perm (askingAt stage ++ rest)

/-- A task comes to another stage, and all others wait as before. -/
private theorem exists_picked {id : Nat} {task : Task} (hids : tasks.map Task.id = List.range tasks.length)
    (hfound : tasks.find? (fun task => task.id == id) = some task) : ∃ rest, Picked tasks id task rest := by
  have hnodup : (tasks.map Task.id).Nodup := hids ▸ List.nodup_range
  have hmem := List.mem_of_find?_eq_some hfound
  obtain ⟨hid,before,after,rfl,_⟩ := List.find?_eq_some_iff_append.mp hfound
  obtain rfl : task.id = id := by simpa using hid
  have honly : ∀ other ∈ before ++ task :: after, other.id = task.id → other = task :=
    fun other ho he => List.inj_on_of_nodup_map hnodup ho hmem he
  simp only [List.map_append, List.map_cons, List.nodup_append, List.nodup_cons, List.mem_map] at hnodup
  obtain ⟨_,⟨hafter,_⟩,hdisjoint⟩ := hnodup
  have hb : ∀ other ∈ before, other.id ≠ task.id := fun other ho => hdisjoint _ ⟨other,ho,rfl⟩ _ List.mem_cons_self
  have ha : ∀ other ∈ after, other.id ≠ task.id := fun other ho he => hafter ⟨other,ho,he⟩
  have hperm (stages : List Nat) : (waits before ++ (stages ++ waits after)).Perm (stages ++ (waits before ++ waits after)) := by
    rw [← List.append_assoc, ← List.append_assoc]
    exact List.perm_append_comm.append_right _
  refine ⟨waits before ++ waits after,hids,hmem,honly,?_,fun stage => ?_⟩
  · simpa [waits] using hperm (askingAt task.stage)
  · have hstage : withStage task.id stage (before ++ task :: after) = before ++ { task with stage } :: after := by
      rw [withStage, List.map_append, List.map_cons]
      simp only [beq_self_eq_true, if_true]
      exact congrArg₂ (fun front back => front ++ { task with stage } :: back) (withStage_eq_self stage hb)
        (withStage_eq_self stage ha)
    rw [hstage]
    simpa [waits] using hperm (askingAt stage)

/-- A task at its stage: it runs its job, and what it tells is what its run has come to. -/
def Fits (task : Task) (s : System σ) : Prop :=
  match task.stage with
  | .queued number _ => number = task.job
  | .waiting wait => wait.job.number = task.job
  | .done (.ok reply) => Ended task.job reply s
  | .done (.error _) => True

private theorem kept_fits (task : Task) : System.Kept (σ := σ) (Fits task) := by
  intro s event h hfits
  unfold Fits at hfits ⊢
  split at hfits
  · exact hfits
  · exact hfits
  · exact kept_ended _ _ s event h hfits
  · exact hfits

/-- A mirrored schedule in which every waiting task asks the model, and so does the foreground for some jobs. -/
structure Settled (front : List Nat) (schedule : Schedule σ) (s : System σ) : Prop where
  ids : schedule.tasks.map Task.id = List.range schedule.tasks.length
  mirrors : Mirrors (front ++ waits schedule.tasks) schedule s
  fits : ∀ task ∈ schedule.tasks, Fits task s

variable {front : List Nat}

theorem follows_modify (f : Schedule σ → Schedule σ) (hnow : ∀ schedule, (f schedule).now = schedule.now)
    (hmanager : ∀ schedule, (f schedule).manager = schedule.manager)
    (htasks : ∀ schedule, (f schedule).tasks = schedule.tasks) :
    Follows (Settled front) (modify f) fun _ => Settled front := by
  rintro schedule s ⟨hids,hs,hfits⟩
  refine ⟨[],?_⟩
  change Settled front (f schedule) s
  refine ⟨?_,?_,?_⟩
  · rw [htasks]
    exact hids
  · rw [htasks]
    exact hs.of_same (hnow schedule) (hmanager schedule)
  · rw [htasks]
    exact hfits

/-- What the foreground does, and what others do, leaves the tasks as they are. -/
theorem Follows.settled {act : Scheduling σ α} {Q : List Task → α → Schedule σ → System σ → Prop}
    {R : α → Schedule σ → System σ → Prop} (h : ∀ tasks, Follows (Holds (front ++ waits tasks) tasks) act (Q tasks))
    (hr : ∀ tasks x schedule s, Q tasks x schedule s →
      (∀ asking, Holds (asking ++ waits tasks) tasks schedule s → Settled asking schedule s) → R x schedule s) :
    Follows (Settled front) act R := by
  intro schedule s hs
  have hkept : System.Kept (σ := σ) fun s => ∀ task ∈ schedule.tasks, Fits task s :=
    fun s event hinvariant hfits task ht => kept_fits task s event hinvariant (hfits task ht)
  obtain ⟨events,hq,hfits⟩ := (h schedule.tasks).keeping hkept (fun _ _ h => h.1.invariant) schedule s
    ⟨⟨hs.mirrors,rfl⟩,hs.fits⟩
  refine ⟨events,hr schedule.tasks _ _ _ hq fun asking ⟨hmirrors,htasks⟩ => ⟨?_,?_,?_⟩⟩
  · rw [htasks]
    exact hs.ids
  · rw [htasks]
    exact hmirrors
  · rw [htasks]
    exact hfits

/-- Time goes on. -/
theorem follows_clock (moment : Nat) : Follows (Settled front)
    (modify fun schedule => { schedule with now := max schedule.now moment }) fun _ => Settled (σ := σ) front := by
  rintro schedule s ⟨hids,hs,hfits⟩
  refine ⟨[.tick moment],hids,hs.step (.tick moment) ?_ hs.manager rfl hs.active,?_⟩
  · exact congrArg (max · moment) hs.now
  · exact fun task ht => kept_fits task s (.tick moment) hs.invariant (hfits task ht)

theorem follows_spawn (number : Nat) (input : String) :
    Follows (Settled front) (spawn number input) fun _ => Settled (σ := σ) front := by
  rintro schedule s ⟨hids,hs,hfits⟩
  refine ⟨[],?_,?_,?_⟩
  · change (schedule.tasks ++ [_]).map Task.id = List.range (schedule.tasks ++ [_]).length
    rw [List.map_append, hids, List.length_append, List.length_singleton, List.range_succ]
    rfl
  · have hwaits : waits (schedule.tasks ++ [⟨schedule.tasks.length,number,.queued number input⟩]) = waits schedule.tasks := by
      simp [waits, askingAt]
    change Mirrors (front ++ waits (schedule.tasks ++ [_])) _ _
    rw [hwaits]
    exact hs.of_same rfl rfl
  · intro task ht
    rcases List.mem_append.mp ht with ht | ht
    · exact hfits task ht
    · rw [List.mem_singleton.mp ht]
      rfl

/-! ### One task at a time -/

/-- A mirrored schedule whose tasks, but for one, tell what their runs have come to. -/
def Amid (id : Nat) (tasks : List Task) (asking : List Nat) (schedule : Schedule σ) (s : System σ) : Prop :=
  Holds asking tasks schedule s ∧ ∀ task ∈ tasks, task.id ≠ id → Fits task s

variable {id : Nat} {task : Task} {rest : List Nat}

omit [Storage σ] in
private theorem Settled.amid (h : Settled front schedule s) (hp : Picked schedule.tasks id task rest) :
    Amid id schedule.tasks (askingAt task.stage ++ (front ++ rest)) schedule s :=
  ⟨⟨h.mirrors.perm ((hp.before.append_left front).trans (List.perm_append_comm_assoc _ _ _)),rfl⟩,
    fun other ho _ => h.fits other ho⟩

private theorem kept_others (id : Nat) (tasks : List Task) :
    System.Kept (σ := σ) fun s => ∀ task ∈ tasks, task.id ≠ id → Fits task s :=
  fun s event hs hfits task ht hne => kept_fits task s event hs (hfits task ht hne)

/-- While one task goes on, the others stay as they are. -/
private theorem Follows.amid {α : Type} {act : Scheduling σ α} {Q : α → Schedule σ → System σ → Prop}
    (h : Follows (Holds asking tasks) act Q) : Follows (Amid id tasks asking) act fun x schedule s =>
      Q x schedule s ∧ ∀ task ∈ tasks, task.id ≠ id → Fits task s :=
  h.keeping (kept_others id tasks) fun _ _ h => h.1.invariant

private theorem follows_setStage (hp : Picked tasks id task rest) (stage : Stage) :
    Follows (fun schedule s => Amid id tasks (askingAt stage ++ (front ++ rest)) schedule s ∧ Fits { task with stage } s)
      (setStage id stage) fun _ => Settled (σ := σ) front := by
  rintro schedule s ⟨⟨⟨hs,rfl⟩,hothers⟩,hfits⟩
  refine ⟨[],?_,?_,?_⟩
  · change (withStage id stage schedule.tasks).map Task.id = List.range (withStage id stage schedule.tasks).length
    rw [withStage, List.length_map, ← hp.ids, List.map_map]
    refine List.map_congr_left fun task _ => ?_
    by_cases h : task.id = id <;> simp [h]
  · exact hs.perm ((List.perm_append_comm_assoc _ _ _).trans ((hp.after stage).symm.append_left front)) |>.of_same rfl rfl
  · change ∀ later ∈ withStage id stage schedule.tasks, Fits later s
    intro later hl
    obtain ⟨other,ho,rfl⟩ := List.mem_map.mp hl
    by_cases h : other.id = id
    · rw [if_pos (by simpa using h), hp.only other ho h]
      exact hfits
    · rw [if_neg (by simpa using h)]
      exact hothers other ho h

private theorem follows_done (hp : Picked tasks id task rest) (reply : String) : Follows (fun schedule s =>
    (Holds (front ++ rest) tasks schedule s ∧ Ended task.job reply s) ∧ ∀ task ∈ tasks, task.id ≠ id → Fits task s)
    (setStage id (.done (.ok reply))) fun _ => Settled (σ := σ) front :=
  (follows_setStage hp (.done (.ok reply))).mono (fun _ _ ⟨⟨h,hended⟩,hothers⟩ => ⟨⟨h,hothers⟩,hended⟩) fun _ _ _ h => h

/-- A task whose wait is over. -/
private theorem follows_over (hp : Picked tasks id task rest) {wait : Wait} (hnumber : wait.job.number = task.job) :
    Follows (Amid id tasks (wait.job.number :: (front ++ rest))) (do setStage id (.done (.ok (← endWait wait))))
      fun _ => Settled (σ := σ) front := by
  refine (follows_endWait wait).amid.bind fun reply => ?_
  rw [hnumber]
  exact follows_done hp reply

private theorem follows_sleep (hp : Picked tasks id task rest) {wait : Wait} (hnumber : wait.job.number = task.job) :
    Follows (Amid id tasks (wait.job.number :: (front ++ rest)))
      (do
        setStage id (.waiting wait)
        modify fun schedule => { schedule with sleeping := schedule.sleeping ++ [id] })
      fun _ => Settled (σ := σ) front := by
  refine .bind (.mono (follows_setStage hp (.waiting wait)) (fun _ _ h => ⟨h,hnumber⟩) fun _ _ _ h => h) fun _ => ?_
  exact follows_modify _ (fun _ => rfl) (fun _ => rfl) fun _ => rfl

/-- A task that was put into the background, when its turn comes for the first time. -/
private theorem follows_queued (hp : Picked tasks id task rest) (input : String) :
    Follows (Amid id tasks (front ++ rest))
      (do
        match ← start task.job input with
        | .error e => setStage id (.done (.error e))
        | .ok job =>
          match ← work job with
          | .inl reply => setStage id (.done (.ok reply))
          | .inr wait =>
            if wait.until_ ≤ (← get).now then setStage id (.done (.ok (← endWait wait)))
            else
              setStage id (.waiting wait)
              modify fun schedule => { schedule with sleeping := schedule.sleeping ++ [id] })
      fun _ => Settled (σ := σ) front := by
  refine (follows_start task.job input).amid.bind fun result => ?_
  cases result with
  | error e =>
    exact (follows_setStage hp (.done (.error e))).mono (fun _ _ h => ⟨h,trivial⟩) fun _ _ _ h => h
  | ok job =>
    refine .assuming (c := job.number = task.job) (fun _ _ ⟨⟨hj,_⟩,_⟩ => hj) fun hjob => ?_
    refine .mono ((follows_work job).amid.bind fun progress => ?_) (fun _ _ ⟨⟨_,h⟩,hothers⟩ => ⟨h,hothers⟩) fun _ _ _ h => h
    cases progress with
    | inl reply =>
      dsimp only [Worked]
      rw [hjob]
      exact follows_done hp reply
    | inr wait =>
      refine .get_bind fun later => .assuming (c := wait.job.number = job.number) (fun _ _ ⟨_,⟨hw,_⟩,_⟩ => hw) fun hwait => ?_
      refine .mono (.ite (follows_over hp (hwait.trans hjob)) (follows_sleep hp (hwait.trans hjob))) ?_ fun _ _ _ h => h
      rintro current t ⟨_,⟨_,h⟩,hothers⟩
      exact ⟨hwait ▸ h,hothers⟩

theorem follows_advance (id : Nat) : Follows (Settled front) (advance id) fun _ => Settled (σ := σ) front := by
  refine .get_bind fun now => .assuming (c := now.tasks.map Task.id = List.range now.tasks.length)
    (fun _ _ ⟨he,h⟩ => he ▸ h.ids) fun hids => ?_
  cases hfound : now.task? id with
  | none => exact .pure _ fun _ _ h => h.2
  | some task =>
    obtain ⟨rest,hp⟩ := exists_picked hids hfound
    have hpre : ∀ current t, current = now ∧ Settled front current t →
        Amid id now.tasks (askingAt task.stage ++ (front ++ rest)) current t := by
      rintro current t ⟨rfl,h⟩
      exact h.amid hp
    have hfits : ∀ current t, current = now ∧ Settled front current t → Fits task t := by
      rintro current t ⟨rfl,h⟩
      exact h.fits task hp.mem
    simp only [Option.map_some]
    unfold Fits at hfits
    cases htask : task.stage with
    | done reply => exact .pure _ fun _ _ h => h.2
    | waiting wait =>
      rw [htask] at hpre hfits
      exact .assuming hfits fun hnumber => (follows_over hp hnumber).mono hpre fun _ _ _ h => h
    | queued number input =>
      rw [htask] at hpre hfits
      refine .assuming hfits fun hnumber => ?_
      rw [hnumber]
      exact (follows_queued hp input).mono hpre fun _ _ _ h => h

end VirtualShell.Agent.Schedule
