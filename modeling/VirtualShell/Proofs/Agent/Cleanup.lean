import VirtualShell.Proofs.Agent.Kill
import VirtualShell.Proofs.Agent.Sweep

/-!
A cleanup leaves no live work. Jobs whose work was given up stay so whatever happens: one that was not begun can still be
run, but its run ends at once, without its model, and tells that it was cancelled.
-/
namespace VirtualShell.Agent

/-! ### Jobs that were given up -/

namespace Job
variable {now : Nat} {job : Job} {P Q : Prop}

/-- A job whose work was given up: it is pending, or ended by force, or a run of it is about to be ended. -/
structure Forsaken (ending : Prop) (job : Job) : Prop where
  cancelled : job.cancelled
  state : job.state = .pending ∨ (job.state = .terminated ∧ job.endTime.isSome) ∨ (job.state.isActive ∧ ending)

theorem Forsaken.mono (h : Forsaken P job) (hpq : P → Q) : Forsaken Q job :=
  ⟨h.cancelled,h.state.imp_right (Or.imp_right (And.imp_right hpq))⟩

/-- What others do to it makes no difference. -/
theorem Forsaken.control (h : Forsaken P job) {control : Control} (hfits : (control.act now).fits job.state) :
    Forsaken P ((control.act now).apply job) := by
  refine ⟨Act.cancelled_apply _ h.cancelled,?_⟩
  cases control with
  | kill => exact .inr (.inl ⟨rfl,rfl⟩)
  | clear => exact h.state
  | giveUp =>
    simp only [Control.act, Act.apply]
    split
    · exact .inr (.inl ⟨rfl,rfl⟩)
    · exact h.state
  | suspend =>
    have hs : job.state = .running := by simpa [Control.act, Act.fits] using hfits
    exact .inr (.inr ⟨rfl,by simpa [hs, State.isActive] using h.state⟩)
  | resume =>
    have hs : job.state = .suspended := by simpa [Control.act, Act.fits] using hfits
    exact .inr (.inr ⟨rfl,by simpa [hs, State.isActive] using h.state⟩)

theorem Forsaken.on {number : Nat} (h : Forsaken P job) (now : Nat) (control : Control) :
    Forsaken P ((control.act now).on number job) := by
  unfold Act.on
  split
  · rename_i hfits
    exact h.control hfits.2
  · exact h

theorem Forsaken.finished (h : Forsaken P job) (now : Nat) : Forsaken Q (job.finish now .cancelled).2 := by
  refine ⟨Act.cancelled_apply (.finish now .cancelled) h.cancelled,.inr (.inl ?_)⟩
  cases hend : job.endTime <;> simp [finish, hend]

theorem forsaken_swept (hterminal : ¬job.state.isTerminal) : Forsaken P (job.swept now) := by
  rcases State.cases job.state with hpending | hactive | hterm
  · rw [swept_pending hpending]
    exact ⟨rfl,.inl hpending⟩
  · rw [swept_active hactive]
    exact ⟨rfl,.inr (.inl ⟨rfl,rfl⟩)⟩
  · exact absurd hterm hterminal

end Job

namespace Manager
variable {σ : Type} {m m' : Manager σ} {job : Job} {number : Nat} {P Q : Prop}

/-- The shell can be used, and among the jobs there is one that was given up. -/
structure Forsakes (number : Nat) (ending : Prop) (m : Manager σ) : Prop where
  numbered : m.Numbered
  usable : m.poisoned = false
  job : ∃ job ∈ m.jobs, job.number = number ∧ job.Forsaken ending

theorem Forsakes.mono (h : m.Forsakes number P) (hpq : P → Q) : m.Forsakes number Q := by
  obtain ⟨job,hj,hnumber,hf⟩ := h.job
  exact ⟨h.numbered,h.usable,job,hj,hnumber,hf.mono hpq⟩

/-- What is done to every job is done to the one that was given up. -/
theorem Forsakes.map (h : m.Forsakes number P) {f : Job → Job} (hnumbered : m'.Numbered) (hjobs : m'.jobs = m.jobs.map f)
    (hpoisoned : m'.poisoned = m.poisoned) (hnumber : ∀ job, (f job).number = job.number)
    (hf : ∀ job, job.number = number → job.Forsaken P → (f job).Forsaken Q) : m'.Forsakes number Q := by
  obtain ⟨job,hj,hn,hforsaken⟩ := h.job
  refine ⟨hnumbered,hpoisoned.trans h.usable,f job,?_,?_,?_⟩
  · rw [hjobs]
    exact List.mem_map_of_mem hj
  · exact (hnumber job).trans hn
  · exact hf job hn hforsaken

theorem Aside.forsakes {α : Type} {action : Managing σ α} (h : Aside action) (hm : m.Forsakes number P) :
    (action.run m).2.Forsakes number P := by
  obtain ⟨shell,requests,hrun⟩ := h m
  rw [hrun]
  exact ⟨hm.numbered,hm.usable,hm.job⟩

/-- The end of a run that was given up, or of another one. -/
theorem Forsakes.finish [Storage σ] (h : m.Forsakes number (job.number = number ∨ P)) (now : Nat) {outcome : Job.Outcome}
    (houtcome : job.number = number → outcome = .cancelled) : ((finish now job outcome).run m).2.Forsakes number P := by
  obtain ⟨shell,requests,hrun⟩ := run_finish h.numbered now outcome job
  rw [hrun]
  refine h.map (h.numbered.on _ _) rfl rfl (fun other => Job.Act.number_on _ _ other) fun other hnumber hforsaken => ?_
  by_cases hself : job.number = number
  · rw [houtcome hself, Job.Act.on, if_pos ⟨hnumber.trans hself.symm,rfl⟩]
    exact hforsaken.finished now
  · rw [Job.Act.on, if_neg fun hc => hself (hc.1.symm.trans hnumber)]
    exact hforsaken.mono fun hp => hp.resolve_left hself

end Manager

namespace Schedule
variable {σ : Type} {number : Nat} {P : Prop} {job : Job} {wait : Wait} {schedule t : Schedule σ} {front : List Job}

/-- Calls from outside leave a job given up, as long as the shell can be used. -/
theorem Outside.forsakes {α : Type} {act : Nat → Managing σ α} (h : Outside (· = false) act) (now : Nat) {m : Manager σ}
    (hm : m.Forsakes number P) : ((act now).run m).2.Forsakes number P := by
  induction h generalizing m with
  | pure x => exact hm
  | bind _ _ ih ihnext => exact ihnext _ (ih hm)
  | get_bind _ ih => exact ih m hm
  | act other control =>
    rw [Manager.run_act hm.numbered]
    exact hm.map (hm.numbered.on _ _) rfl rfl (fun job => Job.Act.number_on _ _ job) fun _ _ hforsaken => hforsaken.on now control
  | create definition background =>
    obtain ⟨job,hj,hnumber,hforsaken⟩ := hm.job
    exact ⟨hm.numbered.concat definition background,hm.usable,job,List.mem_append_left _ hj,hnumber,hforsaken⟩
  | drop pid =>
    have hnumbered := hm.numbered.drop pid
    rcases Manager.run_drop_cases hm.numbered pid with hsame | ⟨other,_,_,hdrop⟩
    · rwa [hsame]
    · rw [hdrop] at hnumbered ⊢
      exact hm.map hnumbered rfl rfl (fun job => Job.Act.number_on _ _ job) fun _ _ hforsaken => hforsaken.on now .clear
  | elsewhere shell hpoisoned => exact ⟨hm.numbered,hpoisoned,hm.job⟩

variable [Storage σ]

/-! ### What runs leave -/

/-- After the start of a run: it has begun a job, perhaps the one that was given up. -/
def Begun (number : Nat) (P : Prop) : Except AgentError Job → Schedule σ → Prop
  | .error _, schedule => schedule.manager.Forsakes number P
  | .ok job, schedule => schedule.manager.Forsakes number (job.number = number ∨ P) ∧ (job.number = number → job.cancelled)

theorem leads_start (other : Nat) (input : String) : Leads (fun schedule : Schedule σ => schedule.manager.Forsakes number P)
    (start other input) (Begun number P) := by
  refine .get_bind fun now hm => ?_
  cases hfound : now.manager.job? other with
  | none => exact .pure _ fun _ he => he ▸ hm
  | some job =>
    rintro schedule rfl
    obtain ⟨hj,-⟩ := Manager.mem_of_job? hfound
    rw [run_managing]
    by_cases hpending : job.state = .pending
    · obtain ⟨shell,memory,-,hrun⟩ := Manager.run_start hm.numbered schedule.now input hj hpending
      have hbegun : Manager.Forsakes number (job.number = number ∨ P) { schedule.manager with
          shell, jobs := schedule.manager.jobs.map ((Job.Act.begin schedule.now input).on job.number) } := by
        refine hm.map (hm.numbered.on _ _) rfl rfl (fun other => Job.Act.number_on _ _ other) fun other hnumber hforsaken => ?_
        unfold Job.Act.on
        split
        · rename_i hbegins
          exact ⟨hforsaken.cancelled,.inr (.inr ⟨rfl,.inl (hbegins.1.symm.trans hnumber)⟩)⟩
        · exact hforsaken.mono .inr
      rw [hrun]
      refine ⟨?_,fun hnumber => ?_⟩
      · rw [Manager.run_act hbegun.numbered]
        refine hbegun.map (hbegun.numbered.on _ _) rfl rfl (fun other => Job.Act.number_on _ _ other) fun other _ hforsaken => ?_
        unfold Job.Act.on
        split
        · exact ⟨hforsaken.cancelled,hforsaken.state⟩
        · exact hforsaken
      · obtain ⟨other,ho,hother,hforsaken⟩ := hm.job
        obtain rfl := hm.numbered.eq_of_number hj ho (hother.trans hnumber.symm)
        exact hforsaken.cancelled
    · rw [Manager.run_start_refused hm.numbered schedule.now input hj hpending]
      exact hm

/-- The work of a run that was given up is not begun. -/
theorem run_work_cancelled (hnumbered : schedule.manager.Numbered) (husable : schedule.manager.poisoned = false)
    (hc : job.cancelled) : (work job).run schedule = (.inl "Process cancelled", { schedule with manager := { schedule.manager with
      jobs := schedule.manager.jobs.map ((Job.Act.finish schedule.now .cancelled).on job.number) } }) := by
  have hwork : (managing fun _ => Manager.work job).run schedule = pure (.ended .cancelled,schedule) := by
    simp only [run_managing, Manager.work, StateT.run_bind, StateT.run_get, pure_bind, husable, hc]
    rfl
  simp only [work, StateT.run_bind, hwork, pure_bind, run_managing, Manager.run_finish_cancelled hnumbered]
  rfl

omit [Storage σ] in
private theorem leads_aside {α : Type} {act : Nat → Managing σ α} (h : ∀ now, Manager.Aside (act now)) :
    Leads (fun schedule => schedule.manager.Forsakes number P) (managing act) fun _ schedule => schedule.manager.Forsakes number P :=
  fun schedule hm => (h schedule.now).forsakes hm

private theorem leads_finish (job : Job) {outcome : Job.Outcome} (houtcome : job.number = number → outcome = .cancelled) :
    Leads (fun schedule : Schedule σ => schedule.manager.Forsakes number (job.number = number ∨ P))
      (managing fun now => Manager.finish now job outcome) fun _ schedule => schedule.manager.Forsakes number P :=
  fun schedule hm => hm.finish schedule.now houtcome

/-- After the work of a run: if it waits for its model, it is not the one that was given up. -/
def Busy (number : Nat) (P : Prop) (job : Job) : String ⊕ Wait → Schedule σ → Prop
  | .inl _, schedule => schedule.manager.Forsakes number P
  | .inr wait, schedule => wait.job = job ∧ job.number ≠ number ∧ schedule.manager.Forsakes number P

theorem leads_work (job : Job) : Leads (σ := σ) (Begun number P (.ok job)) (work job) (Busy number P job) := by
  rintro schedule ⟨hm,hcancelled⟩
  by_cases hself : job.number = number
  · have hfinish : ((Manager.finish schedule.now job .cancelled).run schedule.manager).2.Forsakes number P :=
      hm.finish schedule.now fun _ => rfl
    rw [Manager.run_finish_cancelled hm.numbered] at hfinish
    rw [run_work_cancelled hm.numbered hm.usable (hcancelled hself)]
    exact hfinish
  · refine ((leads_aside fun _ => aside_work job).bind fun progress => ?_) schedule hm
    cases progress with
    | ended outcome =>
      exact (leads_finish job fun h => absurd h hself).bind fun _ => .pure _ fun _ h => h
    | waiting =>
      refine .get_bind fun now hn => .pure _ ?_
      rintro _ rfl
      exact ⟨rfl,hself,hn.mono fun hp => hp.resolve_left hself⟩

theorem leads_endWait (wait : Wait) : Leads (fun schedule : Schedule σ =>
    schedule.manager.Forsakes number (wait.job.number = number ∨ P)) (endWait wait)
    fun _ schedule => schedule.manager.Forsakes number P := by
  refine .get_bind fun now hn => .bind (Q := fun outcome schedule =>
    schedule.manager.Forsakes number (wait.job.number = number ∨ P) ∧ (wait.job.number = number → outcome = .cancelled)) ?_ ?_
  · rintro schedule rfl
    refine ⟨(aside_outcome schedule wait schedule.now).forsakes hn,fun hself => ?_⟩
    obtain ⟨job,hj,hnumber,hforsaken⟩ := hn.job
    have hfound := hn.numbered.job?_number hj
    have hcancelled : schedule.isCancelled wait.job := by
      rw [isCancelled, hself, ← hnumber, hfound]
      exact hforsaken.cancelled
    rw [run_managing, outcomeOf, if_pos hcancelled]
    rfl
  · rintro outcome schedule ⟨hm,houtcome⟩
    exact leads_finish wait.job houtcome schedule hm

/-! ### What is carried on -/

/-- The foreground has a run of a job under way. -/
def Ending (number : Nat) (front : List Job) : Prop := ∃ job ∈ front, job.number = number

theorem ending_cons : Ending number (job :: front) ↔ job.number = number ∨ Ending number front := List.exists_mem_cons_iff ..

/-- A job was given up; a run of it that the foreground has begun ends before it asks the model. -/
structure Forsaken (number : Nat) (front : List Job) (_pending : List Nat) (schedule : Schedule σ) : Prop where
  forsakes : schedule.manager.Forsakes number (Ending number front)
  cancelled : ∀ job ∈ front, job.number = number → job.cancelled

omit [Storage σ] in
private theorem leads_setStage (id : Nat) (stage : Stage) : Leads (fun schedule : Schedule σ => schedule.manager.Forsakes number P)
    (setStage id stage) fun _ schedule => schedule.manager.Forsakes number P := .update fun _ h => h

private theorem leads_ended (id : Nat) (wait : Wait) : Leads (fun schedule : Schedule σ => schedule.manager.Forsakes number P)
    (do setStage id (.done (.ok (← endWait wait)))) fun _ schedule => schedule.manager.Forsakes number P :=
  .bind ((leads_endWait wait).mono (fun _ h => h.mono .inr) fun _ _ h => h) fun _ => leads_setStage id _

theorem leads_forsaken_advance (id : Nat) : Leads (fun schedule : Schedule σ => schedule.manager.Forsakes number P) (advance id)
    fun _ schedule => schedule.manager.Forsakes number P := by
  refine .get_bind fun now hn => ?_
  cases hstage : (now.task? id).map Task.stage with
  | none => exact .pure _ fun _ he => he ▸ hn
  | some stage =>
    cases stage with
    | done reply => exact .pure _ fun _ he => he ▸ hn
    | waiting wait => exact (leads_ended id wait).from_ hn
    | queued other input =>
      refine ((leads_start other input).from_ hn).bind fun result => ?_
      cases result with
      | error e => exact leads_setStage id _
      | ok job =>
        refine (leads_work job).bind fun progress => ?_
        cases progress with
        | inl reply => exact leads_setStage id _
        | inr wait =>
          refine .get_bind fun later hl => .ite ((leads_ended id wait).from_ hl.2.2) ?_
          exact ((leads_setStage id _).from_ hl.2.2).bind fun _ => .update fun _ h => h

theorem carried_forsaken (number : Nat) : CarriedIf (σ := σ) (· = false) (Forsaken number) where
  queue h _ := ⟨h.forsakes,h.cancelled⟩
  advance id := fun schedule ⟨hm,hfront⟩ => ⟨leads_forsaken_advance id schedule hm,hfront⟩
  wake _ := fun _ h => ⟨h.forsakes,h.cancelled⟩
  clock _ h := ⟨h.forsakes,h.cancelled⟩
  credit _ h := ⟨h.forsakes,h.cancelled⟩
  spawn _ _ := fun _ h => ⟨h.forsakes,h.cancelled⟩
  managing hact := fun schedule ⟨hm,hfront⟩ => ⟨hact.forsakes schedule.now hm,hfront⟩
  start other input := by
    rintro schedule ⟨hm,hfront⟩
    have hbegun := leads_start other input schedule hm
    generalize (start other input).run schedule = result at hbegun ⊢
    obtain ⟨result,later⟩ := result
    cases result with
    | error e => exact ⟨hbegun,hfront⟩
    | ok job => exact ⟨hbegun.1.mono ending_cons.mpr,List.forall_mem_cons.mpr ⟨hbegun.2,hfront⟩⟩
  work job := by
    rintro schedule ⟨hm,hfront⟩
    obtain ⟨hjob,hrest⟩ := List.forall_mem_cons.mp hfront
    have hbusy := leads_work job schedule ⟨hm.mono ending_cons.mp,hjob⟩
    generalize (work job).run schedule = result at hbusy ⊢
    obtain ⟨progress,later⟩ := result
    cases progress with
    | inl reply => exact ⟨hbusy,hrest⟩
    | inr wait =>
      obtain ⟨rfl,-,hm⟩ := hbusy
      exact ⟨hm.mono fun hp => ending_cons.mpr (.inr hp),hfront⟩
  endWait wait := by
    rintro schedule ⟨hm,hfront⟩
    exact ⟨leads_endWait wait schedule (hm.mono ending_cons.mp),(List.forall_mem_cons.mp hfront).2⟩

/-! ### A job that was given up -/

/-- The schedule when the run of a job has ended without any work. -/
def withdrawn (number : Nat) (schedule : Schedule σ) : Schedule σ :=
  { schedule with manager := { schedule.manager with
    jobs := schedule.manager.jobs.map ((Job.Act.finish schedule.now .cancelled).on number) } }

/-- No model was asked and no tool was called; at most it was looked up what an agent remembers. -/
def Unasked (agent : String) (schedule later : Schedule σ) : Prop :=
  ∃ shell jobs, Manager.Looked agent schedule.manager.shell shell ∧ later.manager = { schedule.manager with shell, jobs }

/-- A task has replied that the job was cancelled, or that another run of it was. -/
def Answered (job : Job) (id : Nat) (schedule : Schedule σ) : Prop := ∃ reply, schedule.reply? id = some reply ∧
  (reply = .ok "Process cancelled" ∨ job.state = .terminated ∧ reply = .error (.notPending job.pid))

/-- What holds of a job that was given up, as it stands in a schedule. -/
structure GivenUp (job : Job) (t : Schedule σ) : Prop where
  found : t.manager.job? job.number = some job
  cancelled : job.cancelled
  /-- It has not begun, or was ended by force, without a reply of its model. -/
  state : job.state = .pending ∨ job.state = .terminated
  output : job.output = ""
  /-- What its runs have replied is that they were cancelled. -/
  told : ∀ task ∈ t.tasks, task.job = job.number → ∀ reply, task.stage = .done (.ok reply) →
    job.state = .terminated ∧ reply = "Process cancelled" ∧ job.error = "Process was cancelled"
  unasked : ∀ task ∈ t.tasks, task.job = job.number → Unasked job.definition.name t ((advance task.id).run t).2
  /-- A task that goes on replies at once. -/
  replies : ∀ task ∈ t.tasks, task.job = job.number → (∀ reply, task.stage ≠ .done reply) →
    Answered job task.id ((advance task.id).run t).2
  /-- In the foreground it begins, other tasks may have a turn, and then it ends. -/
  run : job.state = .pending → ∀ input, ∃ begun, Unasked job.definition.name t begun ∧
    (Schedule.run job.number input).run t = (.ok "Process cancelled",withdrawn job.number (beforeWait.run begun).2)
  refused : job.state = .terminated → ∀ input, (Schedule.run job.number input).run t = (.error (.notPending job.pid),t)

theorem Unasked.refl (agent : String) (t : Schedule σ) : Unasked agent t t :=
  ⟨t.manager.shell,t.manager.jobs,.inl rfl,rfl⟩

/-- Everything is known of a job that was given up, when the foreground has no run under way. -/
structure Left (number : Nat) (t : Schedule σ) : Prop where
  mirrored : Known (fun _ => True) [] [] t
  forsaken : Forsaken number [] [] t

omit [Storage σ] in
theorem Left.exists_job (h : Left number t) : ∃ job ∈ t.manager.jobs, job.number = number ∧ job.cancelled ∧
    (job.state = .pending ∨ job.state = .terminated) ∧ job.output = "" := by
  obtain ⟨s,hs,-⟩ := h.mirrored
  obtain ⟨job,hj,hnumber,hcancelled,hstate⟩ := h.forsaken.forsakes.job
  have hends : job.state = .pending ∨ job.state = .terminated := by simpa [Ending] using hstate.imp_right (Or.imp_left And.left)
  have hconversed := (hs.mirrors.invariant.sound job (hs.mirrors.manager ▸ hj)).conversed
  refine ⟨job,hj,hnumber,hcancelled,hends,?_⟩
  rcases hends with hs | hs
  · simp only [Job.Conversed, hs] at hconversed
    exact hconversed.2
  · simp only [Job.Conversed, hs] at hconversed
    exact hconversed.2

omit [Storage σ] in
/-- Who has replied has told that the job was cancelled. -/
theorem Left.told (h : Left number t) (hj : job ∈ t.manager.jobs) (hnumber : job.number = number) {task : Task} {reply : String}
    (ht : task ∈ t.tasks) (hjob : task.job = number) (hstage : task.stage = .done (.ok reply)) :
    job.state = .terminated ∧ reply = "Process cancelled" ∧ job.error = "Process was cancelled" := by
  obtain ⟨s,hs,-⟩ := h.mirrored
  obtain ⟨other,ho,hother,-,hstate,-⟩ := h.exists_job
  obtain rfl := h.forsaken.forsakes.numbered.eq_of_number hj ho (hother.trans hnumber.symm)
  have hfits := hs.fits task ht
  simp only [Fits, hstage] at hfits
  obtain ⟨last,hl,hlast,hterminal,htold⟩ := hfits
  rw [hs.mirrors.manager] at hl
  obtain rfl := h.forsaken.forsakes.numbered.eq_of_number hj hl (hlast.trans (hjob.trans hnumber.symm))
  have hterminated : last.state = .terminated := by
    refine hstate.resolve_left fun hpending => ?_
    simp [hpending, State.isTerminal] at hterminal
  exact ⟨hterminated,htold hterminated⟩

/-- The start of a run asks no model. -/
theorem run_start_pending (hnumbered : t.manager.Numbered) (hj : job ∈ t.manager.jobs) (hpending : job.state = .pending)
    (input : String) : ∃ memory manager, (start job.number input).run t =
      (.ok { job.begin t.now input with memory }, { t with manager }) ∧ manager.Numbered ∧
      { job.begin t.now input with memory } ∈ manager.jobs ∧ Unasked job.definition.name t { t with manager } := by
  obtain ⟨shell,memory,hlooked,hrun⟩ := Manager.run_start hnumbered t.now input hj hpending
  have hbegun : Manager.Numbered { t.manager with
      shell, jobs := t.manager.jobs.map ((Job.Act.begin t.now input).on job.number) } :=
    hnumbered.on _ _
  rw [Manager.run_act hbegun] at hrun
  refine ⟨memory,{ t.manager with
    shell, jobs := (t.manager.jobs.map ((Job.Act.begin t.now input).on job.number)).map
      ((Job.Act.remember memory).on job.number) },?_,hbegun.on _ _,
      Manager.mem_started t.now input memory hj hpending,shell,_,hlooked,rfl⟩
  simp only [start, StateT.run_bind, StateT.run_get, pure_bind, hnumbered.job?_number hj, run_managing, hrun]

theorem Unasked.withdrawn {agent : String} {later : Schedule σ} (h : Unasked agent t later) (number : Nat) :
    Unasked agent t (withdrawn number later) := by
  obtain ⟨shell,jobs,hlooked,hmanager⟩ := h
  exact ⟨shell,_,hlooked,by rw [Schedule.withdrawn, hmanager]⟩

/-- A task that replies has done nothing else. -/
private theorem leads_reply {later : Schedule σ} {task : Task} {reply : Except AgentError String}
    (hunasked : Unasked job.definition.name t later) (htasks : later.tasks = t.tasks) (hfound : t.task? task.id = some task)
    (hreply : reply = .ok "Process cancelled" ∨ job.state = .terminated ∧ reply = .error (.notPending job.pid)) :
    Leads (fun now => now = later) (setStage task.id (.done reply))
      fun _ last => Unasked job.definition.name t last ∧ Answered job task.id last := by
  refine .update ?_
  rintro later rfl
  let last : Schedule σ := { later with tasks := withStage task.id (.done reply) later.tasks }
  have hlast : last.tasks = withStage task.id (.done reply) t.tasks := congrArg _ htasks
  refine ⟨hunasked,reply,reply?_eq_some.mpr ?_,hreply⟩
  change last.stage? task.id = some (.done reply)
  rw [stage?_withStage hlast, stage?, hfound]
  simp

/-- What a task that runs a job that was given up comes to when it goes on. -/
theorem Left.advance (h : Left number t) (hj : job ∈ t.manager.jobs) (hnumber : job.number = number) {task : Task}
    (ht : task ∈ t.tasks) (hjob : task.job = number) (hnot : ∀ reply, task.stage ≠ .done reply) :
    Leads (fun now => now = t) (advance task.id) fun _ later =>
      Unasked job.definition.name t later ∧ Answered job task.id later := by
  obtain ⟨s,hs,-⟩ := h.mirrored
  obtain ⟨other,ho,hother,hcancelled,hstate,-⟩ := h.exists_job
  have hnumbered := h.forsaken.forsakes.numbered
  obtain rfl := hnumbered.eq_of_number hj ho (hother.trans hnumber.symm)
  have hfits := hs.fits task ht
  have hfound := hs.task? ht
  unfold Fits at hfits
  refine .get_bind ?_
  rintro _ rfl
  rw [hfound, Option.map_some]
  cases htask : task.stage with
  | done reply => exact absurd htask (hnot reply)
  | waiting wait =>
    rw [htask] at hfits
    have hwait : wait.job.number = other.number := hfits.trans (hjob.trans hnumber.symm)
    exact .run_bind (run_endWait_cancelled hnumbered hj hcancelled hwait)
      (leads_reply ((Unasked.refl _ _).withdrawn _) rfl hfound (.inl rfl))
  | queued first input =>
    rw [htask] at hfits
    obtain rfl : first = other.number := hfits.trans (hjob.trans hnumber.symm)
    rcases hstate with hpending | hterminated
    · obtain ⟨memory,manager,hstart,hlater,-,hunasked⟩ := run_start_pending hnumbered hj hpending input
      obtain ⟨_,_,_,hmanager⟩ := id hunasked
      have husable : manager.poisoned = false := by
        rw [show manager = _ from hmanager]
        exact h.forsaken.forsakes.usable
      exact .run_bind hstart (.run_bind (run_work_cancelled hlater husable hcancelled)
        (leads_reply (hunasked.withdrawn _) rfl hfound (.inl rfl)))
    · exact .run_bind (run_start_refused hnumbered hj (by simp [hterminated]) input)
        (leads_reply (.refl _ _) rfl hfound (.inr ⟨hterminated,rfl⟩))

/-- What a run in the foreground comes to. -/
theorem Left.run (h : Left number t) (hj : job ∈ t.manager.jobs) (hnumber : job.number = number) (hpending : job.state = .pending)
    (input : String) : ∃ begun, Unasked job.definition.name t begun ∧
      (Schedule.run job.number input).run t = (.ok "Process cancelled",withdrawn job.number (beforeWait.run begun).2) := by
  obtain ⟨other,ho,hother,hcancelled,-⟩ := h.exists_job
  have hnumbered := h.forsaken.forsakes.numbered
  obtain rfl := hnumbered.eq_of_number hj ho (hother.trans hnumber.symm)
  obtain ⟨memory,manager,hstart,-,-,hunasked⟩ := run_start_pending hnumbered hj hpending input
  let run : Job := { other.begin t.now input with memory }
  let begun : Schedule σ := { t with manager }
  have hbegun := (carried_forsaken number).start other.number input t h.forsaken
  rw [hstart] at hbegun
  -- While other tasks have a turn, the run that has begun stays given up.
  obtain ⟨hforsakes,-⟩ := (carried_forsaken number).beforeWait begun hbegun
  have hrun : run.cancelled := hcancelled
  have hstarted : (start other.number input).run t = pure (.ok run,begun) := hstart
  have hwork : (work run).run (beforeWait.run begun).2 =
      pure (.inl "Process cancelled",withdrawn other.number (beforeWait.run begun).2) :=
    run_work_cancelled hforsakes.numbered hforsakes.usable hrun
  have hturn : beforeWait.run begun = pure ((),(beforeWait.run begun).2) := rfl
  have husable : begun.manager.poisoned = false := hbegun.forsakes.usable
  refine ⟨begun,hunasked,?_⟩
  simp only [Schedule.run, StateT.run_bind, hstarted, StateT.run_get, pure_bind, husable, Bool.not_false, if_true]
  rw [hturn, pure_bind, hwork]
  rfl

/-- Everything that holds of a job that was given up. -/
theorem Left.givenUp (h : Left number t) : ∃ job, job.number = number ∧ GivenUp job t := by
  obtain ⟨job,hj,hnumber,hcancelled,hstate,houtput⟩ := h.exists_job
  have hnumbered := h.forsaken.forsakes.numbered
  refine ⟨job,hnumber,hnumbered.job?_number hj,hcancelled,hstate,houtput,?_,?_,?_,?_,?_⟩
  · exact fun task ht hjob reply hstage => h.told hj hnumber ht (hjob.trans hnumber) hstage
  · intro task ht hjob
    cases htask : task.stage with
    | done reply =>
      have hrun : (Schedule.advance task.id).run t = ((),t) := by
        obtain ⟨s,hs,-⟩ := h.mirrored
        simp only [Schedule.advance, StateT.run_bind, StateT.run_get, pure_bind, hs.task? ht, Option.map_some, htask]
        rfl
      rw [hrun]
      exact .refl _ _
    | _ => exact (h.advance hj hnumber ht (hjob.trans hnumber) (by simp [htask]) t rfl).1
  · exact fun task ht hjob hnot => (h.advance hj hnumber ht (hjob.trans hnumber) hnot t rfl).2
  · exact fun hpending input => h.run hj hnumber hpending input
  · intro hterminated input
    rw [Schedule.run, StateT.run_bind, run_start_refused hnumbered hj (by simp [hterminated]) input]
    rfl

omit [Storage σ] in
/-- A task that was waiting for its model replies next. -/
theorem Left.replies {id : Nat} (h : Left number t) (hwoken : Woken id wait [] t) (hruns : Runs id number t) :
    t.wait? id = some wait ∧ id ∈ t.ready ∨ t.reply? id = some (.ok "Process cancelled") := by
  rcases hwoken with ⟨hwait,hid⟩ | ⟨text,hreply⟩
  · exact .inl ⟨wait?_eq_some.mpr hwait,hid⟩
  · obtain ⟨job,hj,hnumber,-⟩ := h.exists_job
    obtain ⟨task,hfound,hjob⟩ := Option.map_eq_some_iff.mp hruns
    have hstage : task.stage = .done (.ok text) := by simpa [stage?, hfound] using hreply
    obtain ⟨-,rfl,-⟩ := h.told hj hnumber (List.mem_of_find?_eq_some hfound) hjob hstage
    exact .inr (reply?_eq_some.mpr hreply)

/-! ### The cleanup -/

/-- The cleanup of the table. -/
def cleanup : Scheduling σ Nat := interrupting Manager.cleanupAll

omit [Storage σ] in
theorem run_cleanup (hnumbered : t.manager.Numbered) :
    ((cleanup.run t).1 = t.manager.listed.countP fun job => job.state != .pending) ∧
      (cleanup.run t).2.manager = t.manager.swept t.now := by
  rw [cleanup, run_interrupting, run_managing, Manager.run_cleanupAll hnumbered]
  exact ⟨rfl,rfl⟩

omit [Storage σ] in
/-- What becomes of a job of the table. -/
private theorem mem_swept (hnumbered : t.manager.Numbered) (hj : job ∈ t.manager.listed) :
    job.swept t.now ∈ (t.manager.swept t.now).jobs := by
  obtain ⟨hmem,hlists⟩ := hnumbered.mem_listed.mp hj
  exact List.mem_map.mpr ⟨job,hmem,if_pos hlists⟩

/-- A job that had not ended is given up. -/
theorem Known.left (h : Known (fun _ => True) [] [] t) (husable : t.manager.poisoned = false) (hj : job ∈ t.manager.listed)
    (hterminal : ¬job.state.isTerminal) : Left job.number (cleanup.run t).2 := by
  have hlater : Known (fun _ => True) [] [] (cleanup.run t).2 := carried_mirrored.interrupting .cleanupAll t h
  have hnumbered := h.numbered
  obtain ⟨-,hmanager⟩ := run_cleanup hnumbered
  generalize (Schedule.cleanup.run t).2 = later at hlater hmanager
  have hforsakes : later.manager.Forsakes job.number (Ending job.number []) := by
    rw [hmanager]
    exact ⟨(hnumbered.sweeps_swept t.now).numbered,husable,job.swept t.now,mem_swept hnumbered hj,
      job.number_swept t.now,Job.forsaken_swept hterminal⟩
  exact ⟨hlater,hforsakes,by simp⟩

omit [Storage σ] in
/-- Whose model was at work is woken. -/
theorem Placed.cleanup {id : Nat} (hplaced : Placed [] t) (hnumbered : t.manager.Numbered) (hj : job ∈ t.manager.listed)
    (hterminal : ¬job.state.isTerminal) (hwait : t.wait? id = some wait) (hnumber : wait.job.number = job.number) :
    Woken id wait [] (Schedule.cleanup.run t).2 := by
  let later : Schedule σ := { t with manager := t.manager.swept t.now }
  have hmanaging : ((managing Manager.cleanupAll).run t).2 = later := by
    rw [run_managing, Manager.run_cleanupAll hnumbered]
  rw [Schedule.cleanup, run_interrupting, hmanaging]
  have hstill : Placed [] later := hplaced
  refine hstill.givenUp (wait?_eq_some.mp hwait) ?_
  have hfound := (hnumbered.sweeps_swept t.now).numbered.job?_number (mem_swept hnumbered hj)
  rw [Job.number_swept] at hfound
  rw [isCancelled, hnumber, hfound]
  exact (Job.forsaken_swept (P := False) hterminal).cancelled

/--
Whatever has happened before, a cleanup leaves no live work, as long as the shell can be used: no job is active, the table
holds the pending jobs and no others, and it is told how many were taken out. Every job of the table that had not ended is
given up for good, whatever happens then: it can only end by force, its runs reply that they were cancelled, and they ask
no model and call no tool; who was waiting for its model goes on next.
-/
theorem nothing_live_after_cleanup (shell : Shell σ) (model : Model) (limit : Option Nat) (timers : Timers)
    (before : List (Happening σ)) (husable : ((new (Manager.new shell model limit) timers).play before).manager.poisoned = false) :
    let s := (new (Manager.new shell model limit) timers).play before
    let swept := (cleanup.run s).2
    (∀ job ∈ swept.manager.jobs, ¬job.state.isActive) ∧
      swept.manager.listed =
        (s.manager.listed.filter fun job => job.state == .pending).map (fun job => { job with cancelled := true }) ∧
      (cleanup.run s).1 + swept.manager.listed.length = s.manager.listed.length ∧
      ∀ job ∈ s.manager.listed, ¬job.state.isTerminal →
        ∀ after, (∀ happening ∈ after, happening.Leaves (· = false)) →
          (∃ later, later.number = job.number ∧ GivenUp later (swept.play after)) ∧
          ∀ id wait, s.wait? id = some wait → wait.job.number = job.number →
            (swept.play after).wait? id = some wait ∧ id ∈ (swept.play after).ready ∨
              (swept.play after).reply? id = some (.ok "Process cancelled") := by
  intro s swept
  have hknown : Known (fun _ => True) [] [] s := carried_mirrored.play (known_new shell model limit timers trivial) before
  have hplaced : Placed [] s := carried_placed.play (by simp [Placed, stage?, task?, new]) before
  obtain ⟨mirror,hs,-⟩ := id hknown
  have hnumbered := hknown.numbered
  obtain ⟨hcount,hmanager⟩ := run_cleanup hnumbered
  have hlisted : swept.manager.listed =
      (s.manager.listed.filter fun job => job.state == .pending).map fun job => { job with cancelled := true } := by
    rw [show swept.manager = _ from hmanager, Manager.listed_swept hnumbered]
  refine ⟨?_,hlisted,?_,fun job hj hterminal after hleaves => ?_⟩
  · rw [show swept.manager = _ from hmanager]
    exact Manager.not_active_swept hnumbered s.now
  · rw [hcount, hlisted, List.length_map, ← List.countP_eq_length_filter,
      List.length_eq_countP_add_countP (p := fun job => job.state != .pending)]
    exact congrArg _ (List.countP_congr fun job _ => by simp)
  · have hleft := hknown.left husable hj hterminal
    have hlast : Left job.number (swept.play after) := ⟨carried_mirrored.play hleft.mirrored after,
      (carried_forsaken job.number).play_leaving hleft.forsaken after hleaves⟩
    refine ⟨hlast.givenUp,fun id wait hwait hnumber => hlast.replies ?_ ?_⟩
    · exact (carried_woken id wait).play (hplaced.cleanup hnumbered hj hterminal hwait hnumber) after
    · have hruns : Runs id job.number s := by
        obtain ⟨task,hfound,hstage⟩ := Option.map_eq_some_iff.mp (wait?_eq_some.mp hwait)
        have hfits := hs.fits task (List.mem_of_find?_eq_some hfound)
        simp only [Fits, hstage, hnumber] at hfits
        exact Option.map_eq_some_iff.mpr ⟨task,hfound,hfits.symm⟩
      have hstill : Runs id job.number swept := hruns
      exact (carried_runs id job.number).play hstill after

/-- One job waits for its model, and another one was not begun; it is run later. -/
theorem nothing_live_of_two :
    let shell : Shell Provider := ⟨⟨⟨.plain (.tree .empty),"/",0⟩,[],[],true,"",[]⟩,[]⟩
    let model : Model := fun _ _ _ => ⟨some 100,.text "done"⟩
    let before : List (Happening Provider) :=
      [.create .standard true,.create .standard false,.spawn 1 "go on",.poll 0]
    let s := (new (Manager.new shell model none)).play before
    let t := (cleanup.run s).2.play [.jump 200,.run 2 "go on"]
    s.manager.poisoned = false ∧ (cleanup.run s).1 = 1 ∧ (∃ later, later.number = 1 ∧ GivenUp later t) ∧
      ∃ later, later.number = 2 ∧ GivenUp later t := by
  intro shell model before s t
  have husable : s.manager.poisoned = false := by decide +kernel
  have hnumbered : s.manager.Numbered := Known.numbered (carried_mirrored.play (known_new shell model none waitFor trivial) before)
  have hfirst : ∃ job ∈ s.manager.jobs.filter s.manager.lists, job.number = 1 ∧ job.state = .running := by decide +kernel
  have hsecond : ∃ job ∈ s.manager.jobs.filter s.manager.lists, job.number = 2 ∧ job.state = .pending := by decide +kernel
  rw [← hnumbered.listed_eq] at hfirst hsecond
  have hleaves : ∀ happening ∈ [Happening.jump 200,.run 2 "go on"], Happening.Leaves (σ := Provider) (· = false) happening := by
    simp [Happening.Leaves]
  obtain ⟨-,-,-,hgiven⟩ := nothing_live_after_cleanup shell model none waitFor before husable
  have hcount : (cleanup.run s).1 = 1 := by
    rw [(run_cleanup hnumbered).1, hnumbered.listed_eq]
    decide +kernel
  refine ⟨husable,hcount,?_,?_⟩
  · obtain ⟨job,hj,hnumber,hstate⟩ := hfirst
    obtain ⟨later,hlater,hg⟩ := (hgiven job hj (by simp [hstate, State.isTerminal]) _ hleaves).1
    exact ⟨later,hlater.trans hnumber,hg⟩
  · obtain ⟨job,hj,hnumber,hstate⟩ := hsecond
    obtain ⟨later,hlater,hg⟩ := (hgiven job hj (by simp [hstate, State.isTerminal]) _ hleaves).1
    exact ⟨later,hlater.trans hnumber,hg⟩

end Schedule
end VirtualShell.Agent
