import VirtualShell.Proofs.Agent.Queue

/-!
A kill that succeeds is final. Whatever happens afterwards, the job stays as it was ended, no other kill of it succeeds,
and its run replies that it was cancelled and leaves the shell alone, whatever it was waiting for.
-/
namespace VirtualShell.Agent.Schedule
variable {σ : Type} [Storage σ] {schedule t : Schedule σ} {job : Job} {id number moment : Nat} {wait : Wait}
  {conversation : List Message}

/-- The kill of a job by its name. -/
def kill (pid : String) : Scheduling σ Bool := interrupting fun now => Manager.kill now pid

omit [Storage σ] in
theorem run_interrupting {α : Type} (act : Nat → Managing σ α) (schedule : Schedule σ) :
    (interrupting act).run schedule = (((managing act).run schedule).1,
      ((wake ((managing act).run schedule).2.givenUp).run ((managing act).run schedule).2).2) := rfl

/-! ### Runs of a job that was killed -/

/-- Among the jobs there is one that was killed. -/
def Terminated (number moment : Nat) (conversation : List Message) (s : System σ) : Prop :=
  ∃ job ∈ s.manager.jobs, job.number = number ∧ job.Killed moment conversation

theorem kept_terminated (number moment : Nat) (conversation : List Message) :
    System.Kept (σ := σ) (Terminated number moment conversation) :=
  System.kept_job number fun hmoves hsound hk => hmoves.killed hsound hk

/-- Only jobs have changed. -/
def Quiet (schedule later : Schedule σ) : Prop := ∃ jobs, later.manager = { schedule.manager with jobs }

/-- The run of a job that is not pending is refused. -/
theorem run_start_refused (hnumbered : schedule.manager.Numbered) (hj : job ∈ schedule.manager.jobs)
    (hpending : job.state ≠ .pending) (input : String) :
    (start job.number input).run schedule = (.error (.notPending job.pid),schedule) := by
  simp only [start, StateT.run_bind, StateT.run_get, pure_bind, hnumbered.job?_number hj, run_managing,
    Manager.run_start_refused hnumbered schedule.now input hj hpending]

/-- A wait for work that was given up ends without an answer. -/
theorem run_endWait_cancelled (hnumbered : schedule.manager.Numbered) (hj : job ∈ schedule.manager.jobs)
    (hc : job.cancelled) (hwait : wait.job.number = job.number) :
    (endWait wait).run schedule = ("Process cancelled", { schedule with manager := { schedule.manager with
      jobs := schedule.manager.jobs.map ((Job.Act.finish schedule.now .cancelled).on wait.job.number) } }) := by
  have hfound : schedule.manager.job? wait.job.number = some job := hwait ▸ hnumbered.job?_number hj
  -- That it was given up comes before the answer and the limit, whichever of them there is by now.
  have hcancelled : schedule.isCancelled wait.job := by simp [isCancelled, hfound, hc]
  have houtcome : (managing (schedule.outcomeOf wait)).run schedule = (.cancelled,schedule) := by
    simp only [run_managing, outcomeOf, hcancelled, if_true]
    rfl
  have hrun : (endWait wait).run schedule =
      (managing fun now => Manager.finish now wait.job ((managing (schedule.outcomeOf wait)).run schedule).1).run
        ((managing (schedule.outcomeOf wait)).run schedule).2 := rfl
  rw [hrun, houtcome, run_managing, Manager.run_finish_cancelled hnumbered]

omit [Storage σ] in
/-- A settled schedule with a job that was killed. -/
theorem Known.killed (h : Known (Terminated number moment conversation) [] [] schedule) :
    ∃ job ∈ schedule.manager.jobs, job.number = number ∧ job.Killed moment conversation ∧ schedule.manager.Numbered := by
  have hnumbered := h.numbered
  obtain ⟨s,hs,job,hj,hnumber,hk⟩ := h
  rw [hs.mirrors.manager] at hj
  exact ⟨job,hj,hnumber,hk,hnumbered⟩

omit [Storage σ] in
private theorem leads_quiet {jobs : List Job} (hmanager : schedule.manager = { t.manager with jobs }) (id : Nat) (stage : Stage) :
    Leads (fun now => now = schedule) (setStage id stage) fun _ => Quiet t := by
  refine .update ?_
  rintro _ rfl
  exact ⟨jobs,hmanager⟩

/-- Who runs a job that was killed only adds its error. -/
theorem Known.quiet (h : Known (Terminated number moment conversation) [] [] schedule) {task : Task}
    (ht : task ∈ schedule.tasks) (hjob : task.job = number) : Quiet schedule ((advance task.id).run schedule).2 := by
  obtain ⟨job,hj,rfl,hk,hnumbered⟩ := h.killed
  obtain ⟨s,hs,-⟩ := h
  have hfits := hs.fits task ht
  unfold Fits at hfits
  have hsame : Quiet schedule schedule := ⟨schedule.manager.jobs,rfl⟩
  refine (?_ : Leads (fun now => now = schedule) (advance task.id) fun _ => Quiet schedule) schedule rfl
  refine .get_bind ?_
  rintro _ rfl
  rw [hs.task? ht, Option.map_some]
  cases htask : task.stage with
  | done reply => exact .pure _ fun _ he => he ▸ hsame
  | queued number input =>
    rw [htask] at hfits
    rw [show number = job.number from hfits.trans hjob]
    exact .run_bind (run_start_refused hnumbered hj (by simp [hk.state]) input) (leads_quiet rfl _ _)
  | waiting wait =>
    rw [htask] at hfits
    exact .run_bind (run_endWait_cancelled hnumbered hj hk.cancelled (hfits.trans hjob)) (leads_quiet rfl _ _)

/-! ### After a kill -/

/-- A task has replied that the job it ran was cancelled. -/
def Replied (id number : Nat) (schedule : Schedule σ) : Prop :=
  schedule.reply? id = some (.ok "Process cancelled") ∧
    ∃ job, schedule.manager.job? number = some job ∧ job.error = "Process was cancelled"

omit [Storage σ] in
/-- Whoever has replied for a job that was killed has told so. -/
theorem Known.replied {text : String} (h : Known (Terminated number moment conversation) [] [] schedule)
    (hruns : Runs id number schedule) (hreply : schedule.stage? id = some (.done (.ok text))) : Replied id number schedule := by
  obtain ⟨job,hj,rfl,hk,hnumbered⟩ := h.killed
  obtain ⟨s,hs,-⟩ := h
  obtain ⟨task,hfound,hnumber⟩ := Option.map_eq_some_iff.mp hruns
  have hstage : task.stage = .done (.ok text) := by simpa [stage?, hfound] using hreply
  have hfits := hs.fits task (List.mem_of_find?_eq_some hfound)
  simp only [Fits, hstage, hnumber] at hfits
  obtain ⟨other,ho,hother,_,htold⟩ := hfits
  rw [hs.mirrors.manager] at ho
  obtain rfl := hnumbered.eq_of_number hj ho hother
  obtain ⟨rfl,herror⟩ := htold hk.state
  exact ⟨reply?_eq_some.mpr hreply,other,hnumbered.job?_number hj,herror⟩

/-- What a kill at a moment has settled about a job and the task that runs it. -/
structure Won (moment : Nat) (job : Job) (id : Nat) (wait : Wait) (t : Schedule σ) : Prop where
  /-- The job is as it was ended, without a reply. -/
  ended : ∃ later, t.manager.job? job.number = some later ∧ later.Killed moment job.opening
  /-- It is not killed again. -/
  once : ((kill job.pid).run t).1 = false
  /-- Its run replies next, whatever it was waiting for. -/
  replies : t.wait? id = some wait ∧ id ∈ t.ready ∨ Replied id job.number t
  replied : Replied id job.number ((poll id).run t).2
  /-- No task calls tools or keeps memory on behalf of the job any more. -/
  quiet : ∀ task ∈ t.tasks, task.job = job.number → Quiet t ((advance task.id).run t).2
  refused : ∀ input, (run job.number input).run t = (.error (.notPending job.pid),t)

/-- What is carried on from a kill settles everything about it. -/
theorem won (hknown : Known (Terminated job.number moment job.opening) [] [] t) (hplaced : Woken id wait [] t)
    (hruns : Runs id job.number t) : Won moment job id wait t := by
  obtain ⟨later,hl,hnumber,hk,hnumbered⟩ := hknown.killed
  have hfound : t.manager.job? job.number = some later := hnumber ▸ hnumbered.job?_number hl
  have hpid : later.pid = job.pid := congrArg (fun number => s!"agent_{number}") hnumber
  refine ⟨⟨later,hfound,hk⟩,?_,?_,?_,fun task ht hjob => hknown.quiet ht hjob,fun input => ?_⟩
  · have hactive : ¬later.state.isActive := by simp [hk.state, State.isActive]
    rw [kill, run_interrupting, run_managing, ← hpid, Manager.run_kill_refused hnumbered t.now hl hactive]
  · rcases hplaced with ⟨hwait,hid⟩ | ⟨text,hreply⟩
    · exact .inl ⟨wait?_eq_some.mpr hwait,hid⟩
    · exact .inr (hknown.replied hruns hreply)
  · obtain ⟨text,hreply⟩ := hplaced.poll
    exact Known.replied ((carried_known (kept_terminated _ _ _)).poll id t hknown)
      ((carried_runs id job.number).poll id t hruns) hreply
  · rw [run, StateT.run_bind, ← hnumber, run_start_refused hnumbered hl (by simp [hk.state]) input, hpid]
    rfl

/-! ### The kill -/

omit [Storage σ] in
/-- A job is only active while a task waits for its model, unless the foreground does. -/
theorem Settled.waits {s : System σ} (h : Settled [] schedule s) (hj : job ∈ schedule.manager.jobs)
    (hactive : job.state.isActive) : ∃ task ∈ schedule.tasks, ∃ wait,
      task.stage = .waiting wait ∧ wait.job.number = job.number ∧ task.job = job.number := by
  have hasking := h.mirrors.active job (h.mirrors.manager ▸ hj) hactive
  obtain ⟨task,ht,hwaits⟩ := List.mem_flatMap.mp hasking
  have hfits := h.fits task ht
  unfold Fits at hfits
  unfold askingAt at hwaits
  split at hwaits
  · rename_i wait hstage
    rw [hstage] at hfits
    have hnumber := (List.mem_singleton.mp hwaits).symm
    exact ⟨task,ht,wait,hstage,hnumber,hfits.symm.trans hnumber⟩
  · cases hwaits

/-- A schedule right after a job was killed, when its work has not been given up yet. -/
def struck (job : Job) (schedule : Schedule σ) : Schedule σ :=
  { schedule with manager := { schedule.manager with
    jobs := schedule.manager.jobs.map ((Job.Act.kill schedule.now).on job.number) } }

omit [Storage σ] in
/-- A kill that succeeds strikes an active job and wakes who waits for it. -/
theorem run_kill {pid : String} (hnumbered : schedule.manager.Numbered) (hkill : ((kill pid).run schedule).1) :
    ∃ job, schedule.manager.find? pid = some job ∧ job.state.isActive ∧
      ((kill pid).run schedule).2 = ((wake (struck job schedule).givenUp).run (struck job schedule)).2 := by
  obtain ⟨job,hfind,hactive,hrun⟩ := Manager.run_kill hnumbered schedule.now pid hkill
  refine ⟨job,hfind,hactive,?_⟩
  have hstruck : ((managing fun now => Manager.kill now pid).run schedule).2 = struck job schedule := by
    rw [run_managing, hrun, struck]
  rw [kill, run_interrupting, hstruck]

/-- The job that was struck is terminated. -/
theorem Known.struck (h : Known (fun _ => True) [] [] schedule) (hj : job ∈ schedule.manager.jobs)
    (hactive : job.state.isActive) :
    job.context = job.opening ∧ Known (Terminated job.number schedule.now job.opening) [] [] (struck job schedule) := by
  have hnext := carried_mirrored.managing (.act job.number .kill) schedule h
  have hnumbered := h.numbered
  obtain ⟨s,hs,-⟩ := h
  have hsound : job.Sound schedule.now := hs.mirrors.now ▸ hs.mirrors.invariant.sound job (hs.mirrors.manager ▸ hj)
  obtain ⟨_,_,hopening,_⟩ := hsound.of_active hactive
  rw [run_managing, Manager.run_act hnumbered] at hnext
  obtain ⟨mirror,hmirror,-⟩ := hnext
  have hon : (Job.Act.kill schedule.now).on job.number job = job.terminate schedule.now := if_pos ⟨rfl,hactive⟩
  refine ⟨hopening,mirror,hmirror,job.terminate schedule.now,?_,rfl,hopening ▸ hsound.killed hactive⟩
  rw [hmirror.mirrors.manager, ← hon]
  exact List.mem_map_of_mem hj

/-- Right after a kill the job is terminated, and the task that waits for its model can go on. -/
theorem Known.kill {pid : String} (h : Known (fun _ => True) [] [] schedule) (hplaced : Placed [] schedule)
    (hkill : ((kill pid).run schedule).1) : ∃ job id wait, schedule.manager.find? pid = some job ∧
      job.context = job.opening ∧ schedule.wait? id = some wait ∧ wait.job.number = job.number ∧
      Known (Terminated job.number schedule.now job.opening) [] [] ((Schedule.kill pid).run schedule).2 ∧
      Woken id wait [] ((Schedule.kill pid).run schedule).2 ∧ Runs id job.number ((Schedule.kill pid).run schedule).2 := by
  obtain ⟨s,hs,-⟩ := id h
  -- The foreground makes the kill, so it runs no job, and who runs this one is a waiting task.
  obtain ⟨job,hfind,hactive,hrun⟩ := run_kill h.numbered hkill
  obtain ⟨hj,-⟩ := h.numbered.mem_of_find? hfind
  obtain ⟨task,ht,wait,hstage,hwait,hjob⟩ := hs.waits hj hactive
  obtain ⟨hopening,hstruck⟩ := h.struck hj hactive
  have hfound := hs.task? ht
  have hwaiting : schedule.stage? task.id = some (.waiting wait) := by rw [stage?, hfound, ← hstage]; rfl
  rw [hrun]
  refine ⟨job,task.id,wait,hfind,hopening,wait?_eq_some.mpr hwaiting,hwait,?_,?_,?_⟩
  · exact (carried_known (kept_terminated _ _ _)).wake _ _ hstruck
  · obtain ⟨later,hl,hnumber,hk,hnumbered⟩ := hstruck.killed
    refine Placed.givenUp hplaced hwaiting ?_
    rw [isCancelled, hwait, ← hnumber, hnumbered.job?_number hl]
    exact hk.cancelled
  · exact Option.map_eq_some_iff.mpr ⟨task,hfound,hjob⟩

/--
Whatever has happened before, a kill that succeeds is final: there is a task that waits for the model on behalf of the
job, and whatever happens then, in whatever order tasks go on, the job is as the kill has left it, with an opening of a
conversation and no reply; it is not killed again; and its task replies that it was cancelled when it goes on next, and
has done nothing on the shell.
-/
theorem kill_wins (shell : Shell σ) (model : Model) (limit : Option Nat) (timers : Timers) (before : List (Happening σ))
    (pid : String) (hkill : ((kill pid).run ((new (Manager.new shell model limit) timers).play before)).1) :
    let s := (new (Manager.new shell model limit) timers).play before
    ∃ job id wait, s.manager.find? pid = some job ∧ job.context = job.opening ∧ s.wait? id = some wait ∧
      wait.job.number = job.number ∧ ∀ after, Won s.now job id wait (((kill pid).run s).2.play after) := by
  intro s
  have hknown : Known (fun _ => True) [] [] s := carried_mirrored.play (known_new shell model limit timers trivial) before
  have hplaced : Placed [] s := carried_placed.play (by simp [Placed, stage?, task?, new]) before
  obtain ⟨job,id,wait,hfind,hopening,hwait,hnumber,hterminated,hwoken,hruns⟩ := hknown.kill hplaced hkill
  refine ⟨job,id,wait,hfind,hopening,hwait,hnumber,fun after => won ?_ ?_ ?_⟩
  · exact (carried_known (kept_terminated _ _ _)).play hterminated after
  · exact (carried_woken id wait).play hwoken after
  · exact (carried_runs id job.number).play hruns after

/-- The answer is there when the kill comes, but the task has not gone on yet. -/
theorem kill_wins_late :
    let shell : Shell Provider := ⟨⟨⟨.plain (.tree .empty),"/",0⟩,[],[],true,"",[]⟩,[]⟩
    let model : Model := fun _ _ _ => ⟨some 100,.text "done"⟩
    let s := (new (Manager.new shell model none)).play [.create .standard true,.spawn 1 "go on",.poll 0,.jump 200]
    ((kill "agent_1").run s).1 = true ∧ ∃ job id wait, s.manager.find? "agent_1" = some job ∧
      job.context = job.opening ∧ s.wait? id = some wait ∧ wait.job.number = job.number ∧
      ∀ after, Won s.now job id wait (((kill "agent_1").run s).2.play after) := by
  intro shell model s
  have hkill : ((kill "agent_1").run s).1 = true := by decide +kernel
  exact ⟨hkill,kill_wins shell model none waitFor [.create .standard true,.spawn 1 "go on",.poll 0,.jump 200] "agent_1" hkill⟩

end VirtualShell.Agent.Schedule
