import Mathlib.Data.List.Pairwise
import VirtualShell.Proofs.Agent.Roster
import VirtualShell.Proofs.Agent.Turns

/-!
What ends a run that waits for its model. Its job stays as the start has left it until the answer is there or the time is
over; what comes first makes the end of the job and the reply, and neither changes any more.
-/
namespace VirtualShell.Agent

namespace Job
variable {now start stop limit : Nat} {answer : Answer} {reply : String} {job later : Job}

/-- A job whose run goes on. -/
structure Running (start : Nat) (job : Job) : Prop where
  state : job.state = .running
  startTime : job.startTime = some start
  endTime : job.endTime = none
  wanted : job.cancelled = false

/-- A job whose run has ended. -/
structure Ran (start stop : Nat) (job : Job) : Prop where
  terminal : job.state.isTerminal
  startTime : job.startTime = some start
  endTime : job.endTime = some stop

/-- What a job and the reply are when the answer has come. -/
def Answered (answer : Answer) (reply : String) (job : Job) : Prop :=
  match answer with
  | .text text => job.state = .completed ∧ reply = job.output ∧ job.output = text
  | .calls _ => job.state = .completed ∧ reply = job.output
  | .failure reason => job.state = .failed ∧ reply = "Agent error: " ++ job.error ∧ job.error = (AgentError.model reason).message

/-- What they are when the time was over before. -/
def TimedOut (limit : Nat) (reply : String) (job : Job) : Prop :=
  job.state = .failed ∧ reply = job.error ∧ job.error = s!"Agent execution timed out after {secondsText limit} seconds"

/-- What they are when the job was killed before. -/
def Stopped (reply : String) (job : Job) : Prop := job.state = .terminated ∧ reply = "Process cancelled"

/-- It no longer depends on the clock how long it has run for. -/
theorem Ran.runtime (h : job.Ran start stop) (now : Nat) : job.runtime now = stop - start := by
  simp [Job.runtime, h.startTime, h.endTime]

theorem Ran.moves (h : job.Ran start stop) (hmoves : job.Moves now later) (hsound : job.Sound now) : later.Ran start stop := by
  have hsame := hmoves.sameEnd hsound h.terminal
  exact ⟨hsame.state ▸ h.terminal,hsame.startTime.trans h.startTime,hsame.endTime.trans h.endTime⟩

/-- Who has ended without force keeps its error. -/
theorem Moves.error (h : job.Moves now later) (hterminal : job.state.isTerminal) (hforce : job.state ≠ .terminated) :
    later.error = job.error := by
  cases h with
  | stays => rfl
  | @acted act hfits hdue =>
    cases act with
    | finish time outcome =>
      obtain ⟨-,hrun⟩ := hdue
      cases hs : job.state <;> simp_all [State.isUnderway, State.isTerminal]
    | giveUp time => cases hs : job.state <;> simp_all [Act.fits, State.isActive, State.isTerminal]
    | _ => rfl

theorem Answered.moves (h : job.Answered answer reply) (hmoves : job.Moves now later) (hsound : job.Sound now) :
    later.Answered answer reply := by
  have hkept {state : State} (hs : job.state = state) (hterminal : state.isTerminal) (hforce : state ≠ .terminated) :
      later.state = job.state ∧ later.output = job.output ∧ later.error = job.error := by
    have hsame := hmoves.sameEnd hsound (hs ▸ hterminal)
    exact ⟨hsame.state,hsame.output,hmoves.error (hs ▸ hterminal) (hs ▸ hforce)⟩
  cases answer with
  | text text =>
    obtain ⟨hstate,houtput,_⟩ := hkept h.1 rfl nofun
    rwa [Answered, hstate, houtput]
  | calls text =>
    obtain ⟨hstate,houtput,_⟩ := hkept h.1 rfl nofun
    rwa [Answered, hstate, houtput]
  | failure reason =>
    obtain ⟨hstate,_,herror⟩ := hkept h.1 rfl nofun
    rwa [Answered, hstate, herror]

theorem TimedOut.moves (h : job.TimedOut limit reply) (hmoves : job.Moves now later) (hsound : job.Sound now) :
    later.TimedOut limit reply := by
  have hterminal : job.state.isTerminal := by rw [h.1]; rfl
  rwa [TimedOut, (hmoves.sameEnd hsound hterminal).state, hmoves.error hterminal (by simp [h.1])]

/-- What ends a run writes down when. -/
theorem Running.finish (h : job.Running start) (now : Nat) (outcome : Outcome) : (job.finish now outcome).2.Ran start now := by
  refine ⟨terminal_finish now outcome job,?_,?_⟩
  · cases outcome <;> simp [Job.finish, h.state, h.startTime]
  · cases outcome <;> simp [Job.finish, h.state, h.endTime]

theorem Running.completed (h : job.Running start) (now : Nat) (text : String) :
    let done := job.finish now (.completed text)
    done.2.state = .completed ∧ done.1 = done.2.output ∧ done.2.output = text := by
  simp [Job.finish, h.state]

theorem Running.timedOut (h : job.Running start) (now limit : Nat) :
    (job.finish now (.timedOut limit)).2.TimedOut limit (job.finish now (.timedOut limit)).1 := by
  simp [Job.finish, h.state, TimedOut]

theorem Running.failed (h : job.Running start) (now : Nat) (reason : String) :
    let done := job.finish now (.errored (.model reason))
    done.2.Answered (.failure reason) done.1 := by
  simp [Job.finish, h.state, Answered]

end Job

namespace Manager
variable {σ : Type} [Storage σ] {m : Manager σ} {job other : Job} {start now limit : Nat}

/-- The end of a run is put down with its job. -/
theorem mem_finish (h : m.Numbered) (hj : job ∈ m.jobs) (hnumber : other.number = job.number) (now : Nat)
    (outcome : Job.Outcome) : ((finish now other outcome).run m).1 = (job.finish now outcome).1 ∧
      (job.finish now outcome).2 ∈ ((finish now other outcome).run m).2.jobs := by
  have hfound : m.job? other.number = some job := hnumber ▸ h.job?_number hj
  obtain ⟨_,_,hrun⟩ := run_finish h now outcome other
  rw [hrun, hfound]
  refine ⟨rfl,List.mem_map.mpr ⟨job,hj,?_⟩⟩
  exact if_pos ⟨hnumber.symm,rfl⟩

/-- What an answer comes to makes it the end of the run. -/
theorem answered_finish (hrunning : job.Running start) (answer : Answer) (now : Nat) (m : Manager σ) :
    let done := job.finish now ((outcomeOf answer).run m).1
    done.2.Answered answer done.1 := by
  cases answer with
  | text text => exact hrunning.completed now text
  | calls text =>
    obtain ⟨hstate,houtput,_⟩ := hrunning.completed now ((expand runTool text).run m).1
    exact ⟨hstate,houtput⟩
  | failure reason => exact hrunning.failed now reason

/-- The end of the time changes nothing but the jobs. -/
theorem run_finish_timedOut (h : m.Numbered) (hj : job ∈ m.jobs) (hnumber : other.number = job.number)
    (hrunning : job.Running start) (now limit : Nat) :
    ∃ jobs, ((finish now other (.timedOut limit)).run m).2 = { m with jobs } := by
  have hfound : m.job? other.number = some job := hnumber ▸ h.job?_number hj
  have hfailed := (hrunning.timedOut now limit).1
  rw [run_finish_eq h, hfound, Option.getD_some, hfailed]
  exact ⟨_,rfl⟩

end Manager

namespace Schedule
variable {σ : Type} [Storage σ] {schedule later : Schedule σ} {job : Job} {wait : Wait} {since id number : Nat}
  {front : List Job} {pending : List Nat} {reply : String}

/-! ### The end of a wait -/

/-- What the end of a wait makes of a job that runs: the answer counts if it has come by then. -/
theorem mem_endWait (hnumbered : schedule.manager.Numbered) (hj : job ∈ schedule.manager.jobs)
    (hnumber : wait.job.number = job.number) (hrunning : job.Running since) :
    let ended := (endWait wait).run schedule
    ∃ later ∈ ended.2.manager.jobs, later.number = job.number ∧ later.Ran since schedule.now ∧
      if wait.answerAt ≤ schedule.now then later.Answered wait.answer ended.1
      else later.TimedOut ((wait.limit.map Prod.fst).getD 0) ended.1 ∧ Quiet schedule ended.2 := by
  intro ended
  have hfound : schedule.manager.job? wait.job.number = some job := hnumber ▸ hnumbered.job?_number hj
  have hwanted : ¬schedule.isCancelled wait.job := by simp [isCancelled, hfound, hrunning.wanted]
  let asked := (managing (schedule.outcomeOf wait)).run schedule
  have hended : ended = (managing fun now => Manager.finish now wait.job asked.1).run asked.2 := rfl
  obtain ⟨shell,requests,haside⟩ := aside_outcome schedule wait schedule.now schedule.manager
  have hasked : asked.2 = { schedule with manager := { schedule.manager with shell, requests } } := by
    rw [← haside]
    rfl
  have hlater : asked.2.manager.Numbered := by
    rw [hasked]
    exact hnumbered
  have hmem : job ∈ asked.2.manager.jobs := by
    rw [hasked]
    exact hj
  have hnow : asked.2.now = schedule.now := by rw [hasked]
  obtain ⟨hreply,hthere⟩ := Manager.mem_finish hlater hmem hnumber asked.2.now asked.1
  rw [run_managing] at hended
  rw [hended]
  refine ⟨_,hthere,Job.Act.number_apply (.finish _ _) job,hnow ▸ hrunning.finish _ _,?_⟩
  rw [hreply]
  split
  · rename_i hcome
    have houtcome : asked.1 = ((Manager.outcomeOf wait.answer).run schedule.manager).1 := by
      simp only [asked, run_managing, outcomeOf, if_neg hwanted, if_pos hcome]
    rw [houtcome]
    exact Manager.answered_finish hrunning wait.answer _ _
  · rename_i hcome
    have htimedOut : asked = (.timedOut ((wait.limit.map Prod.fst).getD 0),schedule) := by
      simp only [asked, run_managing, outcomeOf, if_neg hwanted, if_neg hcome]
      rfl
    rw [htimedOut]
    exact ⟨hrunning.timedOut _ _,Manager.run_finish_timedOut hnumbered hj hnumber hrunning _ _⟩

/-- A task whose wait is over replies what it comes to. -/
theorem run_advance_waiting (hwaits : schedule.stage? id = some (.waiting wait)) : ((advance id).run schedule).2 =
    { ((endWait wait).run schedule).2 with
      tasks := withStage id (.done (.ok ((endWait wait).run schedule).1)) ((endWait wait).run schedule).2.tasks } := by
  simp only [advance, StateT.run_bind, StateT.run_get, pure_bind]
  rw [show (schedule.task? id).map Task.stage = schedule.stage? id from rfl, hwaits]
  rfl

/-! ### Who waits for a job -/

omit [Storage σ] in
private theorem exists_task {stage : Stage} (h : schedule.stage? id = some stage) :
    ∃ task ∈ schedule.tasks, task.id = id ∧ task.stage = stage := by
  obtain ⟨task,hfound,hstage⟩ := Option.map_eq_some_iff.mp h
  exact ⟨task,List.mem_of_find?_eq_some hfound,by simpa using List.find?_some hfound,hstage⟩

omit [Storage σ] in
/-- One task at most waits for a job. -/
theorem Known.eq_of_waits {known : System σ → Prop} {other : Nat} {another : Wait} (h : Known known front pending schedule)
    (hwait : schedule.stage? id = some (.waiting wait)) (ho : schedule.stage? other = some (.waiting another))
    (hnumber : another.job.number = wait.job.number) : other = id ∧ another = wait := by
  obtain ⟨s,hs,-⟩ := h
  obtain ⟨task,ht,rfl,hstage⟩ := exists_task hwait
  obtain ⟨task',ht',rfl,hstage'⟩ := exists_task ho
  obtain ⟨-,hdisjoint⟩ := List.nodup_flatMap.mp (List.nodup_append.mp hs.mirrors.nodup).2.1
  have hsame : task' = task := by
    by_contra hne
    have : Std.Symm (Function.onFun List.Disjoint fun task : Task => askingAt task.stage) := ⟨fun _ _ => List.disjoint_symm⟩
    have hapart := hdisjoint.forall ht' ht hne
    simp only [Function.onFun, askingAt, hstage, hstage', hnumber] at hapart
    exact List.disjoint_left.mp hapart (List.mem_singleton_self _) (List.mem_singleton_self _)
  subst hsame
  rw [hstage] at hstage'
  exact ⟨rfl,by simpa using hstage'.symm⟩

omit [Storage σ] in
/-- No task waits for a job that the foreground runs. -/
theorem Known.ne_of_waits {known : System σ → Prop} (h : Known known front pending schedule)
    (hwait : schedule.stage? id = some (.waiting wait)) : ∀ job ∈ front, job.number ≠ wait.job.number := by
  obtain ⟨s,hs,-⟩ := h
  obtain ⟨task,ht,-,hstage⟩ := exists_task hwait
  have hwaits : wait.job.number ∈ waits schedule.tasks :=
    List.mem_flatMap.mpr ⟨task,ht,by simp [askingAt, hstage]⟩
  exact fun job hj => (List.nodup_append.mp hs.mirrors.nodup).2.2 _ (List.mem_map_of_mem hj) _ hwaits

/-! ### While a run goes on -/

/-- One of some jobs has a run that goes on. -/
def UnderWay (since number : Nat) (jobs : List Job) : Prop := ∃ job ∈ jobs, job.number = number ∧ job.Running since

/-- It is not begun once more. -/
theorem UnderWay.start (h : UnderWay since number schedule.manager.jobs) (hnumbered : schedule.manager.Numbered) (other : Nat)
    (input : String) : Holding (fun jobs _ => UnderWay since number jobs) schedule.now ((Schedule.start other input).run schedule).2 := by
  have hholding : Holding (fun jobs _ => UnderWay since number jobs) schedule.now schedule := ⟨rfl,hnumbered,h⟩
  by_cases hne : other = number
  · obtain ⟨job,hj,rfl,hrunning⟩ := h
    rw [hne, run_start_refused hnumbered hj (by simp [hrunning.state]) input]
    exact hholding
  · exact (upheld_start (runsUphold_of_ne hne) input schedule hholding).holding

/-- Tasks that do not wait for it leave it alone. -/
theorem UnderWay.advance (h : UnderWay since number schedule.manager.jobs) (hnumbered : schedule.manager.Numbered)
    (hothers : ∀ wait, schedule.stage? id = some (.waiting wait) → wait.job.number ≠ number) :
    Holding (fun jobs _ => UnderWay since number jobs) schedule.now ((Schedule.advance id).run schedule).2 := by
  have hholding : Holding (fun jobs _ => UnderWay since number jobs) schedule.now schedule := ⟨rfl,hnumbered,h⟩
  by_cases hqueued : ∃ input, schedule.stage? id = some (.queued number input)
  · obtain ⟨input,hstage⟩ := hqueued
    obtain ⟨job,hj,rfl,hrunning⟩ := h
    have hrefused := run_start_refused hnumbered hj (by simp [hrunning.state]) input
    simp only [Schedule.advance, StateT.run_bind, StateT.run_get, pure_bind]
    rw [show (schedule.task? id).map Task.stage = schedule.stage? id from rfl, hstage]
    simp only [StateT.run_bind, hrefused]
    exact ⟨rfl,hnumbered,hholding.table⟩
  · refine upheld_advance hholding fun stage hstage other hother => runsUphold_of_ne ?_
    rintro rfl
    cases stage with
    | done reply => cases hother
    | queued other input =>
      obtain rfl := Option.some.inj hother
      exact hqueued ⟨input,hstage⟩
    | waiting wait => exact hothers wait hstage (Option.some.inj hother)

/-! ### The end of a run -/

omit [Storage σ] in
/-- What comes of a wait that ends when it is over: the answer, unless the limit comes before it. -/
def Decides (wait : Wait) (reply : String) (job : Job) : Prop :=
  if wait.answerAt ≤ wait.until_ then job.Answered wait.answer reply
  else job.TimedOut ((wait.limit.map Prod.fst).getD 0) reply

omit [Storage σ] in
theorem Decides.moves {now : Nat} {later : Job} (h : Decides wait reply job) (hmoves : job.Moves now later)
    (hsound : job.Sound now) : Decides wait reply later := by
  by_cases hcome : wait.answerAt ≤ wait.until_
  · rw [Decides, if_pos hcome] at h ⊢
    exact h.moves hmoves hsound
  · rw [Decides, if_neg hcome] at h ⊢
    exact h.moves hmoves hsound

omit [Storage σ] in
/-- The run of a job has ended at a moment, in some way. -/
def Concluded (number since stop : Nat) (P : Job → Prop) (s : System σ) : Prop :=
  stop ≤ s.now ∧ ∃ job ∈ s.manager.jobs, job.number = number ∧ job.Ran since stop ∧ P job

theorem kept_concluded {stop : Nat} {P : Job → Prop}
    (hP : ∀ {now : Nat} {job later : Job}, job.Moves now later → job.Sound now → P job → P later) :
    System.Kept (σ := σ) (Concluded number since stop P) := by
  rintro s event h ⟨hstop,hjob⟩
  refine ⟨Nat.le_trans hstop (h.jobsMove (System.change_step h.numbered event)).now,?_⟩
  exact System.kept_job number (fun hmoves hsound hp => ⟨hp.1.moves hmoves hsound,hP hmoves hsound hp.2⟩) s event h hjob

omit [Storage σ] in
theorem Known.concluded {stop : Nat} {P : Job → Prop} (h : Known (Concluded number since stop P) front pending schedule) :
    stop ≤ schedule.now ∧ ∃ job, schedule.manager.job? number = some job ∧ job.Ran since stop ∧ P job := by
  have hnumbered := h.numbered
  obtain ⟨s,hs,hstop,job,hj,rfl,hran,hp⟩ := h
  rw [hs.mirrors.manager] at hj
  exact ⟨hs.mirrors.now ▸ hstop,job,hnumbered.job?_number hj,hran,hp⟩

omit [Storage σ] in
theorem Known.conclude {stop : Nat} {P : Job → Prop} (h : Known (fun _ => True) front pending schedule)
    (hstop : stop ≤ schedule.now) (hj : job ∈ schedule.manager.jobs) (hran : job.Ran since stop) (hp : P job) :
    Known (Concluded job.number since stop P) front pending schedule := by
  obtain ⟨s,hs,-⟩ := h
  exact ⟨s,hs,hs.mirrors.now.symm ▸ hstop,job,hs.mirrors.manager.symm ▸ hj,rfl,hran,hp⟩

/-- A task has told what its wait came to, and so does its job. -/
def Over (since id : Nat) (wait : Wait) (front : List Job) (pending : List Nat) (schedule : Schedule σ) : Prop :=
  ∃ reply, schedule.stage? id = some (.done (.ok reply)) ∧
    Known (Concluded wait.job.number since wait.until_ (Decides wait reply)) front pending schedule

theorem carried_over (since id : Nat) (wait : Wait) : Carried (σ := σ) (Over since id wait) :=
  .exists_ fun reply => (carried_done id (.ok reply)).and
    (carried_known (kept_concluded fun hmoves hsound hp => hp.moves hmoves hsound))

/-! ### A run that waits -/

omit [Storage σ] in
/-- A schedule that is mirrored, with its tasks where they should be. -/
def Standing (front : List Job) (pending : List Nat) (schedule : Schedule σ) : Prop :=
  Known (fun _ => True) front pending schedule ∧ Placed pending schedule

theorem carried_standing : Carried (σ := σ) Standing := carried_mirrored.and carried_placed

/-- A task waits on behalf of a job whose run goes on, and can go on itself only when its wait is over. -/
structure Racing (since id : Nat) (wait : Wait) (front : List Job) (pending : List Nat) (schedule : Schedule σ) : Prop where
  standing : Standing front pending schedule
  waits : schedule.stage? id = some (.waiting wait)
  early : schedule.now ≤ wait.until_
  due : id ∈ pending ++ schedule.ready → wait.until_ ≤ schedule.now
  running : UnderWay since wait.job.number schedule.manager.jobs

/-- A call of the manager that leaves a run alone. -/
def Sparing {α : Type} (since number : Nat) (act : Nat → Managing σ α) : Prop :=
  Outside (fun _ => True) act ∧ ∀ now, Manager.Upholds (fun jobs _ => UnderWay since number jobs) (act now)

namespace Racing

omit [Storage σ] in
theorem numbered (h : Racing since id wait front pending schedule) : schedule.manager.Numbered := h.standing.1.numbered

omit [Storage σ] in
theorem holding (h : Racing since id wait front pending schedule) :
    Holding (fun jobs _ => UnderWay since wait.job.number jobs) schedule.now schedule := ⟨rfl,h.numbered,h.running⟩

omit [Storage σ] in
theorem not_cancelled (h : Racing since id wait front pending schedule) : ¬schedule.isCancelled wait.job := by
  obtain ⟨job,hj,hnumber,hrunning⟩ := h.running
  simp [isCancelled, ← hnumber, h.numbered.job?_number hj, hrunning.wanted]

/-- The wait ends when its task goes on. -/
theorem ends (h : Racing since id wait front (id :: pending) schedule) :
    Over since id wait front pending ((advance id).run schedule).2 := by
  obtain ⟨job,hj,hnumber,hrunning⟩ := h.running
  have hnow : schedule.now = wait.until_ := Nat.le_antisymm h.early (h.due (by simp))
  obtain ⟨later,hl,hlater,hran,hdecides⟩ := mem_endWait h.numbered hj hnumber.symm hrunning
  have hknown := carried_mirrored.advance id schedule h.standing.1
  rw [run_advance_waiting h.waits] at hknown ⊢
  have htasks : ((endWait wait).run schedule).2.tasks = schedule.tasks := by
    obtain ⟨manager,hsame⟩ := manages_endWait wait schedule schedule ⟨_,rfl⟩
    rw [hsame]
  have hstill : ((endWait wait).run schedule).2.now = schedule.now := (manages_endWait wait).instant schedule.now schedule rfl
  refine ⟨((endWait wait).run schedule).1,?_,?_⟩
  · refine (stage?_withStage (congrArg (withStage id _) htasks) id).trans ?_
    simp [h.waits]
  · rw [← hnumber, ← hlater]
    refine hknown.conclude (hstill ▸ hnow.ge) hl (hnow ▸ hran) ?_
    rw [hnow] at hdecides
    unfold Decides
    split at hdecides
    · rwa [if_pos ‹_›]
    · rw [if_neg ‹_›]
      exact hdecides.1

omit [Storage σ] in
/-- It goes on as long as its task, its job and the clock stay as they are. -/
private theorem stays {front' : List Job} {pending' : List Nat} (h : Racing since id wait front pending schedule)
    (hstanding : Standing front' pending' later) (hstage : later.stage? id = schedule.stage? id)
    (hqueue : id ∈ pending' ++ later.ready → id ∈ pending ++ schedule.ready)
    (hlater : Holding (fun jobs _ => UnderWay since wait.job.number jobs) schedule.now later) : Racing since id wait front' pending' later :=
  ⟨hstanding,hstage.trans h.waits,hlater.now ▸ h.early,fun hid => hlater.now ▸ h.due (hqueue hid),hlater.table⟩

omit [Storage σ] in
/-- Only the manager changes. -/
private theorem managed {α : Type} {act : Scheduling σ α} {front' : List Job} (h : Racing since id wait front [] schedule)
    (hmanages : Manages act) (hstanding : Standing front' [] (act.run schedule).2)
    (hlater : Holding (fun jobs _ => UnderWay since wait.job.number jobs) schedule.now (act.run schedule).2) :
    Racing since id wait front' [] (act.run schedule).2 := by
  obtain ⟨manager,hsame⟩ := hmanages schedule schedule ⟨_,rfl⟩
  refine h.stays hstanding ?_ ?_ hlater
  · rw [hsame]
    rfl
  · rw [hsame]
    exact fun hid => hid

private theorem queue {ready : List Nat} (h : Racing since id wait front [] schedule)
    (hperm : schedule.ready.Perm (pending ++ ready)) : Racing since id wait front pending { schedule with ready } :=
  h.stays (carried_standing.queue h.standing fun _ => hperm.mem_iff.mp) rfl hperm.mem_iff.mpr ⟨rfl,h.numbered,h.running⟩

private theorem advance {other : Nat} (h : Racing since id wait front (other :: pending) schedule) (hne : id ≠ other) :
    Racing since id wait front pending ((Schedule.advance other).run schedule).2 := by
  have hadvanced := leads_advance other schedule schedule rfl
  refine h.stays (carried_standing.advance other schedule h.standing) (hadvanced.of_ne hne) (fun hid => ?_)
    (h.running.advance h.numbered fun another hwaits hnumber => ?_)
  · rw [hadvanced.ready] at hid
    exact List.mem_cons_of_mem _ hid
  · exact hne (h.standing.1.eq_of_waits h.waits hwaits hnumber).1.symm

private theorem wake {ids : List Nat} (h : Racing since id wait front [] schedule) (hids : Wakeable ids schedule) :
    Racing since id wait front [] ((Schedule.wake ids).run schedule).2 := by
  refine ⟨carried_standing.wake ids schedule h.standing,h.waits,h.early,fun hid => ?_,h.running⟩
  rcases List.mem_append.mp (show id ∈ schedule.ready ++ ids from hid) with hid | hid
  · exact h.due hid
  · exact (hids.elapsed id hid wait (wait?_eq_some.mpr h.waits)).resolve_right h.not_cancelled

/-- The clock does not get past the moment when the wait is over. -/
private theorem clock {moment : Nat} (h : Racing since id wait front [] schedule) (hfree : Free moment schedule) :
    Racing since id wait front [] { schedule with now := max schedule.now moment } := by
  have hnot : id ∉ schedule.ready := by simp [hfree.1]
  have hsleeps : id ∈ schedule.sleeping := (h.standing.2 id wait h.waits).resolve_right hnot
  have hmoment : wait.until_ ∈ schedule.moments :=
    List.mem_filterMap.mpr ⟨id,hsleeps,by rw [wait?_eq_some.mpr h.waits]; rfl⟩
  exact ⟨carried_standing.clock moment h.standing,h.waits,Nat.max_le.mpr ⟨h.early,hfree.2 _ hmoment⟩,
    fun hid => absurd hid hnot,h.running⟩

private theorem credit (h : Racing since id wait front [] schedule) (credit : Nat) :
    Racing since id wait front [] { schedule with credit } :=
  h.stays (carried_standing.credit credit h.standing) rfl (fun hid => hid) ⟨rfl,h.numbered,h.running⟩

/-- A new task has another number. -/
private theorem spawn (h : Racing since id wait front [] schedule) (number : Nat) (input : String) :
    Racing since id wait front [] ((Schedule.spawn number input).run schedule).2 := by
  have hstage : ((Schedule.spawn number input).run schedule).2.stage? id = schedule.stage? id := by
    rw [stage?_concat rfl, h.waits]
    rfl
  have hne : id ≠ schedule.tasks.length := by
    obtain ⟨task,ht,rfl,-⟩ := exists_task h.waits
    obtain ⟨s,hs,-⟩ := h.standing.1
    have hid : task.id ∈ List.range schedule.tasks.length := hs.ids ▸ List.mem_map_of_mem ht
    exact (List.mem_range.mp hid).ne
  refine h.stays (carried_standing.spawn number input schedule h.standing) hstage (fun hid => ?_) ⟨rfl,h.numbered,h.running⟩
  exact (List.mem_append.mp (show id ∈ schedule.ready ++ [schedule.tasks.length] from hid)).resolve_right (by simpa using hne)

end Racing

/-- Until a wait is over nothing but a call of the manager can end the run, and then it has ended as it should. -/
theorem sustained_race (since id : Nat) (wait : Wait) : Sustained (σ := σ) (Sparing since wait.job.number)
    fun front pending schedule => Racing since id wait front pending schedule ∨ Over since id wait front pending schedule := by
  have hover := carried_over (σ := σ) since id wait
  exact {
    idling := fun front => {
      queue := fun hs hperm => hs.imp (·.queue hperm) fun hs => hover.queue hs fun _ => hperm.mem_iff.mp
      advance := fun {pending} other schedule hs => by
        rcases hs with hs | hs
        · by_cases hne : id = other
          · subst hne
            exact .inr hs.ends
          · exact .inl (hs.advance hne)
        · exact .inr (hover.advance other schedule hs)
      wake := fun hs hids => hs.imp (·.wake hids) fun hs => hover.wake _ _ hs
      clock := fun hs hfree => hs.imp (·.clock hfree) fun hs => hover.clock _ hs
      credit := fun credit hs => hs.imp (·.credit credit) fun hs => hover.credit credit hs }
    spawn := fun number input schedule hs => hs.imp (·.spawn number input) fun hs => hover.spawn number input schedule hs
    managing := fun {front} _ _ hact schedule hs => hs.imp
      (fun hs => hs.managed (manages_managing _) (carried_standing.managing hact.1 schedule hs.standing)
        (leads_upheld hact.2 schedule hs.holding)) fun hs => hover.managing hact.1 schedule hs
    start := fun number input schedule hs => hs.imp
      (fun hs => hs.managed (manages_start number input) (carried_standing.start number input schedule hs.standing)
        (hs.running.start hs.numbered number input)) fun hs => hover.start number input schedule hs
    work := fun job schedule hs => hs.imp
      (fun hs => hs.managed (manages_work job) (carried_standing.work job schedule hs.standing)
        (upheld_work (runsUphold_of_ne (hs.standing.1.ne_of_waits hs.waits job List.mem_cons_self)) schedule hs.holding).holding)
      fun hs => hover.work job schedule hs
    endWait := fun other schedule hs => hs.imp
      (fun hs => hs.managed (manages_endWait other) (carried_standing.endWait other schedule hs.standing)
        (upheld_endWait (runsUphold_of_ne (hs.standing.1.ne_of_waits hs.waits other.job List.mem_cons_self)) schedule hs.holding))
      fun hs => hover.endWait other schedule hs }

end Schedule
end VirtualShell.Agent
