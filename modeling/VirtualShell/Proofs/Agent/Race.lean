import VirtualShell.Proofs.Agent.Deadlines

/-!
The earliest event decides a run. Its answer, its time limit and a kill race for it, in the background or in the
foreground; the job ends when the first of them comes, and the run replies what that one makes of it.
-/
namespace VirtualShell.Agent

theorem Job.Stopped.moves {now : Nat} {reply : String} {job later : Job} (h : job.Stopped reply) (hmoves : job.Moves now later)
    (hsound : job.Sound now) : later.Stopped reply := by
  have hterminal : job.state.isTerminal := by rw [h.1]; rfl
  exact ⟨(hmoves.sameEnd hsound hterminal).state.trans h.1,h.2⟩

namespace Schedule
variable {σ : Type} {schedule later : Schedule σ} {job : Job} {wait : Wait} {since id number moment delay : Nat}
  {limit : Option Nat} {answer : Answer} {input : String}

/-! ### Calls that leave a run alone -/

/-- Whether a happening leaves the job of a name alone: it neither ends nor suspends it. -/
def Happening.Spares (pid : String) : Happening σ → Prop
  | kill other => other ≠ pid
  | suspend other => other ≠ pid
  | cleanupAll => False
  | _ => True

/-- What does not fit a job that runs leaves it alone. -/
theorem UnderWay.on {jobs : List Job} {act : Job.Act} {other : Nat} (h : UnderWay since number jobs)
    (hspares : other = number → ¬act.fits .running) : UnderWay since number (jobs.map (act.on other)) := by
  obtain ⟨job,hj,hnumber,hrunning⟩ := h
  refine ⟨job,List.mem_map.mpr ⟨job,hj,if_neg ?_⟩,hnumber,hrunning⟩
  rintro ⟨hother,hfits⟩
  exact hspares (hother.symm.trans hnumber) (hrunning.state ▸ hfits)

/-- Who spares a job makes calls that leave its run alone. -/
theorem Happening.Spares.makes {happening : Happening σ} (h : happening.Spares s!"agent_{number}") (since : Nat) :
    happening.Makes (Sparing since number) := by
  have houtside : happening.Makes (Outside fun _ => True) := Happening.makes_outside (by cases happening <;> trivial)
  have hother {pid : String} (hpid : pid ≠ s!"agent_{number}") (act : Job.Act) :
      Manager.Upholds (fun jobs _ => UnderWay since number jobs) (Manager.actOn (σ := σ) pid act) := by
    refine .actOn fun job hjob jobs _ hjobs => UnderWay.on hjobs fun hnumber => absurd ?_ hpid
    rw [← hjob, Job.pid_eq_iff.mpr hnumber]
  cases happening with
  | elsewhere shell poisoned => exact ⟨houtside,fun _ => .elsewhere shell poisoned⟩
  | create definition background =>
    refine ⟨houtside,fun _ => .create (fun jobs job _ hin => ?_) definition background⟩
    obtain ⟨old,ho,hold⟩ := hin
    exact ⟨old,List.mem_append_left _ ho,hold⟩
  | kill pid => exact ⟨houtside,fun now => hother h (.kill now)⟩
  | suspend pid => exact ⟨houtside,fun _ => hother h .suspend⟩
  | resume pid => exact ⟨houtside,fun _ => .actOn fun _ _ _ _ hjobs => UnderWay.on hjobs fun _ => by decide⟩
  | cleanupCompleted =>
    exact ⟨houtside,fun _ => .cleanupCompleted fun _ _ _ _ hjobs => UnderWay.on hjobs fun _ => by decide⟩
  | cleanupAll => cases h
  | _ => trivial

variable [Storage σ]

/-! ### A kill before the end -/

omit [Storage σ] in
/-- A job was killed at a moment, and the task that waited on its behalf goes on next or has replied. -/
def Slain (since moment : Nat) (conversation : List Message) (id : Nat) (wait : Wait) (front : List Job)
    (pending : List Nat) (schedule : Schedule σ) : Prop :=
  Known (Terminated wait.job.number moment conversation) front pending schedule ∧
    Known (Concluded wait.job.number since moment (·.Stopped "Process cancelled")) front pending schedule ∧
    Runs id wait.job.number schedule ∧ Woken id wait pending schedule

omit [Storage σ] in
/-- A task has replied. -/
def Told (id : Nat) (_front : List Job) (_pending : List Nat) (schedule : Schedule σ) : Prop :=
  ∃ text, schedule.stage? id = some (.done (.ok text))

variable {conversation : List Message}

theorem carried_slain (since moment : Nat) (conversation : List Message) (id : Nat) (wait : Wait) :
    Carried (σ := σ) (Slain since moment conversation id wait) := by
  have hstopped : System.Kept (σ := σ) (Concluded wait.job.number since moment (·.Stopped "Process cancelled")) :=
    kept_concluded fun hmoves hsound hp => Job.Stopped.moves hp hmoves hsound
  exact (carried_known (kept_terminated _ _ _)).and
    ((carried_known hstopped).and ((carried_runs id wait.job.number).and (carried_woken id wait)))

theorem carried_told (id : Nat) : Carried (σ := σ) (Told id) := .exists_ fun text => carried_done id (.ok text)

/-- No time passes before the run of a job that was killed replies. -/
theorem sustained_slain (since moment : Nat) (conversation : List Message) (id : Nat) (wait : Wait) :
    Sustained (σ := σ) (Outside fun _ => True) fun front pending schedule =>
      Told id front pending schedule ∨ (Slain since moment conversation id wait front pending schedule ∧ schedule.now = moment) := by
  have htold := carried_told (σ := σ) id
  have hslain := carried_slain (σ := σ) since moment conversation id wait
  exact {
    idling := fun front => {
      queue := fun hs hperm => hs.imp (htold.queue · fun _ => hperm.mem_iff.mp)
        fun hs => ⟨hslain.queue hs.1 fun _ => hperm.mem_iff.mp,hs.2⟩
      advance := fun other schedule hs => hs.imp (htold.advance other schedule)
        fun hs => ⟨hslain.advance other schedule hs.1,instant_advance other moment schedule hs.2⟩
      wake := fun hs _ => hs.imp (htold.wake _ _) fun hs => ⟨hslain.wake _ _ hs.1,hs.2⟩
      clock := fun hs hfree => by
        rcases hs with hs | ⟨⟨_,_,_,hwoken⟩,_⟩
        · exact .inl hs
        · exact .inl (hwoken.resolve_left fun hwaits => by simp [hfree.1] at hwaits)
      credit := fun credit hs => hs.imp (htold.credit credit) fun hs => ⟨hslain.credit credit hs.1,hs.2⟩ }
    spawn := fun number input schedule hs => hs.imp (htold.spawn number input schedule)
      fun hs => ⟨hslain.spawn number input schedule hs.1,hs.2⟩
    managing := fun hact schedule hs => hs.imp (htold.managing hact schedule)
      fun hs => ⟨hslain.managing hact schedule hs.1,hs.2⟩
    start := fun number input schedule hs => hs.imp (htold.start number input schedule)
      fun hs => ⟨hslain.start number input schedule hs.1,(manages_start number input).instant moment schedule hs.2⟩
    work := fun job schedule hs => hs.imp (htold.work job schedule)
      fun hs => ⟨hslain.work job schedule hs.1,(manages_work job).instant moment schedule hs.2⟩
    endWait := fun other schedule hs => hs.imp (htold.endWait other schedule)
      fun hs => ⟨hslain.endWait other schedule hs.1,(manages_endWait other).instant moment schedule hs.2⟩ }

omit [Storage σ] in
theorem find?_running (hnumbered : schedule.manager.Numbered) (hj : job ∈ schedule.manager.jobs) (hrunning : job.Running since) :
    schedule.manager.find? job.pid = some job :=
  hnumbered.find?_pid hj (hnumbered.lists_of hj (by simp [hrunning.state, State.isTerminal]))

omit [Storage σ] in
theorem run_kill_running (hnumbered : schedule.manager.Numbered) (hj : job ∈ schedule.manager.jobs) (hrunning : job.Running since) :
    ((kill job.pid).run schedule).1 = true := by
  rw [kill, run_interrupting, run_managing, Manager.kill, Manager.actOn]
  simp only [StateT.run_bind, StateT.run_get, pure_bind, find?_running hnumbered hj hrunning, Manager.run_act hnumbered,
    hnumbered.job?_number hj, Option.any_some, Job.Act.fits, hrunning.state]
  rfl

/-- A job whose run goes on is killed at once. -/
theorem Racing.killed (h : Racing since id wait [] [] schedule) (hpid : job.pid = s!"agent_{wait.job.number}") :
    ∃ conversation, Slain since schedule.now conversation id wait [] [] ((Schedule.kill job.pid).run schedule).2 := by
  obtain ⟨found,hj,hnumber,hrunning⟩ := h.running
  have hname : found.pid = job.pid := by rw [hpid, Job.pid_eq_iff.mpr hnumber]
  have hkill := run_kill_running h.numbered hj hrunning
  have hfind := find?_running h.numbered hj hrunning
  rw [hname] at hkill hfind
  obtain ⟨other,task,another,hother,-,hwaits,hwait,hterminated,hwoken,hruns⟩ := h.standing.1.kill h.standing.2 hkill
  obtain rfl : found = other := Option.some.inj (hfind.symm.trans hother)
  -- The task that the kill has woken is the one that waits.
  obtain ⟨rfl,rfl⟩ := h.standing.1.eq_of_waits h.waits (wait?_eq_some.mp hwaits) (hwait.trans hnumber)
  have hknown : Known (fun _ => True) [] [] ((Schedule.kill job.pid).run schedule).2 :=
    carried_mirrored.interrupting (.kill job.pid) schedule h.standing.1
  obtain ⟨last,hlast,-,hrun⟩ := run_kill h.numbered hkill
  obtain rfl : found = last := Option.some.inj (hfind.symm.trans hlast)
  have hthere : found.terminate schedule.now ∈ ((Schedule.kill job.pid).run schedule).2.manager.jobs := by
    rw [hrun]
    refine List.mem_map.mpr ⟨found,hj,if_pos ⟨rfl,?_⟩⟩
    simp [Job.Act.fits, hrunning.state, State.isActive]
  have hnow : schedule.now ≤ ((Schedule.kill job.pid).run schedule).2.now := by rw [hrun]; exact Nat.le_refl _
  have hstopped : Known (Concluded (found.terminate schedule.now).number since schedule.now (·.Stopped "Process cancelled"))
      [] [] ((Schedule.kill job.pid).run schedule).2 := hknown.conclude hnow hthere ⟨rfl,hrunning.startTime,rfl⟩ ⟨rfl,rfl⟩
  exact ⟨found.opening,hwait ▸ hterminated,hwait ▸ hstopped,hwait ▸ hruns,hwoken⟩

/-! ### The start of a run -/

/-- A job whose run can begin. -/
structure Startable (job : Job) (s : Schedule σ) : Prop where
  found : s.manager.job? job.number = some job
  pending : job.state = .pending
  wanted : job.cancelled = false

/-- The tools that a run tells its model of. -/
def toolsOf (job : Job) (s : Schedule σ) : List Tool := Tool.manifest s.manager.shell.session.usage job.definition.tools

/-- The shell can be used, and the model takes some time for its answer to the next request, if a job makes it. -/
def Asks (job : Job) (delay : Nat) (answer : Answer) (s : Schedule σ) : Prop :=
  s.manager.poisoned = false ∧ s.manager.model s.manager.requests.length job.request (toolsOf job s) = ⟨some delay,answer⟩

/-- A schedule when a job has asked its model. -/
def asked (job : Job) (s : Schedule σ) : Schedule σ :=
  { s with manager := { s.manager with requests := s.manager.requests ++ [(job.request,(toolsOf job s).map Tool.name)] } }

/-- The model takes its time. -/
theorem run_ask_waiting {m : Manager σ} {tools : List Tool}
    (hasks : m.model m.requests.length job.request tools = ⟨some delay,answer⟩) : (Manager.ask job tools).run m =
      (.waiting delay answer (m.limit? job.definition), { m with requests := m.requests ++ [(job.request,tools.map Tool.name)] }) := by
  simp only [Manager.ask, StateT.run_bind, StateT.run_get, StateT.run_set, pure_bind, hasks]
  rfl

/-- The work of a run is a wait for the answer. -/
theorem run_work_asked (hasks : Asks job delay answer schedule) (hwanted : job.cancelled = false) : (work job).run schedule =
      (.inr (.ofDelay schedule.timers schedule.now job delay answer (schedule.manager.limit? job.definition)),asked job schedule) := by
  have hwork : (managing fun _ => Manager.work job).run schedule =
      pure (.waiting delay answer (schedule.manager.limit? job.definition),asked job schedule) := by
    have hask : (Manager.ask job (Tool.manifest schedule.manager.shell.session.usage job.definition.tools)).run
        schedule.manager = (.waiting delay answer (schedule.manager.limit? job.definition),(asked job schedule).manager) :=
      run_ask_waiting hasks.2
    simp only [run_managing, Manager.work, StateT.run_bind, StateT.run_get, pure_bind, hasks.1, hwanted, Bool.false_eq_true,
      if_false, hask]
    rfl
  simp only [work, StateT.run_bind, hwork, pure_bind]
  rfl

/-- The time limit for agents that set none stays the same. -/
theorem kept_defaultTimeout (limit : Option Nat) : System.Kept (σ := σ) fun s => s.manager.defaultTimeout = limit := by
  intro s event h hs
  cases event with
  | run number input =>
    cases hfound : s.manager.job? number with
    | none => simpa [System.step, hfound] using hs
    | some job =>
      obtain ⟨hj,rfl⟩ := Manager.mem_of_job? hfound
      by_cases hpending : job.state = .pending
      · simpa [System.step, hfound, Manager.run_begin h.numbered s.now input hj hpending] using hs
      · simpa [System.step, hfound, Manager.run_begin_refused h.numbered s.now input hj hpending] using hs
  | remember i memory =>
    simp only [System.step, Manager.run_act h.numbered]
    split
    · split
      · exact hs
      · exact hs
    · exact hs
  | finish i outcome =>
    simp only [System.step]
    split
    · split
      · rename_i job _ _
        obtain ⟨_,_,hrun⟩ := Manager.run_finish h.numbered s.now outcome job
        rw [hrun]
        exact hs
      · exact hs
    · exact hs
  | control number control =>
    rw [System.step, Manager.run_act h.numbered]
    exact hs
  | drop pid =>
    rcases Manager.run_drop_cases h.numbered pid with hsame | ⟨job,_,_,hdrop⟩
    · rwa [System.step, hsame]
    · rw [System.step, hdrop]
      exact hs
  | _ => exact hs

/-- A wait for an answer, and for the time if there is a limit. -/
def waitAt (now : Nat) (job : Job) (delay : Nat) (answer : Answer) (limit : Option Nat) : Wait :=
  ⟨job,answer,now + delay,limit.map fun n => (n,now + n)⟩

omit [Storage σ] in
/-- It lasts as long as it should, if the timers are exact. -/
theorem ofDelay_exact {timers : Timers} (hexact : timers.Exact) (now : Nat) (job : Job) (delay : Nat) (answer : Answer)
    (limit : Option Nat) : Wait.ofDelay timers now job delay answer limit = waitAt now job delay answer limit := by
  have hdue : ∀ milliseconds, timers milliseconds = milliseconds := hexact
  simp only [Wait.ofDelay, waitAt, hdue]

omit [Storage σ] in
/-- A wait is over with the answer or the time. -/
theorem until_waitAt (now : Nat) (job : Job) (delay : Nat) (answer : Answer) (limit : Option Nat) :
    (waitAt now job delay answer limit).until_ = now + min delay (limit.getD delay) := by
  cases limit with
  | none => simp [waitAt, Wait.until_]
  | some limit => simp [waitAt, Wait.until_, Nat.min_comm, Nat.add_min_add_left]

omit [Storage σ] in
/-- A job that is pending when its run starts runs from then on. -/
theorem Startable.running (h : Startable job schedule) (hknown : Known (fun _ => True) [] [] schedule) (memory : Memories) :
    Job.Running schedule.now { job.begin schedule.now input with memory } := by
  obtain ⟨s,hs,-⟩ := hknown
  have hj : job ∈ s.manager.jobs := hs.mirrors.manager ▸ (Manager.mem_of_job? h.found).1
  have hend : job.endTime = none := by
    rw [← Option.not_isSome_iff_eq_none, (hs.mirrors.invariant.sound job hj).ended]
    simp [h.pending, State.isTerminal]
  exact ⟨rfl,rfl,hend,h.wanted⟩

theorem usage_of_looked {agent : String} {shell later : Shell σ} (h : Manager.Looked agent shell later) :
    later.session.usage = shell.session.usage := by
  rcases h with rfl | rfl
  · rfl
  · rfl

/-- What the model does is the same when the run has begun. -/
theorem Unasked.asks {agent : String} {run : Job} (h : Unasked agent schedule later) (hasks : Asks run delay answer schedule) :
    Asks run delay answer later := by
  obtain ⟨shell,jobs,hlooked,hmanager⟩ := h
  rw [Asks, toolsOf, hmanager, usage_of_looked hlooked]
  exact hasks

/-- A task is about to start the run of a job, whose model takes some time for its answer. -/
structure Starts (id : Nat) (job : Job) (input : String) (delay : Nat) (answer : Answer) (s : Schedule σ) : Prop
    extends Startable job s where
  queued : s.stage? id = some (.queued job.number input)
  ready : id ∈ s.ready
  asks : Asks (job.begin s.now input) delay answer s

/-- The task goes on until it waits. -/
theorem Starts.waits (h : Starts id job input delay answer schedule) (hnumbered : schedule.manager.Numbered)
    (hexact : schedule.timers.Exact) (hpos : 0 < min delay ((schedule.manager.limit? job.definition).getD delay)) :
    ∃ memory manager, { job.begin schedule.now input with memory } ∈ manager.jobs ∧ ((poll id).run schedule).2 =
      { schedule with
        manager
        tasks := withStage id (.waiting (waitAt schedule.now { job.begin schedule.now input with memory } delay answer
          (schedule.manager.limit? job.definition))) schedule.tasks
        ready := schedule.ready.erase id
        sleeping := schedule.sleeping ++ [id] } := by
  let taken : Schedule σ := { schedule with ready := schedule.ready.erase id }
  have hj : job ∈ schedule.manager.jobs := (Manager.mem_of_job? h.found).1
  obtain ⟨memory,manager,hstart,-,hmem,hunasked⟩ :=
    run_start_pending (t := taken) hnumbered hj h.pending input
  let run : Job := { job.begin schedule.now input with memory }
  let begun : Schedule σ := { taken with manager }
  have hasks : Asks run delay answer begun := hunasked.asks h.asks
  obtain ⟨shell,jobs,-,hmanager⟩ := hunasked
  have hsame : manager = { schedule.manager with shell, jobs } := hmanager
  have hlimits : manager.limit? run.definition = schedule.manager.limit? job.definition := by rw [hsame]; rfl
  have hwork := run_work_asked hasks h.wanted
  rw [show begun.manager.limit? run.definition = _ from hlimits, ofDelay_exact hexact] at hwork
  have hlate : ¬(waitAt begun.now run delay answer (schedule.manager.limit? job.definition)).until_ ≤
      (asked run begun).now := by
    rw [until_waitAt]
    exact Nat.not_le_of_lt (Nat.lt_add_of_pos_right hpos)
  refine ⟨memory,(asked run begun).manager,hmem,?_⟩
  rw [run_poll, if_pos (List.contains_iff_mem.mpr h.ready)]
  refine (?_ : Leads (fun now => now = taken) (advance id) fun _ last => last = _) taken rfl
  refine .get_bind ?_
  rintro _ rfl
  rw [show (taken.task? id).map Task.stage = schedule.stage? id from rfl, h.queued]
  refine .run_bind hstart (.run_bind hwork (.get_bind ?_))
  rintro _ rfl
  rw [if_neg hlate]
  rintro _ rfl
  rfl

/-- Then its run is under way. -/
theorem Starts.races (h : Starts id job input delay answer schedule) (hstanding : Standing [] [] schedule)
    (hexact : schedule.timers.Exact) (hlively : Lively [] schedule)
    (hpos : 0 < min delay ((schedule.manager.limit? job.definition).getD delay)) :
    ∃ run : Job, run.number = job.number ∧ Racing schedule.now id
      (waitAt schedule.now run delay answer (schedule.manager.limit? job.definition)) [] [] ((poll id).run schedule).2 := by
  obtain ⟨memory,manager,hmem,hrun⟩ := h.waits hstanding.1.numbered hexact hpos
  have hlater := carried_standing.poll id schedule hstanding
  refine ⟨{ job.begin schedule.now input with memory },rfl,hlater,?_,?_,fun hid => ?_,?_⟩
  · refine (stage?_withStage (congrArg Schedule.tasks hrun) id).trans ?_
    simp [h.queued]
  · rw [hrun, until_waitAt]
    exact Nat.le_add_right _ _
  · rw [hrun] at hid
    have hnodup : schedule.ready.Nodup := (List.nodup_append.mp (show (schedule.ready ++ schedule.sleeping).Nodup from hlively.nodup)).1
    exact absurd hid hnodup.not_mem_erase
  · rw [hrun]
    exact ⟨_,hmem,rfl,h.running hstanding.1 memory⟩

/-! ### What comes first -/

/-- What can end a run: its answer, which takes some time, its time limit, and a kill some time after its start. -/
structure Contest where
  answer : Answer
  delay : Nat
  limit : Option Nat
  kill : Option Nat

namespace Contest
variable {c : Contest} {text : String}

/-- When the first of them comes. -/
def first (c : Contest) : Nat :=
  min c.delay (min (c.limit.getD c.delay) (c.kill.getD c.delay))

/-- All of them take time, and no two of them come at once. -/
structure Apart (c : Contest) : Prop where
  delay : 0 < c.delay
  limit : ∀ limit ∈ c.limit, 0 < limit ∧ limit ≠ c.delay
  kill : ∀ kill ∈ c.kill, 0 < kill ∧ kill ≠ c.delay ∧ ∀ limit ∈ c.limit, kill ≠ limit

/-- The run of a job has ended when the first of them came, and as that one makes it end. -/
structure Decided (c : Contest) (since : Nat) (text : String) (job : Job) : Prop where
  ran : job.Ran since (since + c.first)
  runtime : ∀ now, job.runtime now = c.first
  answered : c.first = c.delay → job.Answered c.answer text
  timedOut : ∀ limit ∈ c.limit, c.first = limit → job.TimedOut limit text
  killed : ∀ kill ∈ c.kill, c.first = kill → job.Stopped text

/-- The wait for the answer, and for the limit. -/
def toWait (c : Contest) (since : Nat) (run : Job) : Wait := waitAt since run c.delay c.answer c.limit

/-- The answer or the limit comes first if no kill does. -/
theorem until_eq (since : Nat) (run : Job) (hkill : ∀ kill ∈ c.kill, (c.toWait since run).until_ < since + kill) :
    (c.toWait since run).until_ = since + c.first := by
  rw [toWait, until_waitAt] at hkill ⊢
  rw [first]
  cases hk : c.kill with
  | none =>
    simp only [Option.getD_none]
    omega
  | some kill =>
    have hlate := hkill kill hk
    simp only [Option.getD_some]
    omega

theorem decided_of_decides {since : Nat} {run : Job} (hapart : c.Apart)
    (hkill : ∀ kill ∈ c.kill, (c.toWait since run).until_ < since + kill) (hran : job.Ran since (c.toWait since run).until_)
    (h : Decides (c.toWait since run) text job) : c.Decided since text job := by
  have huntil := until_eq since run hkill
  rw [huntil] at hran
  have hcome : (c.toWait since run).answerAt ≤ (c.toWait since run).until_ ↔ c.delay ≤ c.first := by
    rw [huntil]
    exact Nat.add_le_add_iff_left
  unfold Decides at h
  refine ⟨hran,fun now => ?_,fun hfirst => ?_,fun limit hl hfirst => ?_,fun kill hk hfirst => ?_⟩
  · rw [hran.runtime, Nat.add_sub_cancel_left]
  · rwa [if_pos (hcome.mpr hfirst.ge)] at h
  · have hlate : ¬c.delay ≤ c.first := by
      have hne := (hapart.limit limit hl).2
      have hle : c.first ≤ c.delay := Nat.min_le_left _ _
      omega
    rw [if_neg fun hle => hlate (hcome.mp hle)] at h
    simpa [toWait, waitAt, Option.mem_def.mp hl] using h
  · have hlate := hkill kill hk
    rw [huntil] at hlate
    omega

/-- A kill that comes before the answer and the limit is the first. -/
theorem first_eq_kill {kill : Nat} (hkill : c.kill = some kill) {since : Nat} {run : Job}
    (hearly : since + kill ≤ (c.toWait since run).until_) : c.first = kill := by
  rw [toWait, until_waitAt] at hearly
  rw [first, hkill, Option.getD_some]
  omega

theorem decided_of_stopped {since kill : Nat} (hapart : c.Apart) (hkill : c.kill = some kill) (hfirst : c.first = kill)
    (hran : job.Ran since (since + kill)) (h : job.Stopped text) : c.Decided since text job := by
  obtain ⟨-,hne,hlimit⟩ := hapart.kill kill hkill
  refine ⟨hfirst ▸ hran,fun now => ?_,fun he => absurd (hfirst.symm.trans he) hne,
    fun limit hl he => absurd (hfirst.symm.trans he) (hlimit limit hl),fun _ _ _ => h⟩
  rw [hran.runtime, hfirst, Nat.add_sub_cancel_left]

end Contest

/-! ### The race -/

/-- How a run stands that a task began: its job runs until the first event comes, and has ended from then on. -/
structure Stands (c : Contest) (since id number : Nat) (t : Schedule σ) : Prop where
  job : ∃ job, t.manager.job? number = some job ∧
    (job.Running since ∧ t.now ≤ since + c.first ∨ (∃ text, c.Decided since text job) ∧ since + c.first ≤ t.now)
  /-- What the task replies is what the first event makes of the run. -/
  told : ∀ reply, t.reply? id = some reply →
    ∃ text job, reply = .ok text ∧ t.manager.job? number = some job ∧ c.Decided since text job
  /-- It has replied when time goes on. -/
  replied : since + c.first < t.now → (t.reply? id).isSome
  /-- It calls no tools unless the answer is the first, and then only when that has come. -/
  quiet : c.first ≠ c.delay ∨ t.now ≠ since + c.delay → Quiet t ((poll id).run t).2

/-- A task that has replied stays as it is. -/
theorem quiet_done {reply : Except AgentError String} (h : schedule.stage? id = some (.done reply)) :
    Quiet schedule ((poll id).run schedule).2 := by
  rw [run_poll]
  split
  · have hidle : ((advance id).run { schedule with ready := schedule.ready.erase id }).2.manager = schedule.manager := by
      simp only [advance, StateT.run_bind, StateT.run_get, pure_bind]
      rw [show (task? { schedule with ready := schedule.ready.erase id } id).map Task.stage = schedule.stage? id from rfl, h]
      rfl
    exact ⟨schedule.manager.jobs,hidle⟩
  · exact ⟨schedule.manager.jobs,rfl⟩

variable {c : Contest} {run : Job}

/-- While its run is under way. -/
theorem Racing.stands (h : Racing since id (c.toWait since run) [] [] schedule) (hkill : c.kill = none) :
    Stands c since id run.number schedule := by
  have huntil : (c.toWait since run).until_ = since + c.first := c.until_eq since run (by simp [hkill])
  obtain ⟨job,hj,hnumber,hrunning⟩ := h.running
  have hearly := huntil ▸ h.early
  have hfound : schedule.manager.job? run.number = some job := hnumber ▸ h.numbered.job?_number hj
  refine ⟨⟨job,hfound,.inl ⟨hrunning,hearly⟩⟩,fun reply hreply => ?_,fun hlate => ?_,fun hnot => ?_⟩
  · rw [reply?_eq_some, h.waits] at hreply
    cases hreply
  · exact absurd hlate (Nat.not_lt.mpr hearly)
  · rw [run_poll]
    split
    · rename_i hready
      let taken : Schedule σ := { schedule with ready := schedule.ready.erase id }
      have hnow : (c.toWait since run).until_ ≤ schedule.now := h.due (List.contains_iff_mem.mp hready)
      have hlate : ¬(c.toWait since run).answerAt ≤ taken.now := by
        have hle : c.first ≤ c.delay := Nat.min_le_left _ _
        change ¬since + c.delay ≤ schedule.now
        omega
      have hwaits : taken.stage? id = some (.waiting (c.toWait since run)) := h.waits
      have hnumbered : taken.manager.Numbered := h.numbered
      obtain ⟨_,_,_,_,hends⟩ := mem_endWait hnumbered hj hnumber.symm hrunning
      rw [if_neg hlate] at hends
      rw [run_advance_waiting hwaits]
      exact hends.2
    · exact ⟨schedule.manager.jobs,rfl⟩

/-- When it is over. -/
theorem Over.stands (h : Over since id (c.toWait since run) [] [] schedule) (hapart : c.Apart)
    (hkill : ∀ kill ∈ c.kill, (c.toWait since run).until_ < since + kill) : Stands c since id run.number schedule := by
  obtain ⟨text,hstage,hknown⟩ := h
  obtain ⟨hstop,job,hfound,hran,hdecides⟩ := hknown.concluded
  have hdecided := c.decided_of_decides hapart hkill hran hdecides
  rw [c.until_eq since run hkill] at hstop
  refine ⟨⟨job,hfound,.inr ⟨⟨text,hdecided⟩,hstop⟩⟩,fun reply hreply => ?_,fun _ => ?_,fun _ => quiet_done hstage⟩
  · rw [reply?_eq_some, hstage] at hreply
    cases hreply
    exact ⟨text,job,rfl,hfound,hdecided⟩
  · rw [reply?_eq_some.mpr hstage]
    rfl

/-- When the job was killed before. -/
theorem Slain.stands {kill : Nat} (h : Slain since (since + kill) conversation id (c.toWait since run) [] [] schedule)
    (hmoment : Told id [] [] schedule ∨ schedule.now = since + kill) (hapart : c.Apart) (hkill : c.kill = some kill)
    (hfirst : c.first = kill) : Stands c since id run.number schedule := by
  obtain ⟨hterminated,hconcluded,hruns,hwoken⟩ := h
  obtain ⟨hstop,job,hfound,hran,hstopped⟩ := hconcluded.concluded
  have hdecided := c.decided_of_stopped hapart hkill hfirst hran hstopped
  refine ⟨⟨job,hfound,.inr ⟨⟨_,hdecided⟩,hfirst ▸ hstop⟩⟩,fun reply hreply => ?_,fun hlate => ?_,fun _ => ?_⟩
  · rw [reply?_eq_some] at hreply
    rcases hwoken with ⟨hwaits,_⟩ | ⟨text,hdone⟩
    · rw [hwaits] at hreply
      cases hreply
    · rw [hdone] at hreply
      cases hreply
      obtain ⟨htold,_⟩ := hterminated.replied hruns hdone
      rw [reply?_eq_some, hdone] at htold
      cases htold
      exact ⟨_,job,rfl,hfound,hdecided⟩
  · rcases hmoment with ⟨text,hdone⟩ | hnow
    · rw [reply?_eq_some.mpr hdone]
      rfl
    · omega
  · obtain ⟨task,htask,hjob⟩ := Option.map_eq_some_iff.mp hruns
    obtain rfl : task.id = id := by simpa using List.find?_some htask
    rw [run_poll]
    split
    · let taken : Schedule σ := { schedule with ready := schedule.ready.erase task.id }
      have htaken : Known (Terminated run.number (since + kill) conversation) [] schedule.ready taken :=
        (carried_known (kept_terminated _ _ _)).queue hterminated fun _ hid => List.mem_append_left _ hid
      exact Known.quiet htaken (List.mem_of_find?_eq_some htask) hjob
    · exact ⟨schedule.manager.jobs,rfl⟩

omit [Storage σ] in
theorem Contest.Apart.pos (h : c.Apart) : 0 < min c.delay (c.limit.getD c.delay) := by
  refine Nat.lt_min.mpr ⟨h.delay,?_⟩
  cases hl : c.limit with
  | none => exact h.delay
  | some limit => exact (h.limit limit hl).1

/-- A kill that does not come before the answer and the limit comes after one of them. -/
theorem Contest.Apart.late (h : c.Apart) {kill : Nat} (hkill : c.kill = some kill)
    (hlate : (c.toWait since run).until_ ≤ since + kill) : (c.toWait since run).until_ < since + kill := by
  obtain ⟨-,hdelay,hlimit⟩ := h.kill kill hkill
  rw [toWait, until_waitAt] at hlate ⊢
  cases hl : c.limit with
  | none =>
    simp only [hl, Option.getD_none] at hlate ⊢
    omega
  | some limit =>
    have hne := hlimit limit hl
    simp only [hl, Option.getD_some] at hlate ⊢
    omega

/-- A run in the background. It may be killed once, and whatever happens then. -/
theorem Starts.stands (h : Starts id job input delay answer schedule) (hstanding : Standing [] [] schedule)
    (hexact : schedule.timers.Exact) (hlively : Lively [] schedule) (early : List (Happening σ))
    (strike : Option (List (Happening σ))) :
    let begun := ((poll id).run schedule).2
    let c : Contest := ⟨answer,delay,schedule.manager.limit? job.definition,
      strike.map fun _ => (begun.play early).now - schedule.now⟩
    let happenings := early ++ strike.elim [] (.kill job.pid :: ·)
    c.Apart → (∀ happening ∈ early, happening.Spares job.pid) → begun.Punctual happenings →
      Stands c schedule.now id job.number (begun.play happenings) := by
  intro begun c happenings hapart hspares hpunctual
  obtain ⟨run,hnumber,hraces⟩ := h.races hstanding hexact hlively hapart.pos
  change Racing schedule.now id (c.toWait schedule.now run) [] [] begun at hraces
  have hmakes : ∀ happening ∈ early, happening.Makes (Sparing schedule.now run.number) := by
    rw [hnumber]
    exact fun happening hh => (hspares happening hh).makes schedule.now
  rw [← hnumber]
  cases strike with
  | none =>
    rw [show happenings = early from List.append_nil early] at hpunctual ⊢
    rcases (sustained_race schedule.now id _).play (.inl hraces) hmakes hpunctual with hraces | hover
    · exact hraces.stands rfl
    · exact hover.stands hapart (by simp [c])
  | some late =>
    let mid := begun.play early
    obtain ⟨hearly,hlate⟩ := punctual_append.mp hpunctual
    have hplay : begun.play happenings = ((Schedule.kill job.pid).run mid).2.play late := List.foldl_append ..
    have hpos : 0 < mid.now - schedule.now := (hapart.kill _ rfl).1
    have hmoment : mid.now = schedule.now + (mid.now - schedule.now) := by omega
    rw [hplay]
    rcases (sustained_race schedule.now id _).play (.inl hraces) hmakes hearly with hraces | hover
    · -- The kill comes before anything else has ended the run.
      have hfirst : c.first = mid.now - schedule.now := c.first_eq_kill rfl (hmoment ▸ hraces.early)
      have hpid : job.pid = s!"agent_{run.number}" := congrArg (fun number => s!"agent_{number}") hnumber.symm
      obtain ⟨conversation,hslain⟩ := hraces.killed hpid
      have hlater := (carried_slain schedule.now mid.now conversation id (c.toWait schedule.now run)).play hslain late
      have htold := (sustained_slain schedule.now mid.now conversation id (c.toWait schedule.now run)).play (.inr ⟨hslain,rfl⟩)
        (fun happening _ => Happening.makes_outside (by cases happening <;> trivial)) hlate.2
      rw [hmoment] at hlater
      exact hlater.stands (htold.imp_right fun h => h.2.trans hmoment) hapart rfl hfirst
    · have hover' := (carried_over schedule.now id (c.toWait schedule.now run)).play hover (.kill job.pid :: late)
      obtain ⟨_,_,hknown⟩ := hover
      refine Over.stands hover' hapart fun kill hk => ?_
      obtain rfl : mid.now - schedule.now = kill := Option.some.inj hk
      exact hapart.late rfl (hmoment ▸ hknown.concluded.1)

/-! ### In the foreground -/

/-- While the foreground runs a job, other tasks leave it alone. -/
theorem idling_underWay {known : System σ → Prop} (hknown : System.Kept known) (run : Job) (since : Nat) :
    Idling fun pending (schedule : Schedule σ) =>
      Known known [run] pending schedule ∧ UnderWay since run.number schedule.manager.jobs where
  queue hs hperm := ⟨(carried_known hknown).queue hs.1 fun _ => hperm.mem_iff.mp,hs.2⟩
  advance id := fun schedule hs => by
    have hothers : ∀ wait, schedule.stage? id = some (.waiting wait) → wait.job.number ≠ run.number :=
      fun wait hwaits => (hs.1.ne_of_waits hwaits run List.mem_cons_self).symm
    exact ⟨(carried_known hknown).advance id schedule hs.1,(hs.2.advance hs.1.numbered hothers).table⟩
  wake hs _ := ⟨(carried_known hknown).wake _ _ hs.1,hs.2⟩
  clock hs _ := ⟨(carried_known hknown).clock _ hs.1,hs.2⟩
  credit credit hs := ⟨(carried_known hknown).credit credit hs.1,hs.2⟩

/-- A schedule when the foreground has begun a run and is about to ask its model; other tasks may have had a turn. -/
def prepared (number : Nat) (input : String) (s : Schedule σ) : Schedule σ :=
  let begun := ((start number input).run s).2
  if begun.manager.poisoned then begun else (beforeWait.run begun).2

/-- A schedule when the foreground has waited for a moment. -/
def awaited (moment : Nat) (s : Schedule σ) : Schedule σ := ((pause (some moment) fun _ => false).run s).2

/-- The foreground is about to run a job, whose model takes some time for its answer. -/
structure StartsHere (job : Job) (input : String) (delay : Nat) (answer : Answer) (s : Schedule σ) : Prop
    extends Startable job s where
  asks : Asks (job.begin s.now input) delay answer (prepared job.number input s)

/-- How a run of the foreground ends. -/
structure EndsHere (c : Contest) (job : Job) (input : String) (s : Schedule σ) : Prop where
  now : ((Schedule.run job.number input).run s).2.now = s.now + c.first
  told : ∃ text, ((Schedule.run job.number input).run s).1 = .ok text ∧ ∀ after, ∃ later,
    (((Schedule.run job.number input).run s).2.play after).manager.job? job.number = some later ∧ c.Decided s.now text later
  /-- It calls no tools at its end unless the answer is the first. -/
  quiet : c.first ≠ c.delay →
    Quiet (awaited (s.now + c.first) (asked (job.begin s.now input) (prepared job.number input s)))
      ((Schedule.run job.number input).run s).2

/-- The foreground has the run of a job under way. -/
structure Held (run : Job) (since : Nat) (limit : Option Nat) (schedule : Schedule σ) : Prop where
  known : Known (fun s => s.manager.defaultTimeout = limit) [run] [] schedule
  running : UnderWay since run.number schedule.manager.jobs
  lively : Lively [] schedule

theorem Held.idling (h : Held run since limit schedule) {act : Scheduling σ Unit} {now : Nat}
    (hact : ∀ {inv : List Nat → Schedule σ → Prop}, Idling inv → Leads (inv []) act fun _ => inv [])
    (hnow : Leads (fun s => Lively [] s ∧ s.now = schedule.now) act fun _ s => Lively [] s ∧ s.now = now) :
    Held run since limit (act.run schedule).2 ∧ (act.run schedule).2.now = now := by
  obtain ⟨hlively,hlater⟩ := hnow schedule ⟨h.lively,rfl⟩
  obtain ⟨hknown,hrunning⟩ := hact (idling_underWay (kept_defaultTimeout limit) run since) schedule ⟨h.known,h.running⟩
  exact ⟨⟨hknown,hrunning,hlively⟩,hlater⟩

/-- While other tasks have a turn no time passes. -/
theorem Held.beforeWait (h : Held run since limit schedule) : Held run since limit (Schedule.beforeWait.run schedule).2 ∧
    (Schedule.beforeWait.run schedule).2.now = schedule.now := h.idling Idling.beforeWait leads_beforeWait

/-- While the foreground waits time goes on to the moment. -/
theorem Held.awaited (h : Held run since limit schedule) (hnow : schedule.now ≤ moment) :
    Held run since limit (awaited moment schedule) ∧ (Schedule.awaited moment schedule).now = moment :=
  h.idling (fun hidling => hidling.pause _ _) (leads_pause.mono (fun _ hs => ⟨hs.1,hs.2 ▸ hnow⟩) fun _ _ hs => hs)

theorem Held.afterWait (h : Held run since limit schedule) : Held run since limit (Schedule.afterWait.run schedule).2 ∧
    (Schedule.afterWait.run schedule).2.now = schedule.now :=
  h.idling Idling.afterWait (.update fun _ hs => ⟨⟨hs.1.ids,hs.1.nodup,hs.1.known⟩,hs.2⟩)

theorem Held.asked (h : Held run since limit schedule) (hasks : Asks run delay answer schedule) (hwanted : run.cancelled = false) :
    Held run since limit (asked run schedule) := by
  have hknown := (carried_known (kept_defaultTimeout limit)).work run schedule h.known
  rw [run_work_asked hasks hwanted] at hknown
  exact ⟨hknown,h.running,h.lively.ids,h.lively.nodup,h.lively.known⟩

omit [Storage σ] in
theorem Held.limit? (h : Held run since limit schedule) (definition : Definition) :
    schedule.manager.limit? definition = (definition.timeout.map fun seconds => seconds.toNat * 1000).or limit := by
  obtain ⟨s,hs,hlimit⟩ := h.known
  rw [Manager.limit?, ← hs.mirrors.manager, hlimit]

/-- Where the wait ends the run does, and what it has come to it tells from then on. -/
theorem Held.endWait {wait : Wait} {reply : String} {last : Schedule σ} (h : Held run since limit schedule)
    (hasker : wait.job = run) (hnow : schedule.now = wait.until_)
    (hend : (Schedule.endWait wait).run schedule = (reply,last)) :
    last.now = wait.until_ ∧
      (∀ after, ∃ job, (last.play after).manager.job? run.number = some job ∧ job.Ran since wait.until_ ∧ Decides wait reply job) ∧
      (¬wait.answerAt ≤ wait.until_ → Quiet schedule last) := by
  obtain rfl := hasker
  have hnumbered := h.known.numbered
  obtain ⟨s,hs,-⟩ := h.known
  obtain ⟨job,hj,hnumber,hrunning⟩ := h.running
  have hknown := carried_mirrored.endWait wait schedule ⟨s,hs,trivial⟩
  have hstill : last.now = schedule.now := by
    have hinstant := (manages_endWait wait).instant schedule.now schedule rfl
    rwa [hend] at hinstant
  obtain ⟨later,hl,hlater,hran,hended⟩ := mem_endWait hnumbered hj hnumber.symm hrunning
  rw [hend] at hknown hl hended
  rw [hnow] at hran hended hstill
  have hdecides : Decides wait reply later := by
    unfold Decides
    split at hended
    · rwa [if_pos ‹_›]
    · rw [if_neg ‹_›]
      exact hended.1
  refine ⟨hstill,fun after => ?_,fun hlate => ?_⟩
  · have hconcluded := (carried_known (kept_concluded fun hmoves hsound hp => Decides.moves hp hmoves hsound)).play
      (hknown.conclude hstill.ge hl hran hdecides) after
    obtain ⟨-,final,hfinal⟩ := hconcluded.concluded
    rw [hlater, hnumber] at hfinal
    exact ⟨final,hfinal⟩
  · rw [if_neg hlate] at hended
    exact hended.2

theorem StartsHere.held (h : StartsHere job input delay answer schedule) (hstanding : Standing [] [] schedule)
    (hlively : Lively [] schedule) :
    ∃ memory begun, (start job.number input).run schedule = (.ok { job.begin schedule.now input with memory },begun) ∧
      begun.now = schedule.now ∧ begun.timers = schedule.timers ∧
      Held { job.begin schedule.now input with memory } schedule.now schedule.manager.defaultTimeout begun := by
  have hj : job ∈ schedule.manager.jobs := (Manager.mem_of_job? h.found).1
  obtain ⟨memory,manager,hstart,-,hmem,-⟩ := run_start_pending hstanding.1.numbered hj h.pending input
  obtain ⟨s,hs,-⟩ := hstanding.1
  have hknown := (carried_known (kept_defaultTimeout schedule.manager.defaultTimeout)).start job.number input schedule
    ⟨s,hs,congrArg Manager.defaultTimeout hs.mirrors.manager⟩
  rw [hstart] at hknown
  exact ⟨memory,{ schedule with manager },hstart,rfl,rfl,hknown,⟨_,hmem,rfl,h.running hstanding.1 memory⟩,
    hlively.ids,hlively.nodup,hlively.known⟩

/-- The steps of a run in the foreground that waits. -/
theorem run_run {begun turned waiting last : Schedule σ} {text : String}
    (hstart : (start number input).run schedule = (.ok run,begun)) (husable : begun.manager.poisoned = false)
    (hturned : (beforeWait.run begun).2 = turned) (hwork : (work run).run turned = (.inr wait,waiting))
    (hlate : waiting.now < wait.until_)
    (hend : (endWait wait).run ((afterWait.run (awaited wait.until_ waiting)).2) = (text,last)) :
    (Schedule.run number input).run schedule = (.ok text,last) := by
  have hturn : beforeWait.run begun = ((),turned) := Prod.ext rfl hturned
  have hpause : (pause (some wait.until_) fun _ => false).run waiting = ((),awaited wait.until_ waiting) := Prod.ext rfl rfl
  have hcredit : afterWait.run (awaited wait.until_ waiting) = ((),(afterWait.run (awaited wait.until_ waiting)).2) := rfl
  have hleads : Leads (fun now => now = schedule) (Schedule.run number input)
      fun reply later => reply = .ok text ∧ later = last := by
    refine .run_bind hstart (.get_bind ?_)
    rintro _ rfl
    rw [husable, if_pos (show (!false) = true from rfl)]
    refine .run_bind hturn (.run_bind hwork (.get_bind ?_))
    rintro _ rfl
    rw [if_pos hlate]
    exact .run_bind hpause (.run_bind hcredit (.run_bind hend (.pure _ fun _ he => ⟨rfl,he⟩)))
  obtain ⟨hreply,hlater⟩ := hleads schedule rfl
  exact Prod.ext hreply hlater

/-- A run of the foreground ends when its wait does. -/
theorem StartsHere.ends (h : StartsHere job input delay answer schedule) (hstanding : Standing [] [] schedule)
    (hexact : schedule.timers.Exact) (hlively : Lively [] schedule) :
    let c : Contest := ⟨answer,delay,schedule.manager.limit? job.definition,none⟩
    c.Apart → EndsHere c job input schedule := by
  intro c hapart
  obtain ⟨memory,begun,hstart,hnow,htimers,hbegun⟩ := h.held hstanding hlively
  let run : Job := { job.begin schedule.now input with memory }
  let turned : Schedule σ := (beforeWait.run begun).2
  have husable : begun.manager.poisoned = false := by
    by_contra hpoisoned
    have hasks := h.asks.1
    rw [prepared, hstart, if_pos (by simpa using hpoisoned)] at hasks
    exact hpoisoned hasks
  have hprepared : prepared job.number input schedule = turned := by
    rw [prepared, hstart, if_neg (by simp [husable])]
  obtain ⟨hturned,hsame⟩ := hbegun.beforeWait
  have hasks : Asks run delay answer turned := hprepared ▸ h.asks
  have htimed : turned.timers = schedule.timers := (timers_beforeWait begun).trans htimers
  have hwork : (work run).run turned = (.inr (c.toWait schedule.now run),asked run turned) := by
    rw [run_work_asked hasks h.wanted, htimed, ofDelay_exact hexact, hturned.limit?, hsame.trans hnow]
    rfl
  have huntil : (c.toWait schedule.now run).until_ = schedule.now + c.first := c.until_eq _ _ (by simp [c])
  have hlate : (asked run turned).now < (c.toWait schedule.now run).until_ := by
    have hpos := hapart.pos
    rw [Contest.toWait, until_waitAt, show (asked run turned).now = schedule.now from hsame.trans hnow]
    omega
  obtain ⟨hwaited,hmoment⟩ := (hturned.asked hasks h.wanted).awaited hlate.le
  obtain ⟨hwaited,hcredited⟩ := hwaited.afterWait
  obtain ⟨⟨text,last⟩,hend⟩ : ∃ ended, (endWait (c.toWait schedule.now run)).run
      (afterWait.run (awaited (c.toWait schedule.now run).until_ (asked run turned))).2 = ended := ⟨_,rfl⟩
  have hrun : (Schedule.run job.number input).run schedule = (.ok text,last) :=
    run_run hstart husable rfl hwork hlate hend
  obtain ⟨hlast,htold,hquiet⟩ := hwaited.endWait rfl (hcredited.trans hmoment) hend
  refine ⟨by rw [hrun, ← huntil]; exact hlast,⟨text,by rw [hrun],fun after => ?_⟩,fun hnot => ?_⟩
  · obtain ⟨final,hfound,hran,hdecides⟩ := htold after
    rw [hrun]
    exact ⟨final,hfound,c.decided_of_decides hapart (by simp [c]) hran hdecides⟩
  · rw [hrun, hprepared, ← huntil]
    refine hquiet ?_
    have hle : c.first ≤ c.delay := Nat.min_le_left _ _
    rw [huntil]
    change ¬schedule.now + c.delay ≤ schedule.now + c.first
    omega

/-! ### The earliest event -/

/--
The earliest event decides a run. Take a job that is run at some moment, and whose model answers after some time; its time
limit is the one of its agent, or else the one for all agents, if there is any.

Whatever has happened before, and whatever happens while the run is under way, as long as the job is not suspended and is
killed once at most: if these events come apart, the job runs until the first of them comes, and has ended from then on, after
that time and no other. What its task replies is what the first event makes of it: the answer or its failure, the end of the
time, or that it was cancelled. It replies when time goes on, which it does; and no tools are called before the answer has
come, or if it is not the first.

A run of the foreground ends likewise. All this is so for times of any length, on timers that fire when they are due.
-/
theorem earliest_event_decides (shell : Shell σ) (model : Model) (limit : Option Nat) (timers : Timers) (hexact : timers.Exact)
    (before : List (Happening σ)) (job : Job) (input : String) (delay : Nat) (answer : Answer) :
    let manager := Manager.new shell model limit
    let s := (new manager timers).play before
    let contest := Contest.mk answer delay (manager.limit? job.definition)
    (∀ id (early : List (Happening σ)) (strike : Option (List (Happening σ))), Starts id job input delay answer s →
      let begun := ((poll id).run s).2
      let c := contest (strike.map fun _ => (begun.play early).now - s.now)
      let happenings := early ++ strike.elim [] (.kill job.pid :: ·)
      c.Apart → (∀ happening ∈ early, happening.Spares job.pid) → begun.Punctual happenings →
        let t := begun.play happenings
        Stands c s.now id job.number t ∧
          ∀ milliseconds, 0 < milliseconds → ((sleep milliseconds).run t).2.now = t.now + milliseconds) ∧
      (StartsHere job input delay answer s → (contest none).Apart → EndsHere (contest none) job input s) := by
  intro manager s contest
  have hstanding : Standing [] [] s := carried_standing.play
    ⟨known_new shell model limit timers trivial,by simp [Placed, stage?, task?, new]⟩ before
  have htimers (happenings : List (Happening σ)) : ((new manager timers).play happenings).timers = timers :=
    (carried_timers timers).play (by rfl) happenings
  have htimed : s.timers.Exact := (htimers before).symm ▸ hexact
  have hlively (happenings : List (Happening σ)) : Lively [] ((new manager timers).play happenings) := by
    refine sustained_lively.play_untimely (fun _ _ hs => ⟨hs.ids,hs.nodup,hs.known⟩) ?_ fun happening _ => ?_
    · exact ⟨rfl,List.nodup_nil,by simp [new]⟩
    · cases happening <;> trivial
  have hlimit : manager.limit? job.definition = s.manager.limit? job.definition := by
    obtain ⟨mirror,hs,hsame⟩ := (carried_known (kept_defaultTimeout limit)).play (known_new shell model limit timers rfl) before
    rw [Manager.limit?, Manager.limit?, ← hs.mirrors.manager, hsame]
    rfl
  refine ⟨fun id early strike h => ?_,fun h => ?_⟩
  · intro begun c happenings hapart hspares hpunctual t
    have hstands := h.stands hstanding htimed (hlively before) early strike
    rw [← hlimit] at hstands
    refine ⟨hstands hapart hspares hpunctual,fun milliseconds hpos => ?_⟩
    have hplay : t = (new manager timers).play (before ++ .poll id :: happenings) := by
      simp only [t, begun, s, play, List.foldl_append, List.foldl_cons]
      rfl
    exact leads_sleep hexact hpos t ⟨⟨hplay ▸ hlively _,rfl⟩,hplay ▸ htimers _⟩
  · intro hapart
    have hends := h.ends hstanding htimed (hlively before)
    rw [← hlimit] at hends
    exact hends hapart

/-- An answer after 100 milliseconds, a limit of 200 and a kill after 50; without the kill the answer comes first. -/
theorem kill_before_answer :
    let shell : Shell Provider := ⟨⟨⟨.plain (.tree .empty),"/",0⟩,[],[],true,"",[]⟩,[]⟩
    let model : Model := fun _ _ _ => ⟨some 100,.text "done"⟩
    let timers : Timers := fun milliseconds => milliseconds
    let s := (new (Manager.new shell model (some 200)) timers).play [.create .standard true,.spawn 1 "go on"]
    let job := Job.new 1 .standard true
    let begun := ((poll 0).run s).2
    let contest := Contest.mk (.text "done") 100 ((Manager.new shell model (some 200)).limit? job.definition)
    let killed := contest (some ((begun.play [.sleep 50]).now - s.now))
    timers.Exact ∧ Starts 0 job "go on" 100 (.text "done") s ∧ killed = ⟨.text "done",100,some 200,some 50⟩ ∧
      Stands killed s.now 0 1 (begun.play [.sleep 50,.kill job.pid,.sleep 300]) ∧
      StartsHere job "go on" 100 (.text "done") s ∧ EndsHere (contest none) job "go on" s := by
  intro shell model timers s job begun contest killed
  have hexact : timers.Exact := fun _ => rfl
  have hjob : s.manager.job? 1 = some job := rfl
  have hstartable : Startable job s := ⟨hjob,rfl,rfl⟩
  have hqueued : s.stage? 0 = some (.queued 1 "go on") := rfl
  have hready : 0 ∈ s.ready := by decide +kernel
  have hstarts : Starts 0 job "go on" 100 (.text "done") s := ⟨hstartable,hqueued,hready,rfl,rfl⟩
  have hhere : StartsHere job "go on" 100 (.text "done") s := ⟨hstartable,by decide +kernel,rfl⟩
  have hkill : (begun.play [.sleep 50]).now - s.now = 50 := by decide +kernel
  have hkilled : killed = ⟨.text "done",100,some 200,some 50⟩ := congrArg (fun kill => contest (some kill)) hkill
  have hspares : ∀ happening ∈ [Happening.sleep (σ := Provider) 50], happening.Spares job.pid := by simp [Happening.Spares]
  have hpunctual : begun.Punctual [.sleep 50,.kill job.pid,.sleep 300] := ⟨trivial,trivial,trivial,trivial⟩
  have hthree : killed.Apart := hkilled ▸ ⟨by decide,by decide,by decide⟩
  have htwo : (contest none).Apart := ⟨by decide,by decide,by decide⟩
  obtain ⟨hbackground,hforeground⟩ := earliest_event_decides shell model (some 200) timers hexact
    [.create .standard true,.spawn 1 "go on"] job "go on" 100 (.text "done")
  exact ⟨hexact,hstarts,hkilled,(hbackground 0 [.sleep 50] (some [.sleep 300]) hstarts hthree hspares hpunctual).1,hhere,
    hforeground hhere htwo⟩

end Schedule
end VirtualShell.Agent
