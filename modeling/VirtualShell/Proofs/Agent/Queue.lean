import VirtualShell.Proofs.Agent.Happenings

/-!
Where the tasks of a schedule are: who waits sleeps or can go on, and who was woken goes on next. Runs change the stages
of tasks only when a task goes on.
-/
namespace VirtualShell.Agent.Schedule
variable {σ α β : Type} {schedule later : Schedule σ} {id other : Nat} {stage : Stage} {pending : List Nat}

/-! ### Stages -/

/-- How far a task has come. -/
def stage? (schedule : Schedule σ) (id : Nat) : Option Stage := (schedule.task? id).map Task.stage

theorem wait?_eq_some {wait : Wait} : schedule.wait? id = some wait ↔ schedule.stage? id = some (.waiting wait) := by
  rw [wait?, ← stage?]
  split
  · rename_i hstage
    simp [hstage]
  · rename_i hstage
    simpa using hstage wait

theorem reply?_eq_some {reply : Except AgentError String} :
    schedule.reply? id = some reply ↔ schedule.stage? id = some (.done reply) := by
  rw [reply?, ← stage?]
  split
  · rename_i hstage
    simp [hstage]
  · rename_i hstage
    simpa using hstage reply

theorem stage?_congr (h : later.tasks = schedule.tasks) : later.stage? = schedule.stage? := by
  funext id
  simp only [stage?, task?, h]

private theorem find?_withStage (tasks : List Task) (other : Nat) :
    (withStage id stage tasks).find? (fun task => task.id == other) =
      (tasks.find? fun task => task.id == other).map fun task => if task.id == id then { task with stage } else task := by
  rw [withStage, List.find?_map]
  congr 2
  funext task
  simp only [Function.comp_apply]
  split <;> rfl

/-- Only the task that comes to another stage is at another one then. -/
theorem stage?_withStage (h : later.tasks = withStage id stage schedule.tasks) (other : Nat) :
    later.stage? other = (schedule.stage? other).map fun old => if other = id then stage else old := by
  simp only [stage?, task?, h, find?_withStage, Option.map_map]
  cases hfound : schedule.tasks.find? fun task => task.id == other with
  | none => rfl
  | some task =>
    obtain rfl : task.id = other := by simpa using List.find?_some hfound
    by_cases he : task.id = id <;> simp [he]

private theorem job_withStage (h : later.tasks = withStage id stage schedule.tasks) (other : Nat) :
    (later.task? other).map Task.job = (schedule.task? other).map Task.job := by
  simp only [task?, h, find?_withStage, Option.map_map]
  congr 1
  funext task
  simp only [Function.comp_apply]
  split <;> rfl

theorem stage?_concat {number : Nat} {input : String}
    (h : later.tasks = schedule.tasks ++ [⟨id,number,.queued number input⟩]) (other : Nat) :
    later.stage? other = (schedule.stage? other).or (if id = other then some (.queued number input) else none) := by
  simp only [stage?, task?, h, List.find?_append, List.find?_singleton]
  cases schedule.tasks.find? fun task => task.id == other with
  | some task => rfl
  | none => by_cases he : id = other <;> simp [he]

/-- A task of a mirrored schedule is found by its number. -/
theorem Settled.task? {front : List Nat} {s : System σ} (h : Settled front schedule s) {task : Task}
    (ht : task ∈ schedule.tasks) : schedule.task? task.id = some task := by
  have hnodup : (schedule.tasks.map Task.id).Nodup := h.ids ▸ List.nodup_range
  cases hfound : schedule.task? task.id with
  | none => simpa using List.find?_eq_none.mp hfound task ht
  | some other =>
    have hid : other.id = task.id := by simpa using List.find?_some hfound
    rw [List.inj_on_of_nodup_map hnodup (List.mem_of_find?_eq_some hfound) ht hid]

/-! ### One task going on -/

/-- What a schedule is when one of its tasks has gone on. -/
inductive Advanced (id : Nat) (schedule : Schedule σ) : Schedule σ → Prop
  | idle (hnone : ∀ wait, schedule.stage? id ≠ some (.waiting wait)) : Advanced id schedule schedule
  | done {later : Schedule σ} (reply : Except AgentError String)
      (hbefore : (∃ number input, schedule.stage? id = some (.queued number input)) ∨ ∃ text, reply = .ok text)
      (hnot : ∀ reply, schedule.stage? id ≠ some (.done reply))
      (htasks : later.tasks = withStage id (.done reply) schedule.tasks) (hready : later.ready = schedule.ready)
      (hsleeping : later.sleeping = schedule.sleeping) (htimers : later.timers = schedule.timers) : Advanced id schedule later
  | asleep {later : Schedule σ} {number : Nat} {input : String} (wait : Wait)
      (hbefore : schedule.stage? id = some (.queued number input))
      (htasks : later.tasks = withStage id (.waiting wait) schedule.tasks) (hready : later.ready = schedule.ready)
      (hsleeping : later.sleeping = schedule.sleeping ++ [id]) (htimers : later.timers = schedule.timers) :
      Advanced id schedule later

/-- A task that has waited has its reply when it has gone on. -/
theorem Advanced.reply {wait : Wait} (h : Advanced id schedule later) (hwait : schedule.stage? id = some (.waiting wait)) :
    ∃ text, later.stage? id = some (.done (.ok text)) := by
  cases h with
  | idle hnone => exact absurd hwait (hnone wait)
  | done reply hbefore _ htasks =>
    rcases hbefore with ⟨number,input,hqueued⟩ | ⟨text,rfl⟩
    · rw [hwait] at hqueued
      cases hqueued
    · exact ⟨text,by simp [stage?_withStage htasks, hwait]⟩
  | asleep _ hbefore =>
    rw [hwait] at hbefore
    cases hbefore

/-- What has a reply keeps it. -/
theorem Advanced.stays {reply : Except AgentError String} (h : Advanced other schedule later)
    (hreply : schedule.stage? id = some (.done reply)) : later.stage? id = some (.done reply) := by
  cases h with
  | idle => exact hreply
  | done _ _ hnot htasks =>
    have hne : id ≠ other := by
      rintro rfl
      exact hnot reply hreply
    simp [stage?_withStage htasks, hreply, hne]
  | asleep _ hbefore htasks =>
    have hne : id ≠ other := by
      rintro rfl
      rw [hreply] at hbefore
      cases hbefore
    simp [stage?_withStage htasks, hreply, hne]

/-- The other tasks stay at their stages. -/
theorem Advanced.of_ne (h : Advanced other schedule later) (hne : id ≠ other) : later.stage? id = schedule.stage? id := by
  cases h with
  | idle => rfl
  | done _ _ _ htasks => simp [stage?_withStage htasks, hne]
  | asleep _ _ htasks => simp [stage?_withStage htasks, hne]

/-- No task comes to run another job. -/
theorem Advanced.job (h : Advanced id schedule later) (other : Nat) :
    (later.task? other).map Task.job = (schedule.task? other).map Task.job := by
  cases h with
  | idle => rfl
  | done _ _ _ htasks => exact job_withStage htasks other
  | asleep _ _ htasks => exact job_withStage htasks other

theorem Advanced.ready (h : Advanced id schedule later) : later.ready = schedule.ready := by
  cases h with
  | idle => rfl
  | done _ _ _ _ hready => exact hready
  | asleep _ _ _ hready => exact hready

theorem Advanced.timers (h : Advanced id schedule later) : later.timers = schedule.timers := by
  cases h with
  | idle => rfl
  | done _ _ _ _ _ _ htimers => exact htimers
  | asleep _ _ _ _ _ htimers => exact htimers

/-- Who sleeps sleeps on. -/
theorem Advanced.sleeping (h : Advanced id schedule later) (ho : other ∈ schedule.sleeping) : other ∈ later.sleeping := by
  cases h with
  | idle => exact ho
  | done _ _ _ _ _ hsleeping => rwa [hsleeping]
  | asleep _ _ _ _ hsleeping =>
    rw [hsleeping]
    exact List.mem_append_left _ ho

/-- A task that waits after it has gone on sleeps. -/
theorem Advanced.sleeping_self {wait : Wait} (h : Advanced id schedule later)
    (hwait : later.stage? id = some (.waiting wait)) : id ∈ later.sleeping := by
  cases h with
  | idle hnone => exact absurd hwait (hnone wait)
  | done _ _ _ htasks => simp [stage?_withStage htasks] at hwait
  | asleep _ _ _ _ hsleeping =>
    rw [hsleeping]
    exact List.mem_append_right _ (List.mem_singleton_self id)

/-- A schedule with another manager. -/
def Managed (schedule later : Schedule σ) : Prop := ∃ manager, later = { schedule with manager }

/-- Whatever an action does is done to the manager. -/
def Manages (act : Scheduling σ α) : Prop := ∀ schedule, Leads (Managed schedule) act fun _ => Managed schedule

theorem Manages.pure (x : α) : Manages (σ := σ) (Pure.pure x) := fun _ => .pure x fun _ h => h

theorem Manages.bind {act : Scheduling σ α} {next : α → Scheduling σ β} (h : Manages act) (hnext : ∀ x, Manages (next x)) :
    Manages (act >>= next) := fun schedule => (h schedule).bind fun x => hnext x schedule

theorem Manages.get_bind {next : Schedule σ → Scheduling σ α} (h : ∀ now, Manages (next now)) :
    Manages (MonadState.get >>= next) := fun schedule => .get_bind fun now hn => (h now schedule).from_ hn

theorem manages_managing (act : Nat → Managing σ α) : Manages (managing act) := by
  rintro schedule _ ⟨manager,rfl⟩
  exact ⟨_,rfl⟩

variable [Storage σ]

theorem manages_start (number : Nat) (input : String) : Manages (σ := σ) (start number input) := by
  refine .get_bind fun now => ?_
  cases now.manager.job? number with
  | none => exact .pure _
  | some job => exact manages_managing _

theorem manages_work (job : Job) : Manages (σ := σ) (work job) := by
  refine (manages_managing _).bind fun progress => ?_
  cases progress with
  | ended outcome => exact (manages_managing _).bind fun reply => .pure _
  | waiting => exact .get_bind fun now => .pure _

theorem manages_endWait (wait : Wait) : Manages (σ := σ) (endWait wait) :=
  .get_bind fun _ => (manages_managing _).bind fun _ => manages_managing _

omit [Storage σ] in
private theorem leads_done (reply : Except AgentError String)
    (hbefore : (∃ number input, schedule.stage? id = some (.queued number input)) ∨ ∃ text, reply = .ok text)
    (hnot : ∀ reply, schedule.stage? id ≠ some (.done reply)) :
    Leads (Managed schedule) (setStage id (.done reply)) fun _ => Advanced id schedule := by
  refine .update ?_
  rintro _ ⟨manager,rfl⟩
  exact .done reply hbefore hnot rfl rfl rfl rfl

private theorem leads_over (wait : Wait) (hnot : ∀ reply, schedule.stage? id ≠ some (.done reply)) :
    Leads (Managed schedule) (do setStage id (.done (.ok (← endWait wait)))) fun _ => Advanced id schedule :=
  (manages_endWait wait schedule).bind fun reply => leads_done _ (.inr ⟨reply,rfl⟩) hnot

theorem leads_advance (id : Nat) (schedule : Schedule σ) :
    Leads (fun now => now = schedule) (advance id) fun _ => Advanced id schedule := by
  have hself : ∀ now, now = schedule → Managed schedule now := by
    rintro _ rfl
    exact ⟨_,rfl⟩
  refine .get_bind ?_
  rintro now rfl
  have hidle (hnone : ∀ wait, now.stage? id ≠ some (.waiting wait)) :
      Leads (fun later => later = now) (Pure.pure ()) fun _ => Advanced id now := by
    refine .pure () ?_
    rintro _ rfl
    exact .idle hnone
  rw [show (now.task? id).map Task.stage = now.stage? id from rfl]
  cases hstage : now.stage? id with
  | none => exact hidle (by simp [hstage])
  | some stage =>
    cases stage with
    | done reply => exact hidle (by simp [hstage])
    | waiting wait => exact (leads_over wait (by simp [hstage])).mono hself fun _ _ h => h
    | queued number input =>
      have hnot : ∀ reply, now.stage? id ≠ some (.done reply) := by simp [hstage]
      refine .mono ((manages_start number input now).bind fun result => ?_) hself fun _ _ h => h
      cases result with
      | error e => exact leads_done _ (.inl ⟨number,input,hstage⟩) hnot
      | ok job =>
        refine (manages_work job now).bind fun progress => ?_
        cases progress with
        | inl reply => exact leads_done _ (.inl ⟨number,input,hstage⟩) hnot
        | inr wait =>
          -- A wait that is over at once ends in the same turn; any other puts the task to sleep.
          refine .get_bind fun later hl => .ite ((leads_over wait hnot).from_ hl) ?_
          refine .bind (Q := fun _ later => ∃ manager, later =
            { now with manager, tasks := withStage id (.waiting wait) now.tasks }) ?_ fun _ => ?_
          · obtain ⟨manager,rfl⟩ := hl
            refine .update ?_
            rintro _ rfl
            exact ⟨manager,rfl⟩
          · refine .update ?_
            rintro _ ⟨manager,rfl⟩
            exact .asleep wait hstage rfl rfl rfl rfl

/-! ### What holds of the queues -/

/-- What depends on the timers, the tasks and their queues only is carried on if it is when one task goes on. -/
theorem carried_queues {inv : List Nat → Schedule σ → Prop}
    (same : ∀ pending (schedule later : Schedule σ), later.tasks = schedule.tasks → later.ready = schedule.ready →
      later.sleeping = schedule.sleeping → later.timers = schedule.timers → inv pending schedule → inv pending later)
    (queue : ∀ {pending ready : List Nat} {schedule : Schedule σ}, inv [] schedule →
      (∀ id ∈ schedule.ready, id ∈ pending ++ ready) → inv pending { schedule with ready })
    (advance : ∀ {id pending schedule later}, Advanced id schedule later → inv (id :: pending) schedule → inv pending later)
    (wake : ∀ {ids : List Nat} {schedule : Schedule σ}, inv [] schedule → inv [] { schedule with
      ready := schedule.ready ++ ids, sleeping := schedule.sleeping.filter fun id => !ids.contains id })
    (spawn : ∀ {schedule : Schedule σ} (id number : Nat) (input : String), inv [] schedule → inv [] { schedule with
      tasks := schedule.tasks ++ [⟨id,number,.queued number input⟩], ready := schedule.ready ++ [id] }) :
    Carried fun _ => inv := by
  have hmanages {α : Type} {act : Scheduling σ α} (h : Manages act) : Leads (inv []) act fun _ => inv [] := by
    intro schedule hs
    obtain ⟨manager,he⟩ := h schedule schedule ⟨_,rfl⟩
    rw [he]
    exact same _ schedule _ rfl rfl rfl rfl hs
  exact {
    queue := queue
    advance := fun id schedule hs => advance (leads_advance id schedule schedule rfl) hs
    wake := fun ids schedule hs => wake hs
    clock := fun {front schedule} moment hs => same _ schedule _ rfl rfl rfl rfl hs
    credit := fun {front schedule} credit hs => same _ schedule _ rfl rfl rfl rfl hs
    spawn := fun number input schedule hs => spawn _ number input hs
    managing := fun _ schedule hs => same _ schedule _ rfl rfl rfl rfl hs
    start := fun number input => hmanages (manages_start number input)
    work := fun job => hmanages (manages_work job)
    endWait := fun wait => hmanages (manages_endWait wait) }

/-- Who can go on still can when others can too. -/
private theorem mem_grown {ready : List Nat} (more : List Nat) (h : id ∈ [] ++ ready) : id ∈ [] ++ (ready ++ more) :=
  List.mem_append_left more h

/-- Who waits sleeps, or is about to go on. -/
def Placed (pending : List Nat) (schedule : Schedule σ) : Prop :=
  ∀ id wait, schedule.stage? id = some (.waiting wait) → id ∈ schedule.sleeping ∨ id ∈ pending ++ schedule.ready

theorem carried_placed : Carried (σ := σ) fun _ => Placed := by
  refine carried_queues ?_ ?_ ?_ ?_ ?_
  · intro pending schedule later htasks hready hsleeping _ h
    rw [Placed, stage?_congr htasks, hready, hsleeping]
    exact h
  · intro pending ready schedule h hready id wait hwait
    exact (h id wait hwait).imp_right (hready id)
  · intro id pending schedule later hadvanced h other wait hwait
    -- Who has gone on is no longer about to, so it must sleep if it waits; the others are where they were.
    by_cases he : other = id
    · subst he
      exact .inl (hadvanced.sleeping_self hwait)
    · rw [hadvanced.of_ne he] at hwait
      rw [hadvanced.ready]
      exact (h other wait hwait).imp hadvanced.sleeping fun ho => (List.mem_cons.mp ho).resolve_left he
  · intro ids schedule h id wait hwait
    by_cases hid : id ∈ ids
    · exact .inr (List.mem_append_right schedule.ready hid)
    · refine (h id wait hwait).imp (fun hs => ?_) (mem_grown ids)
      exact List.mem_filter.mpr ⟨hs,by simpa using hid⟩
  · intro schedule id number input h other wait hwait
    refine (h other wait ?_).imp_right (mem_grown [id])
    -- The new task is queued, so who waits was there before.
    rw [stage?_concat rfl] at hwait
    cases hstage : schedule.stage? other with
    | none =>
      rw [hstage, Option.none_or] at hwait
      split at hwait <;> cases hwait
    | some stage => rwa [hstage] at hwait

/-- A task runs the job with a number. -/
def Runs (id number : Nat) (schedule : Schedule σ) : Prop := (schedule.task? id).map Task.job = some number

theorem carried_runs (id number : Nat) : Carried (σ := σ) fun _ _ => Runs id number := by
  refine carried_queues ?_ ?_ ?_ ?_ ?_
  · intro pending schedule later htasks _ _ _ h
    rw [Runs, task?, htasks]
    exact h
  · exact fun h _ => h
  · intro other pending schedule later hadvanced h
    rw [Runs, hadvanced.job]
    exact h
  · exact fun h => h
  · intro schedule other another input h
    obtain ⟨task,hfound,hjob⟩ := Option.map_eq_some_iff.mp h
    simp only [task?] at hfound
    simp [Runs, task?, hfound, hjob]

/-- Who has replied has done so for good. -/
theorem carried_done (id : Nat) (reply : Except AgentError String) :
    Carried (σ := σ) fun _ _ schedule => schedule.stage? id = some (.done reply) := by
  refine carried_queues ?_ ?_ ?_ ?_ ?_
  · intro pending schedule later htasks _ _ _ h
    rwa [stage?_congr htasks]
  · exact fun h _ => h
  · exact fun hadvanced h => hadvanced.stays h
  · exact fun h => h
  · intro schedule other number input h
    rw [stage?_concat rfl, h]
    rfl

/-- A task that was woken from a wait is about to go on, or has its reply. -/
def Woken (id : Nat) (wait : Wait) (pending : List Nat) (schedule : Schedule σ) : Prop :=
  schedule.stage? id = some (.waiting wait) ∧ id ∈ pending ++ schedule.ready ∨
    ∃ text, schedule.stage? id = some (.done (.ok text))

theorem carried_woken (id : Nat) (wait : Wait) : Carried (σ := σ) fun _ => Woken id wait := by
  refine carried_queues ?_ ?_ ?_ ?_ ?_
  · intro pending schedule later htasks hready hsleeping _ h
    rw [Woken, stage?_congr htasks, hready]
    exact h
  · intro pending ready schedule h hready
    exact h.imp_left (And.imp_right (hready id))
  · rintro other pending schedule later hadvanced (⟨hwait,hid⟩ | ⟨text,hreply⟩)
    · by_cases he : id = other
      · subst he
        exact .inr (hadvanced.reply hwait)
      · rw [Woken, hadvanced.of_ne he, hadvanced.ready]
        exact .inl ⟨hwait,(List.mem_cons.mp hid).resolve_left he⟩
    · exact .inr ⟨text,hadvanced.stays hreply⟩
  · intro ids schedule h
    exact h.imp_left (And.imp_right (mem_grown ids))
  · intro schedule other number input h
    rw [Woken, stage?_concat rfl]
    refine h.imp (fun ⟨hwait,hid⟩ => ⟨?_,mem_grown [other] hid⟩) fun ⟨text,hreply⟩ => ⟨text,?_⟩
    · rw [hwait]
      rfl
    · rw [hreply]
      rfl

omit [Storage σ] in
/-- Who waits for work that was given up is woken. -/
theorem Placed.givenUp {wait : Wait} (h : Placed [] schedule) (hwait : schedule.stage? id = some (.waiting wait))
    (hcancelled : schedule.isCancelled wait.job) : Woken id wait [] ((wake schedule.givenUp).run schedule).2 := by
  refine .inl ⟨hwait,?_⟩
  rcases h id wait hwait with hid | hid
  · refine List.mem_append_right schedule.ready (List.mem_map.mpr ⟨(id,wait),?_,rfl⟩)
    refine List.mem_mergeSort.mpr (List.mem_filter.mpr ⟨List.mem_filterMap.mpr ⟨id,hid,?_⟩,hcancelled⟩)
    rw [wait?_eq_some.mpr hwait]
    rfl
  · exact mem_grown _ hid

theorem run_poll (id : Nat) (schedule : Schedule σ) : ((Schedule.poll id).run schedule).2 = if schedule.ready.contains id then
    ((advance id).run { schedule with ready := schedule.ready.erase id }).2 else schedule := by
  simp only [Schedule.poll, StateT.run_bind, StateT.run_get, pure_bind]
  split <;> rfl

/-- A task that was woken has its reply as soon as it goes on. -/
theorem Woken.poll {wait : Wait} (h : Woken id wait [] schedule) :
    ∃ text, ((poll id).run schedule).2.stage? id = some (.done (.ok text)) := by
  have hadvanced : Advanced id { schedule with ready := schedule.ready.erase id }
      ((advance id).run { schedule with ready := schedule.ready.erase id }).2 := leads_advance id _ _ rfl
  rw [run_poll]
  rcases h with ⟨hwait,hid⟩ | ⟨text,hreply⟩
  · have hready : id ∈ schedule.ready := hid
    rw [if_pos (List.contains_iff_mem.mpr hready)]
    exact hadvanced.reply hwait
  · split
    · exact ⟨text,hadvanced.stays hreply⟩
    · exact ⟨text,hreply⟩

end VirtualShell.Agent.Schedule
