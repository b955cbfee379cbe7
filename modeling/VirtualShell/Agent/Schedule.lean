import VirtualShell.Agent.Manager

/-!
Runs of agents that wait for their models at the same time, on a clock that only moves when everything waits.
Then it jumps to the next moment for which somebody waits. Who waited first for a moment goes on first.
The foreground goes on until it has to wait, or has waited for too many things that were over already.
-/
namespace VirtualShell.Agent

/-! ### Timers -/

/-- The timers of a runtime: after how many milliseconds one fires that was set for some milliseconds. -/
abbrev Timers := Nat → Nat

/-- The longest time for which the runtime beneath sets a timer, thirty years in milliseconds. -/
def longestWait : Nat := 30 * 365 * 24 * 60 * 60 * 1000

/-- The timers of the runtime beneath, which sets none for longer; they are taken where no others are given. -/
def waitFor : Timers := fun milliseconds => min milliseconds longestWait

/-! ### Tasks -/

/-- A run whose answer is on its way. -/
structure Wait where
  job : Job
  answer : Answer
  answerAt : Nat
  /-- The limit of the run and the moment when it is over. -/
  limit : Option (Nat × Nat)

namespace Wait

def ofDelay (timers : Timers) (now : Nat) (job : Job) (delay : Nat) (answer : Answer) (limit : Option Nat) : Wait :=
  ⟨job, answer, now + timers delay, limit.map fun n => (n, now + timers n)⟩

/-- When the wait is over at the latest. -/
def until_ (wait : Wait) : Nat :=
  match wait.limit with
  | some (_, limitAt) => min limitAt wait.answerAt
  | none => wait.answerAt

end Wait

inductive Stage where
  | queued (job : Nat) (input : String)
  | waiting (wait : Wait)
  | done (reply : Except AgentError String)

/-- A run in the background. -/
structure Task where
  id : Nat
  job : Nat
  stage : Stage

structure Schedule (σ : Type) where
  timers : Timers
  now : Nat
  manager : Manager σ
  tasks : List Task
  /-- The tasks that can go on, in order. -/
  ready : List Nat
  /-- The tasks that wait, in the order in which they began to. -/
  sleeping : List Nat
  /-- How many waits of the foreground may end before it gives the tasks a turn. -/
  credit : Nat

/-- An action at a moment of the clock. -/
abbrev Scheduling (σ : Type) : Type → Type := StateM (Schedule σ)

namespace Schedule
variable {σ : Type} [Storage σ]

/-- The credit that the foreground has after a wait. -/
def fullCredit : Nat := 128

def new (manager : Manager σ) (timers : Timers := waitFor) : Schedule σ := ⟨timers, 0, manager, [], [], [], fullCredit⟩

/-- An action of the manager. -/
def managing {α : Type} (act : Nat → Managing σ α) : Scheduling σ α := do
  let schedule ← get
  let (result, manager) := act schedule.now schedule.manager
  set { schedule with manager }
  return result

def task? (schedule : Schedule σ) (id : Nat) : Option Task := schedule.tasks.find? fun task => task.id == id

def setStage (id : Nat) (stage : Stage) : Scheduling σ Unit :=
  modify fun schedule => { schedule with
    tasks := schedule.tasks.map fun task => if task.id == id then { task with stage } else task }

/-- Puts a run into the background; it starts when everything before it waits. -/
def spawn (job : Nat) (input : String) : Scheduling σ Nat := do
  let id := (← get).tasks.length
  modify fun schedule => { schedule with
    tasks := schedule.tasks ++ [⟨id, job, .queued job input⟩], ready := schedule.ready ++ [id] }
  return id

/-- What a sleeping task waits for. -/
def wait? (schedule : Schedule σ) (id : Nat) : Option Wait :=
  match (schedule.task? id).map Task.stage with
  | some (.waiting wait) => some wait
  | _ => none

/-- Wakes sleeping tasks, in the order given. -/
def wake (ids : List Nat) : Scheduling σ Unit :=
  modify fun schedule => { schedule with
    ready := schedule.ready ++ ids
    sleeping := schedule.sleeping.filter fun id => !ids.contains id }

/-- Whether the work of a run is to be given up. -/
def isCancelled (schedule : Schedule σ) (job : Job) : Bool :=
  (schedule.manager.job? job.number).any Job.cancelled

/-- The waits whose runs are to be given up, the oldest job first. -/
def givenUp (schedule : Schedule σ) : List Nat :=
  let waits := schedule.sleeping.filterMap fun id => (schedule.wait? id).map (id, ·)
  let cancelled := waits.filter fun entry => schedule.isCancelled entry.2.job
  (cancelled.mergeSort fun a b => a.2.job.number ≤ b.2.job.number).map Prod.fst

/-- An action of the manager that may give up runs, which then go on at once. -/
def interrupting {α : Type} (act : Nat → Managing σ α) : Scheduling σ α := do
  let result ← managing act
  wake (← get).givenUp
  return result

/-- Starts a run. -/
def start (job : Nat) (input : String) : Scheduling σ (Except AgentError Job) := do
  match (← get).manager.job? job with
  | none => return .error (.notPending "")
  | some job => managing fun now => Manager.start now job input

/-- Does the work of a started run: what follows is its reply or a wait. -/
def work (job : Job) : Scheduling σ (String ⊕ Wait) := do
  match ← managing fun _ => Manager.work job with
  | .ended outcome => return .inl (← managing fun now => Manager.finish now job outcome)
  | .waiting delay answer limit =>
    let schedule ← get
    return .inr (.ofDelay schedule.timers schedule.now job delay answer limit)

/-- What a run has come to when its wait is over: first comes what gives it up, then the answer, then the limit. -/
def outcomeOf (schedule : Schedule σ) (wait : Wait) (now : Nat) : Managing σ Job.Outcome :=
  if schedule.isCancelled wait.job then return .cancelled
  else if wait.answerAt ≤ now then Manager.outcomeOf wait.answer
  else return .timedOut ((wait.limit.map Prod.fst).getD 0)

/-- Ends a run whose wait is over. -/
def endWait (wait : Wait) : Scheduling σ String := do
  let outcome ← managing ((← get).outcomeOf wait)
  managing fun now => Manager.finish now wait.job outcome

/-- Lets a task go on until it waits or is done. -/
def advance (id : Nat) : Scheduling σ Unit := do
  match ((← get).task? id).map Task.stage with
  | some (.queued job input) =>
    match ← start job input with
    | .error e => setStage id (.done (.error e))
    | .ok job =>
      match ← work job with
      | .inl reply => setStage id (.done (.ok reply))
      | .inr wait =>
        if wait.until_ ≤ (← get).now then setStage id (.done (.ok (← endWait wait)))
        else
          setStage id (.waiting wait)
          modify fun schedule => { schedule with sleeping := schedule.sleeping ++ [id] }
  | some (.waiting wait) => setStage id (.done (.ok (← endWait wait)))
  | _ => return ()

/-- How many tasks go on before the foreground gets its turn. -/
def turn : Nat := 61

/-- Lets ready tasks go on for one turn; none of them makes another one ready. -/
def drain : Scheduling σ Unit := do
  let ready := (← get).ready
  modify fun schedule => { schedule with ready := ready.drop turn }
  (ready.take turn).forM advance

/-- The moments for which tasks wait. -/
def moments (schedule : Schedule σ) : List Nat :=
  schedule.sleeping.filterMap fun id => (schedule.wait? id).map Wait.until_

/-- The next moment at which something happens. -/
def next? (schedule : Schedule σ) (alarm : Option Nat) : Option Nat :=
  (alarm.toList ++ schedule.moments).min?

/-- The waits that are over. -/
def due (schedule : Schedule σ) : List Nat :=
  schedule.sleeping.filter fun id => (schedule.wait? id).any fun wait => wait.until_ ≤ schedule.now

/-- Moves the clock and wakes who waited for the moment. -/
def jump (moment : Nat) : Scheduling σ Unit := do
  modify fun schedule => { schedule with now := max schedule.now moment }
  wake (← get).due

/-- Lets tasks go on until the alarm rings or, at the end of a turn, the condition holds. -/
def idle (alarm : Option Nat) (isOver : Schedule σ → Bool) : Nat → Scheduling σ Unit
  | 0 => return ()
  | fuel + 1 => do
    drain
    let schedule ← get
    if isOver schedule then return ()
    if !schedule.ready.isEmpty then idle alarm isOver fuel
    else match schedule.next? alarm with
    | none => return ()
    | some moment =>
      jump moment
      if alarm.any (· ≤ moment) then return ()
      idle alarm isOver fuel

/-! ### The foreground -/

def restoreCredit : Scheduling σ Unit := modify fun schedule => { schedule with credit := fullCredit }

/-- Gives the tasks a turn. -/
def giveTurn : Scheduling σ Unit := do
  drain
  restoreCredit

/-- Before a wait, and before a model is asked, the tasks have a turn if all credit is used up. -/
def beforeWait : Scheduling σ Unit := do
  if (← get).credit == 0 then giveTurn

/-- The end of a wait costs credit. -/
def afterWait : Scheduling σ Unit :=
  modify fun schedule => { schedule with credit := schedule.credit - 1 }

/-- Waits with a bound that is high enough: a task goes on twice at most, and at every moment one does. -/
def pause (alarm : Option Nat) (isOver : Schedule σ → Bool) : Scheduling σ Unit := do
  idle alarm isOver (3 * (← get).tasks.length + 3)
  restoreCredit

/-- Lets time pass; without any, tasks that can go on do so for one turn. -/
def sleep (milliseconds : Nat) : Scheduling σ Unit := do
  if milliseconds == 0 then giveTurn
  else
    beforeWait
    let schedule ← get
    pause (some (schedule.now + schedule.timers milliseconds)) fun _ => false
    afterWait

/-- The reply of a task that is done. -/
def reply? (schedule : Schedule σ) (id : Nat) : Option (Except AgentError String) :=
  match (schedule.task? id).map Task.stage with
  | some (.done reply) => some reply
  | _ => none

/-- Waits for a task. -/
def await (id : Nat) : Scheduling σ (Option (Except AgentError String)) := do
  beforeWait
  if ((← get).reply? id).isNone then pause none fun schedule => (schedule.reply? id).isSome
  afterWait
  return (← get).reply? id

/-- Runs a job in the foreground. -/
def run (job : Nat) (input : String) : Scheduling σ (Except AgentError String) := do
  match ← start job input with
  | .error e => return .error e
  | .ok job =>
    if !(← get).manager.poisoned then beforeWait
    match ← work job with
    | .inl reply => return .ok reply
    | .inr wait =>
      if (← get).now < wait.until_ then pause (some wait.until_) fun _ => false
      afterWait
      return .ok (← endWait wait)

end Schedule
end VirtualShell.Agent
