import VirtualShell.Agent.Job
import VirtualShell.Json.Printer
import VirtualShell.Json.Reader

/-!
The job table, and the shell that all agents work on. Jobs stand in the table under names that are never used again; who
runs a job keeps it when it leaves the table. Of agents with persistent memory the shell's file system holds what they
remember, one file for each name.
-/
namespace VirtualShell.Agent

structure Manager (σ : Type) where
  shell : Shell σ
  /-- Whether the shell was left in the middle of a change, so that agents can no longer use it. -/
  poisoned : Bool
  model : Model
  /-- The time limit in milliseconds of agents that set none. -/
  defaultTimeout : Option Nat
  /-- All jobs there have been, the oldest first, in the table or not. -/
  jobs : List Job
  /-- The table: under the name of a job its number. -/
  table : Keyed Nat
  /-- The number of the next job. -/
  next : Nat
  /-- The requests made so far, with the names of the tools that came with them. -/
  requests : List (Request × List String)

/-- An action of a job manager. -/
abbrev Managing (σ : Type) : Type → Type := StateM (Manager σ)

namespace Manager
variable {σ : Type}

def new (shell : Shell σ) (model : Model) (defaultTimeout : Option Nat) : Manager σ :=
  ⟨shell, false, model, defaultTimeout, [], [], 1, []⟩

/-- A manager with the mock model, set up by a configuration. -/
def ofConfig (shell : Shell σ) (agents : AgentsConfig) : Manager σ :=
  new shell (Mock.model agents.mockLatency.millis) (agents.defaultTimeout.map Duration.millis)

/-! ### The table -/

/-- Adds a pending job. -/
def create (definition : Definition) (background : Bool) : Managing σ Job := do
  let manager ← get
  let job := Job.new manager.next definition background
  set { manager with
    jobs := manager.jobs ++ [job]
    table := Keyed.insert job.pid job.number manager.table
    next := manager.next + 1 }
  return job

/-- A job by its number, also one that is no longer in the table. -/
def job? (manager : Manager σ) (number : Nat) : Option Job :=
  manager.jobs.find? fun job => job.number == number

/-- A job of the table. -/
def find? (manager : Manager σ) (pid : String) : Option Job := (Keyed.find? pid manager.table).bind manager.job?

/-- The jobs with some numbers, the oldest first. -/
def inOrder (manager : Manager σ) (numbers : List Nat) : List Job :=
  (numbers.filterMap manager.job?).mergeSort fun a b => a.number ≤ b.number

/-- The jobs in the table. The table has no order of its own, so they are sorted. -/
def listed (manager : Manager σ) : List Job := manager.inOrder (manager.table.map Prod.snd)

def put (job : Job) : Managing σ Unit :=
  modify fun manager => { manager with
    jobs := manager.jobs.map fun other => if other.number == job.number then job else other }

/-- Locks a job, also one that is no longer in the table, and does something to it if its state fits. -/
def act (number : Nat) (act : Job.Act) : Managing σ Bool := do
  match (← get).job? number with
  | none => return false
  | some job =>
    if !act.fits job.state then return false
    put (act.apply job)
    return true

/-- Does something to a job of the table. -/
def actOn (pid : String) (act : Job.Act) : Managing σ Bool := do
  match (← get).find? pid with
  | none => return false
  | some job => Manager.act job.number act

/-- Does something to one job after the other, and counts those that it was done to. -/
def actOnAll (act : Job.Act) : List Job → Managing σ Nat
  | [] => return 0
  | job :: jobs => do
    let done ← Manager.act job.number act
    return (if done then 1 else 0) + (← actOnAll act jobs)

/-- Ends an active job. -/
def kill (now : Nat) (pid : String) : Managing σ Bool := actOn pid (.kill now)

def suspend (pid : String) : Managing σ Bool := actOn pid .suspend

def resume (pid : String) : Managing σ Bool := actOn pid .resume

/-- Takes a job out of the table if it has ended. -/
def drop (pid : String) : Managing σ Unit := do
  if ← actOn pid .clear then modify fun manager => { manager with table := Keyed.erase pid manager.table }

/-- Takes what has ended out of the table, and counts how many are fewer in it then. -/
def cleanupCompleted : Managing σ Nat := do
  let before := (← get).table
  before.keys.forM drop
  return before.length - (← get).table.length

/-- Ends what is active, gives up what was not started, and takes what has ended out of the table. -/
def cleanupAll (now : Nat) : Managing σ Nat := do
  let _ ← actOnAll (.giveUp now) (← get).listed
  cleanupCompleted

/-! ### Runs -/

variable [Storage σ]

/-- The directory with the memory of agents. -/
def memoryDir : String := "/var/agent_memory"

def memoryPath (agent : String) : String :=
  memoryDir ++ "/" ++ agent.map (fun c => if c == '/' then '_' else c) ++ ".json"

def onFiles {α : Type} (act : Filing σ α) : Managing σ (Except StorageError α) := do
  let manager ← get
  let (result, shell) := manager.shell.onFiles act
  set { manager with shell }
  return result

/-- What an agent remembers; nothing if that cannot be read. -/
def loadMemory (agent : String) : Managing σ Memories := do
  if (← get).poisoned then return []
  match ← onFiles (FileSystem.read (memoryPath agent)) with
  | .ok (some text) =>
    match Json.read text with
    | .ok (.object members) => return members
    | _ => return []
  | _ => return []

/-- Keeps what an agent remembers, if that can be written. -/
def saveMemory (agent : String) (memory : Memories) : Managing σ Unit := do
  if (← get).poisoned then return ()
  let _ ← onFiles do
    if ← FileSystem.mkdirAll memoryDir then
      FileSystem.write (memoryPath agent) (Json.pretty 0 (.object memory))
    else return false

/-- Runs a tool call on the shell. -/
def runTool (call : ToolCall) : Managing σ (Except AgentError String) := do
  let manager ← get
  if manager.poisoned then return .error (.storage .lockPoisoned)
  let (result, shell) := runOnShell call manager.shell
  set { manager with shell }
  return result

/-- What an answer comes to, with its tool calls made. -/
def outcomeOf : Answer → Managing σ Job.Outcome
  | .text text => return .completed text
  | .calls text => return .completed (← expand runTool text)
  | .failure reason => return .errored (.model reason)

/-- Ends a run, keeps its memory, and gives the reply. -/
def finish (now : Nat) (job : Job) (outcome : Job.Outcome) : Managing σ String := do
  let (reply, job) := (((← get).job? job.number).getD job).finish now outcome
  let _ ← act job.number (.finish now outcome)
  if job.state == .completed && job.definition.memory == .persistent then
    saveMemory job.definition.name job.memory
  return reply

/-- The time limit of a run in milliseconds. -/
def limit? (manager : Manager σ) (definition : Definition) : Option Nat :=
  (definition.timeout.map fun seconds => seconds.toNat * 1000).or manager.defaultTimeout

/-- What the work of a run has come to. -/
inductive Progress where
  | ended (outcome : Job.Outcome)
  /-- An answer is on its way, and comes after some milliseconds if there is time enough for it. -/
  | waiting (delay : Nat) (answer : Answer) (limit : Option Nat)

/-- Asks the model on behalf of a job. -/
def ask (job : Job) (tools : List Tool) : Managing σ Progress := do
  let manager ← get
  let request := job.request
  let reply := manager.model manager.requests.length request tools
  set { manager with requests := manager.requests ++ [(request, tools.map Tool.name)] }
  match reply.delay with
  | none => return .ended (← outcomeOf reply.answer)
  | some delay => return .waiting delay reply.answer (manager.limit? job.definition)

/-- Begins the run of a pending job. -/
def begin (now : Nat) (job : Job) (input : String) : Managing σ (Except AgentError Unit) := do
  if ← act job.number (.begin now input) then return .ok ()
  else return .error (.notPending job.pid)

/-- What a run has at its beginning. -/
def memoryOf (job : Job) : Managing σ Memories :=
  if job.definition.memory == .persistent then loadMemory job.definition.name else pure []

/-- Starts the run of a pending job, with what it remembers. -/
def start (now : Nat) (job : Job) (input : String) : Managing σ (Except AgentError Job) := do
  match ← begin now job input with
  | .error e => return .error e
  | .ok () =>
    let memory ← memoryOf job
    let _ ← act job.number (.remember memory)
    return .ok (((← get).job? job.number).getD job)

/-- Does the work of a started job. -/
def work (job : Job) : Managing σ Progress := do
  let manager ← get
  if manager.poisoned then return .ended (.errored (.storage .lockPoisoned))
  if job.cancelled then return .ended .cancelled
  ask job (Tool.manifest manager.shell.session.usage job.definition.tools)

/-- The definition in a file of the shell. -/
def readDefinition (path : String) : Managing σ (Except AgentError Definition) := do
  match ← onFiles (FileSystem.read path) with
  | .error e => return .error (.storage e)
  | .ok none => return .error (.notFound path)
  | .ok (some text) => return (Definition.ofText text).mapError .definition

end Manager
end VirtualShell.Agent
