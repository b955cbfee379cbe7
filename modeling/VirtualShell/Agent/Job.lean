import VirtualShell.Agent.Model

/-!
Agent jobs. A job is pending, then running, and ends completed, failed or terminated; while it runs
it can be suspended and resumed. What has ended stays as it is.
-/
namespace VirtualShell.Agent

inductive State where
  | pending
  | running
  | suspended
  | completed
  | failed
  | terminated
  deriving DecidableEq, Repr

namespace State

def name : State → String
  | .pending => "pending"
  | .running => "running"
  | .suspended => "suspended"
  | .completed => "completed"
  | .failed => "failed"
  | .terminated => "terminated"

/-- Whether a job was started and has not ended. -/
def isActive : State → Bool
  | .running => true
  | .suspended => true
  | _ => false

def isTerminal : State → Bool
  | .completed => true
  | .failed => true
  | .terminated => true
  | _ => false

end State

/-- What an agent remembers: the members of a JSON object. -/
abbrev Memories := Keyed Json

structure Job where
  /-- Its number among all jobs, from 1 on. -/
  number : Nat
  definition : Definition
  background : Bool
  state : State
  /-- When it was started and when it ended, in milliseconds. -/
  startTime : Option Nat
  endTime : Option Nat
  input : String
  output : String
  error : String
  context : List Message
  memory : Memories
  /-- Whether its work is to be given up. -/
  cancelled : Bool

namespace Job

def new (number : Nat) (definition : Definition) (background : Bool) : Job where
  number
  definition
  background
  state := .pending
  startTime := none
  endTime := none
  input := ""
  output := ""
  error := ""
  context := []
  memory := []
  cancelled := false

def pid (job : Job) : String := s!"agent_{job.number}"

/-- The milliseconds that it has been running for, or had when it ended. -/
def runtime (job : Job) (now : Nat) : Nat :=
  match job.startTime with
  | none => 0
  | some start => job.endTime.getD now - start

/-- The job with its run begun: the prompt and the input open the conversation. -/
def begin (now : Nat) (input : String) (job : Job) : Job :=
  let system := job.definition.systemPrompt
  { job with
    state := .running
    startTime := some now
    input
    context := job.context
      ++ (if system.isEmpty then [] else [⟨.system, system⟩])
      ++ (if input.isEmpty then [] else [⟨.user, input⟩]) }

def request (job : Job) : Request where
  model := job.definition.model
  messages := job.context
  temperature := job.definition.temperature
  maxTokens := job.definition.maxTokens

/-- Ends a job by force. -/
def terminate (now : Nat) (job : Job) : Job :=
  { job with cancelled := true, state := .terminated, endTime := some now }

/-- How the work of a run ended. -/
inductive Outcome where
  | completed (text : String)
  /-- The time limit, in milliseconds, was over. -/
  | timedOut (limit : Nat)
  | cancelled
  | errored (cause : AgentError)
  deriving DecidableEq, Repr

/-- Times in seconds are written out in full. -/
def secondsLayout : Number.Layout := ⟨-400, 400, "", "", "NaN", "inf"⟩

/-- Milliseconds as a text of seconds: the whole seconds and the rest are rounded apart and then added. -/
def secondsText (milliseconds : Nat) : String :=
  let rest := (Number.Binary64.ofNat (milliseconds % 1000 * 1000000)).divMagnitude (.ofNat 1000000000)
  secondsLayout.write ((Number.Binary64.ofNat (milliseconds / 1000)).addMagnitude rest)

/-- Notes a run in the memory of its agent. -/
def recordRun (input output : String) (memory : Memories) : Memories :=
  let runs := ((Keyed.find? "runs" memory).bind Json.natural?).getD 0
  Keyed.insert "last_output" (.string output)
    (Keyed.insert "last_input" (.string input) (Keyed.insert "runs" (.number (.natural (runs + 1))) memory))

/-- The job with its run ended, and the reply; what was terminated before counts as cancelled. -/
def finish (now : Nat) (outcome : Outcome) (job : Job) : String × Job :=
  let job := { job with endTime := job.endTime.or (some now) }
  match if job.state == .terminated then .cancelled else outcome with
  | .completed text =>
    let memory := if job.definition.memory == .none then job.memory
      else recordRun job.input text job.memory
    (text, { job with
      context := job.context ++ [⟨.assistant, text⟩], output := text, state := .completed, memory })
  | .timedOut limit =>
    let error := s!"Agent execution timed out after {secondsText limit} seconds"
    (error, { job with state := .failed, error })
  | .cancelled => ("Process cancelled", { job with state := .terminated, error := "Process was cancelled" })
  | .errored cause =>
    ("Agent error: " ++ cause.message, { job with state := .failed, error := cause.message })

/-- What can happen to a job while it is locked. -/
inductive Act where
  | begin (now : Nat) (input : String)
  | remember (memory : Memories)
  | finish (now : Nat) (outcome : Outcome)
  | kill (now : Nat)
  | suspend
  | resume
  /-- It is ended if it is active; if it is pending, its work is given up before it begins. -/
  | giveUp (now : Nat)
  /-- It is about to leave the table: if work of it is left, that is given up. -/
  | clear

namespace Act

/-- The states in which an act is done; in others nothing happens. -/
def fits : Act → State → Bool
  | begin _ _, state => state == .pending
  | remember _, _ => true
  | finish _ _, _ => true
  | kill _, state => state.isActive
  | suspend, state => state == .running
  | resume, state => state == .suspended
  | giveUp _, state => state.isActive || state == .pending
  | clear, state => state.isTerminal

def apply : Act → Job → Job
  | begin now input, job => job.begin now input
  | remember memory, job => { job with memory }
  | finish now outcome, job => (job.finish now outcome).2
  | kill now, job => job.terminate now
  | suspend, job => { job with state := .suspended }
  | resume, job => { job with state := .running }
  | giveUp now, job => if job.state.isActive then job.terminate now else { job with cancelled := true }
  | clear, job => { job with cancelled := true }

end Act
end Job
end VirtualShell.Agent
