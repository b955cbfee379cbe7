import VirtualShell.Proofs.Agent.Table

/-!
A job manager at work: calls that run jobs are under way while others begin, and jobs are ended, suspended, resumed
and taken out of the table. Every event is what happens while one lock is held, and events come in any order. What
the shell and the model do is left open.
-/
namespace VirtualShell.Agent

/-- How far a call that runs a job has come. -/
inductive Call.Stage where
  /-- The job is begun, and the call looks up what its agent remembers. -/
  | begun
  /-- The model is at work. -/
  | asking
  | ended (reply : Except AgentError String)

/-- A call that runs a job. -/
structure Call where
  number : Nat
  input : String
  stage : Call.Stage

/-- Whether a call got past the check that its job is pending. -/
def Call.isPast (call : Call) : Bool :=
  match call.stage with
  | .ended (.error _) => false
  | _ => true

/-- Whether a call has begun its job and not replied. -/
def Call.isOpen (call : Call) : Bool :=
  match call.stage with
  | .ended _ => false
  | _ => true

/-- What is done to a job by others than the call that runs it. -/
inductive Control where
  | kill
  | suspend
  | resume
  | giveUp
  | clear
  deriving DecidableEq

def Control.act (now : Nat) : Control → Job.Act
  | kill => .kill now
  | suspend => .suspend
  | resume => .resume
  | giveUp => .giveUp now
  | clear => .clear

inductive Event (σ : Type) where
  /-- The clock goes on. -/
  | tick (moment : Nat)
  /-- Something happens on the shell or with the model. -/
  | elsewhere (shell : Shell σ) (poisoned : Bool) (requests : List (Request × List String))
  | create (definition : Definition) (background : Bool)
  /-- A new call locks the job that it is to run. -/
  | run (number : Nat) (input : String)
  /-- A call that has begun its job gives it what the agent remembers. -/
  | remember (call : Nat) (memory : Memories)
  /-- A call that has asked the model has come to an outcome: a reply, a failure, or the end of its patience. -/
  | finish (call : Nat) (outcome : Job.Outcome)
  | control (number : Nat) (control : Control)
  /-- A job leaves the table if it has ended. -/
  | drop (pid : String)

/-- A manager on a clock, and the calls made so far, the oldest first. -/
structure System (σ : Type) where
  now : Nat
  manager : Manager σ
  calls : List Call

namespace System
variable {σ : Type}

/-- A system before any call. -/
def new (manager : Manager σ) : System σ := ⟨0,manager,[]⟩

/-- The calls when one has come to another stage. -/
def stageAt (s : System σ) (i : Nat) (call : Call) (stage : Call.Stage) : List Call :=
  s.calls.set i { call with stage }

variable [Storage σ]

/-- An event; nothing happens if there is no such job, or no such call at the right stage. -/
def step (s : System σ) : Event σ → System σ
  | .tick moment => { s with now := max s.now moment }
  | .elsewhere shell poisoned requests => { s with manager := { s.manager with shell, poisoned, requests } }
  | .create definition background =>
    { s with manager := ((Manager.create definition background).run s.manager).2 }
  | .run number input =>
    match s.manager.job? number with
    | none => s
    | some job =>
      let (begun, manager) := (Manager.begin s.now job input).run s.manager
      let stage := match begun with
        | .ok () => .begun
        | .error e => .ended (.error e)
      { s with manager, calls := s.calls ++ [⟨number,input,stage⟩] }
  | .remember i memory =>
    match s.calls[i]? with
    | some call =>
      match call.stage with
      | .begun =>
        { s with
          manager := ((Manager.act call.number (.remember memory)).run s.manager).2
          calls := s.stageAt i call .asking }
      | _ => s
    | none => s
  | .finish i outcome =>
    match s.calls[i]? with
    | some call =>
      match call.stage, s.manager.job? call.number with
      | .asking, some job =>
        let (reply, manager) := (Manager.finish s.now job outcome).run s.manager
        { s with manager, calls := s.stageAt i call (.ended (.ok reply)) }
      | _, _ => s
    | none => s
  | .control number control =>
    { s with manager := ((Manager.act number (control.act s.now)).run s.manager).2 }
  | .drop pid => { s with manager := ((Manager.drop pid).run s.manager).2 }

/-- A system after a sequence of events. -/
def after (s : System σ) (events : List (Event σ)) : System σ := events.foldl step s

/-! ### What an event can do -/

omit [Storage σ] in
/-- The changes that events make. -/
inductive Change (s : System σ) : System σ → Prop
  | idle {s' : System σ} (hnow : s.now ≤ s'.now) (hjobs : s'.manager.jobs = s.manager.jobs)
      (hcalls : s'.calls = s.calls) : Change s s'
  | created {s' : System σ} (definition : Definition) (background : Bool) (hnow : s'.now = s.now)
      (hjobs : s'.manager.jobs = s.manager.jobs ++ [.new (s.manager.jobs.length + 1) definition background])
      (hcalls : s'.calls = s.calls) : Change s s'
  | begun {s' : System σ} {job : Job} (input : String) (hjob : job ∈ s.manager.jobs) (hpending : job.state = .pending)
      (hnow : s'.now = s.now) (hjobs : s'.manager.jobs = s.manager.jobs.map ((Job.Act.begin s.now input).on job.number))
      (hcalls : s'.calls = s.calls ++ [⟨job.number,input,.begun⟩]) : Change s s'
  | refused {s' : System σ} {job : Job} (input : String) (hjob : job ∈ s.manager.jobs) (hpending : job.state ≠ .pending)
      (hnow : s'.now = s.now) (hjobs : s'.manager.jobs = s.manager.jobs)
      (hcalls : s'.calls = s.calls ++ [⟨job.number,input,.ended (.error (.notPending job.pid))⟩]) : Change s s'
  | remembered {s' : System σ} {call : Call} (i : Nat) (memory : Memories) (hcall : s.calls[i]? = some call)
      (hstage : call.isOpen) (hnow : s'.now = s.now)
      (hjobs : s'.manager.jobs = s.manager.jobs.map ((Job.Act.remember memory).on call.number))
      (hcalls : s'.calls = s.stageAt i call .asking) : Change s s'
  | finished {s' : System σ} {call : Call} (i : Nat) (outcome : Job.Outcome) (reply : String)
      (hcall : s.calls[i]? = some call) (hstage : call.isOpen) (hnow : s'.now = s.now)
      (hjobs : s'.manager.jobs = s.manager.jobs.map ((Job.Act.finish s.now outcome).on call.number))
      (hcalls : s'.calls = s.stageAt i call (.ended (.ok reply))) : Change s s'
  | controlled {s' : System σ} (number : Nat) (control : Control) (hnow : s'.now = s.now)
      (hjobs : s'.manager.jobs = s.manager.jobs.map ((control.act s.now).on number))
      (hcalls : s'.calls = s.calls) : Change s s'

theorem change_step {s : System σ} (h : s.manager.Numbered) (event : Event σ) : Change s (s.step event) := by
  have hidle : Change s s := .idle (Nat.le_refl _) rfl rfl
  cases event with
  | tick moment => exact .idle (Nat.le_max_left _ _) rfl rfl
  | elsewhere => exact .idle (Nat.le_refl _) rfl rfl
  | create definition background => exact .created definition background rfl (by rw [← h.next]; rfl) rfl
  | run number input =>
    cases hfound : s.manager.job? number with
    | none => simpa [step, hfound] using hidle
    | some job =>
      obtain ⟨hjob,rfl⟩ := Manager.mem_of_job? hfound
      by_cases hpending : job.state = .pending
      · simp only [step, hfound, Manager.run_begin h s.now input hjob hpending]
        exact .begun input hjob hpending rfl rfl rfl
      · simp only [step, hfound, Manager.run_begin_refused h s.now input hjob hpending]
        exact .refused input hjob hpending rfl rfl rfl
  | remember i memory =>
    cases hcall : s.calls[i]? with
    | none => simpa [step, hcall] using hidle
    | some call =>
      obtain ⟨number,input,stage⟩ := call
      cases stage with
      | begun =>
        simp only [step, hcall, Manager.run_act h]
        exact .remembered i memory hcall rfl rfl rfl rfl
      | asking => simpa [step, hcall] using hidle
      | ended => simpa [step, hcall] using hidle
  | finish i outcome =>
    cases hcall : s.calls[i]? with
    | none => simpa [step, hcall] using hidle
    | some call =>
      obtain ⟨number,input,stage⟩ := call
      cases stage with
      | begun => simpa [step, hcall] using hidle
      | ended => simpa [step, hcall] using hidle
      | asking =>
        cases hfound : s.manager.job? number with
        | none => simpa [step, hcall, hfound] using hidle
        | some job =>
          obtain ⟨_,rfl⟩ := Manager.mem_of_job? hfound
          obtain ⟨shell,requests,hfinish⟩ := Manager.run_finish h s.now outcome job
          simp only [step, hcall, hfound, hfinish]
          exact .finished i outcome _ hcall rfl rfl rfl rfl
  | control number control =>
    simp only [step, Manager.run_act h]
    exact .controlled number control rfl rfl rfl
  | drop pid =>
    rcases Manager.run_drop_cases h pid with hsame | ⟨job,_,_,hdrop⟩
    · simpa only [step, hsame] using hidle
    · simp only [step, hdrop]
      exact .controlled job.number .clear rfl rfl rfl

theorem numbered_step {s : System σ} (h : s.manager.Numbered) (event : Event σ) : (s.step event).manager.Numbered := by
  cases event with
  | tick => exact h
  | elsewhere => exact h
  | create definition background => exact h.concat definition background
  | run number input =>
    simp only [step]
    split
    · exact h
    · rename_i hfound
      exact h.begin s.now input (Manager.mem_of_job? hfound).1
  | remember i memory =>
    simp only [step]
    split
    · split
      · exact h.act _ _
      · exact h
    · exact h
  | finish i outcome =>
    simp only [step]
    split
    · split
      · exact h.finish s.now outcome _
      · exact h
    · exact h
  | control number control => exact h.act number _
  | drop pid => exact h.drop pid

end System
end VirtualShell.Agent
