import VirtualShell.Proofs.Agent.Happenings

/-!
How jobs go from one state to another under every interleaving of events. Each change is one of the documented diagram,
but for one: whether a job is suspended is not asked when its run ends.
-/
namespace VirtualShell.Agent

/-- The state in which a run ends that has come to an outcome. -/
def Job.Outcome.state : Job.Outcome → State
  | completed _ => .completed
  | timedOut _ => .failed
  | cancelled => .terminated
  | errored _ => .failed

namespace Job
variable {number : Nat} {act : Act} {job : Job}

/-- A run ends as its outcome says, unless its job was ended by force before. -/
theorem state_finish (now : Nat) (outcome : Outcome) (hs : job.state ≠ .terminated) :
    (job.finish now outcome).2.state = outcome.state := by
  cases outcome <;> simp [finish, hs, Outcome.state]

/-- An act leaves a job in its state, or is done to it. -/
theorem Act.state_on (number : Nat) (act : Act) (job : Job) : (act.on number job).state = job.state ∨
    job.number = number ∧ act.fits job.state ∧ (act.on number job).state = (act.apply job).state := by
  unfold Act.on
  split
  · rename_i h
    exact .inr ⟨h.1,h.2,rfl⟩
  · exact .inl rfl

end Job

namespace System
variable {σ : Type} {s : System σ} {job : Job} {event : Event σ}

/-- The changes in the diagram of states, each with an event that makes it. -/
inductive Documented (s : System σ) (number : Nat) : Event σ → State → State → Prop
  | begins (input : String) : Documented s number (.run number input) .pending .running
  | completes {i : Nat} {input : String} (text : String) (hcall : s.calls[i]? = some ⟨number,input,.asking⟩) :
      Documented s number (.finish i (.completed text)) .running .completed
  | timesOut {i : Nat} {input : String} (limit : Nat) (hcall : s.calls[i]? = some ⟨number,input,.asking⟩) :
      Documented s number (.finish i (.timedOut limit)) .running .failed
  | fails {i : Nat} {input : String} (cause : AgentError) (hcall : s.calls[i]? = some ⟨number,input,.asking⟩) :
      Documented s number (.finish i (.errored cause)) .running .failed
  | cancels {i : Nat} {input : String} (hcall : s.calls[i]? = some ⟨number,input,.asking⟩) :
      Documented s number (.finish i .cancelled) .running .terminated
  | suspends : Documented s number (.control number .suspend) .running .suspended
  | resumes : Documented s number (.control number .resume) .suspended .running
  | killed : Documented s number (.control number .kill) .running .terminated
  | killedSuspended : Documented s number (.control number .kill) .suspended .terminated
  | cleanedUp : Documented s number (.control number .giveUp) .running .terminated
  | cleanedUpSuspended : Documented s number (.control number .giveUp) .suspended .terminated

/-- The change beside the diagram: a run ends while its job is suspended. -/
inductive Overtaken (s : System σ) (number : Nat) : Event σ → State → State → Prop
  | ends {i : Nat} {input : String} (outcome : Job.Outcome) (hcall : s.calls[i]? = some ⟨number,input,.asking⟩) :
      Overtaken s number (.finish i outcome) .suspended outcome.state

/-- What an event makes of the state of a job. -/
def Passes (s : System σ) (number : Nat) (event : Event σ) (before after : State) : Prop :=
  after = before ∨ Documented s number event before after ∨ Overtaken s number event before after

/-! ### One event -/

/-- The job after an event is one of those there are then. -/
def Becomes (s s' : System σ) (event : Event σ) (job : Job) : Prop :=
  ∃ later ∈ s'.manager.jobs, later.number = job.number ∧ Passes s job.number event job.state later.state

private theorem becomes_self {s' : System σ} (hj : job ∈ s'.manager.jobs) : Becomes s s' event job :=
  ⟨job,hj,rfl,.inl rfl⟩

private theorem becomes_on {s' : System σ} (number : Nat) (act : Job.Act) (hj : job ∈ s.manager.jobs)
    (hjobs : s'.manager.jobs = s.manager.jobs.map (act.on number))
    (hpasses : job.number = number → act.fits job.state → Passes s job.number event job.state (act.apply job).state) :
    Becomes s s' event job := by
  refine ⟨act.on number job,hjobs ▸ List.mem_map_of_mem hj,Job.Act.number_on number act job,?_⟩
  rcases Job.Act.state_on number act job with hsame | ⟨hnumber,hfits,hstate⟩
  · exact .inl hsame
  · rw [hstate]
    exact hpasses hnumber hfits

private theorem passes_finish {i : Nat} {input : String} (hcall : s.calls[i]? = some ⟨job.number,input,.asking⟩)
    (hrun : job.state.isUnderway) (outcome : Job.Outcome) :
    Passes s job.number (.finish i outcome) job.state (job.finish s.now outcome).2.state := by
  cases hs : job.state with
  | running =>
    rw [Job.state_finish s.now outcome (by simp [hs])]
    refine .inr (.inl ?_)
    cases outcome with
    | completed text => exact .completes text hcall
    | timedOut limit => exact .timesOut limit hcall
    | cancelled => exact .cancels hcall
    | errored cause => exact .fails cause hcall
  | suspended =>
    rw [Job.state_finish s.now outcome (by simp [hs])]
    exact .inr (.inr (.ends outcome hcall))
  | terminated => exact .inl (by simp [Job.finish, hs])
  | pending => simp [hs, State.isUnderway] at hrun
  | completed => simp [hs, State.isUnderway] at hrun
  | failed => simp [hs, State.isUnderway] at hrun

private theorem passes_control (control : Control) (hfits : (control.act s.now).fits job.state) :
    Passes s job.number (.control job.number control) job.state ((control.act s.now).apply job).state := by
  cases control with
  | kill =>
    have hactive : job.state.isActive := hfits
    cases hs : job.state <;> simp_all [State.isActive]
    · exact .inr (.inl .killed)
    · exact .inr (.inl .killedSuspended)
  | suspend =>
    have hs : job.state = .running := by simpa [Control.act, Job.Act.fits] using hfits
    rw [hs]
    exact .inr (.inl .suspends)
  | resume =>
    have hs : job.state = .suspended := by simpa [Control.act, Job.Act.fits] using hfits
    rw [hs]
    exact .inr (.inl .resumes)
  | giveUp =>
    cases hs : job.state <;> simp_all [Control.act, Job.Act.fits, Job.Act.apply, State.isActive, Job.terminate]
    · exact .inl rfl
    · exact .inr (.inl .cleanedUp)
    · exact .inr (.inl .cleanedUpSuspended)
  | clear => exact .inl rfl

variable [Storage σ]

/-- What one event makes of a job. -/
theorem Invariant.becomes (h : Invariant s) (event : Event σ) (hj : job ∈ s.manager.jobs) :
    Becomes s (s.step event) event job := by
  have hnumbered := h.numbered
  cases event with
  | tick moment => exact becomes_self hj
  | elsewhere => exact becomes_self hj
  | create definition background => exact becomes_self (List.mem_append_left _ hj)
  | control number control =>
    refine becomes_on number (control.act s.now) hj (by simp only [step, Manager.run_act hnumbered]) ?_
    rintro rfl hfits
    exact passes_control control hfits
  | drop pid =>
    rcases Manager.run_drop_cases hnumbered pid with hsame | ⟨other,_,_,hdrop⟩
    · exact becomes_self (by simpa only [step, hsame] using hj)
    · exact becomes_on other.number .clear hj (by simp only [step, hdrop]) fun _ _ => .inl rfl
  | run number input =>
    cases hfound : s.manager.job? number with
    | none => exact becomes_self (by simpa [step, hfound] using hj)
    | some other =>
      obtain ⟨ho,rfl⟩ := Manager.mem_of_job? hfound
      by_cases hpending : other.state = .pending
      · refine becomes_on other.number (.begin s.now input) hj ?_ fun hnumber hfits => ?_
        · simp only [step, hfound, Manager.run_begin hnumbered s.now input ho hpending]
        · have hs : job.state = .pending := by simpa [Job.Act.fits] using hfits
          rw [hs, ← hnumber]
          exact .inr (.inl (.begins input))
      · refine becomes_self ?_
        simpa only [step, hfound, Manager.run_begin_refused hnumbered s.now input ho hpending] using hj
  | remember i memory =>
    cases hcall : s.calls[i]? with
    | none => exact becomes_self (by simpa [step, hcall] using hj)
    | some call =>
      obtain ⟨number,input,stage⟩ := call
      cases stage with
      | begun =>
        exact becomes_on number (.remember memory) hj
          (by simp only [step, hcall, Manager.run_act hnumbered]) fun _ _ => .inl rfl
      | asking => exact becomes_self (by simpa [step, hcall] using hj)
      | ended => exact becomes_self (by simpa [step, hcall] using hj)
  | finish i outcome =>
    cases hcall : s.calls[i]? with
    | none => exact becomes_self (by simpa [step, hcall] using hj)
    | some call =>
      obtain ⟨number,input,stage⟩ := call
      cases stage with
      | begun => exact becomes_self (by simpa [step, hcall] using hj)
      | ended => exact becomes_self (by simpa [step, hcall] using hj)
      | asking =>
        -- The job of a call that asks the model is under way.
        obtain ⟨other,ho,hnumber,hrun⟩ := h.underway _ (List.mem_of_getElem? hcall) rfl
        have hfound := hnumbered.job?_number ho
        rw [show other.number = number from hnumber] at hfound
        obtain ⟨shell,requests,hfinish⟩ := Manager.run_finish hnumbered s.now outcome other
        rw [show other.number = number from hnumber] at hfinish
        refine becomes_on number (.finish s.now outcome) hj
          (by simp only [step, hcall, hfound, hfinish]) fun hsame _ => ?_
        obtain rfl := hnumbered.eq_of_number ho hj (hsame.trans hnumber.symm)
        exact passes_finish (hsame ▸ hcall) hrun outcome

/-! ### Sequences of events -/

/-- A suspended job whose run has not ended while it was suspended is not completed and has not failed, unless it was
resumed. -/
theorem Invariant.suspended (h : Invariant s) (hj : job ∈ s.manager.jobs) (hs : job.state = .suspended)
    (events : List (Event σ)) {last : Job} (hlast : last ∈ (s.after events).manager.jobs) (hnumber : last.number = job.number)
    (hended : last.state = .completed ∨ last.state = .failed) :
    .control job.number .resume ∈ events ∨ ∃ first event rest state, events = first ++ event :: rest ∧
      Overtaken (s.after first) job.number event .suspended state := by
  induction events generalizing s job with
  | nil =>
    obtain rfl := h.numbered.eq_of_number hj hlast hnumber
    simp [hs] at hended
  | cons event events ih =>
    obtain ⟨next,hn,hsame,hpasses⟩ := h.becomes event hj
    have hnext := h.next event
    rw [hs] at hpasses
    rcases hpasses with hstays | hdocumented | hovertaken
    · rcases ih hnext hn hstays hlast (hnumber.trans hsame.symm) with hresumed | ⟨first,last,rest,state,rfl,hovertaken⟩
      · exact .inl (List.mem_cons_of_mem _ (hsame ▸ hresumed))
      · exact .inr ⟨event :: first,last,rest,state,rfl,hsame ▸ hovertaken⟩
    · -- Either the event resumes the job, or the job is terminated for good.
      by_cases hterminal : next.state.isTerminal
      · obtain ⟨later,hl,hend⟩ := hnext.sameEnd_after events hn hterminal
        have hlater := (hnext.after events).numbered.eq_of_number hlast hl (hend.number.trans (hsame.trans hnumber.symm))
        rw [← hlater, hend.state] at hended
        generalize next.state = state at hdocumented hended
        cases hdocumented <;> simp at hended
      · generalize next.state = state at hdocumented hterminal
        cases hdocumented with
        | resumes => exact .inl List.mem_cons_self
        | killedSuspended => exact absurd rfl hterminal
        | cleanedUpSuspended => exact absurd rfl hterminal
    · exact .inr ⟨[],event,events,_,rfl,hovertaken⟩

/--
Whatever happens in whatever order, an event changes the state of a job along the diagram only, unless it ends the run of
a job that is suspended. A suspended job is completed or fails without having been resumed only if such an event came.
-/
theorem diagram_holds (shell : Shell σ) (model : Model) (limit : Option Nat) (events : List (Event σ)) :
    let s := (new (Manager.new shell model limit)).after events
    ∀ job ∈ s.manager.jobs,
      (∀ event, ∃ later, (s.step event).manager.job? job.number = some later ∧
        Passes s job.number event job.state later.state) ∧
      (job.state = .suspended → ∀ more last, (s.after more).manager.job? job.number = some last →
        last.state = .completed ∨ last.state = .failed →
        .control job.number .resume ∈ more ∨ ∃ first event rest state, more = first ++ event :: rest ∧
          Overtaken (s.after first) job.number event .suspended state) := by
  intro s job hj
  have h : Invariant s := (invariant_new shell model limit).after events
  refine ⟨fun event => ?_,fun hs more last hlast hended => ?_⟩
  · obtain ⟨later,hl,hnumber,hpasses⟩ := h.becomes event hj
    exact ⟨later,hnumber ▸ (h.next event).numbered.job?_number hl,hpasses⟩
  · obtain ⟨hl,hnumber⟩ := Manager.mem_of_job? hlast
    exact h.suspended hj hs more hl hnumber hended

/-- A kill ends a suspended job. -/
theorem suspended_killed :
    let shell : Shell Provider := ⟨⟨⟨.plain (.tree .empty),"/",0⟩,[],[],true,"",[]⟩,[]⟩
    let s := (new (Manager.new shell (Mock.model 100) none)).after
      [.create .standard true,.run 1 "x",.remember 0 [],.control 1 .suspend]
    ∃ job ∈ s.manager.jobs, job.state = .suspended ∧ ∃ later, (s.step (.control 1 .kill)).manager.job? 1 = some later ∧
      Passes s 1 (.control 1 .kill) .suspended later.state := by
  intro shell s
  have hfound : (s.manager.job? 1).map Job.state = some .suspended := by decide +kernel
  obtain ⟨job,hjob,hs⟩ := Option.map_eq_some_iff.mp hfound
  obtain ⟨hj,hnumber⟩ := Manager.mem_of_job? hjob
  obtain ⟨later,hlater,hpasses⟩ := (diagram_holds shell (Mock.model 100) none
    [.create .standard true,.run 1 "x",.remember 0 [],.control 1 .suspend] job hj).1 (.control 1 .kill)
  rw [hnumber] at hlater hpasses
  exact ⟨job,hj,hs,later,hlater,hs ▸ hpasses⟩

/-- A job that is suspended while its model is at work is completed when the answer comes, though nobody resumes it. -/
theorem suspended_completes :
    let shell : Shell Provider := ⟨⟨⟨.plain (.tree .empty),"/",0⟩,[],[],true,"",[]⟩,[]⟩
    let model : Model := fun _ _ _ => ⟨some 100,.text "done"⟩
    let s := (Schedule.new (Manager.new shell model none)).play
      [.create .standard true,.spawn 1 "x",.sleep 10,.suspend "agent_1"]
    (s.manager.find? "agent_1").map Job.state = some .suspended ∧
      ((s.play [.sleep 200]).manager.find? "agent_1").map Job.state = some .completed := by
  decide +kernel

end System
end VirtualShell.Agent
