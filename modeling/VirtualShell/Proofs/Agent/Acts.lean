import VirtualShell.Agent.Job

/-!
What a single act makes of a job. Its times and its conversation always fit its state, and once it has ended no act
that can still come changes how.
-/
namespace VirtualShell.Agent

/-- The states of jobs with a run that has not given its reply; one that was ended by force still does so. -/
def State.isUnderway : State → Bool
  | .running => true
  | .suspended => true
  | .terminated => true
  | _ => false

namespace Job
variable {now : Nat} {job : Job} {act : Act}

/-- A job is told by its name as well as by its number. -/
theorem number_of_pid {other : Job} (h : other.pid = job.pid) : other.number = job.number := by
  have hdigits : Nat.toDigits 10 other.number = Nat.toDigits 10 job.number :=
    String.ofList_inj.mp (by simpa [pid, Nat.repr_eq_ofList_toDigits] using h)
  rw [← Nat.ofDigitChars_ten_toDigits (n := other.number), hdigits, Nat.ofDigitChars_ten_toDigits]

/-! ### What holds of every job -/

/-- The messages that a run begins the conversation with. -/
def opening (job : Job) : List Message :=
  (if job.definition.systemPrompt.isEmpty then [] else [⟨.system,job.definition.systemPrompt⟩])
    ++ (if job.input.isEmpty then [] else [⟨.user,job.input⟩])

/-- The conversation and the output fit the state: before a run there is nothing, and only the end adds a reply. -/
def Conversed (job : Job) : Prop :=
  match job.state with
  | .pending => job.context = [] ∧ job.output = ""
  | .completed => job.context = job.opening ++ [⟨.assistant,job.output⟩]
  | _ => job.context = job.opening ∧ job.output = ""

/-- The times fit the state, and are in order. -/
structure Timed (job : Job) : Prop where
  started : job.startTime.isSome ↔ job.state ≠ .pending
  ended : job.endTime.isSome ↔ job.state.isTerminal
  inOrder : ∀ start ∈ job.startTime, ∀ stop ∈ job.endTime, start ≤ stop

/-- What holds of a job at a moment. -/
structure Sound (now : Nat) (job : Job) : Prop extends Timed job where
  past : ∀ start ∈ job.startTime, start ≤ now
  conversed : Conversed job

theorem Sound.later {later : Nat} (h : Sound now job) (hl : now ≤ later) : Sound later job :=
  ⟨h.toTimed,fun start hs => Nat.le_trans (h.past start hs) hl,h.conversed⟩

theorem sound_new (number : Nat) (definition : Definition) (background : Bool) :
    Sound now (.new number definition background) :=
  ⟨⟨by simp [Job.new],by simp [Job.new,State.isTerminal],by simp [Job.new]⟩,by simp [Job.new],by simp [Conversed,Job.new]⟩

/-! ### Acts -/

/-- What can be done to a job at a moment: a run is only finished while it is under way. -/
def Act.Due (now : Nat) (state : State) : Act → Prop
  | .begin time _ => time = now
  | .finish time _ => time = now ∧ state.isUnderway
  | .kill time => time = now
  | .giveUp time => time = now
  | _ => True

/-- A job with a run that goes on. -/
theorem Sound.of_active (h : Sound now job) (hactive : job.state.isActive) :
    job.startTime.isSome ∧ job.endTime = none ∧ job.context = job.opening ∧ job.output = "" := by
  have hconversed := h.conversed
  refine ⟨?_,?_,?_⟩
  · rw [h.started]
    intro hp
    simp [hp, State.isActive] at hactive
  · rw [← Option.not_isSome_iff_eq_none, h.ended]
    cases hs : job.state <;> simp_all [State.isActive, State.isTerminal]
  · cases hs : job.state <;> simp_all [Conversed, State.isActive]

private theorem Sound.begin (h : Sound now job) (input : String) (hpending : job.state = .pending) :
    Sound now (job.begin now input) := by
  have hend : job.endTime = none := by simpa [hpending, State.isTerminal] using h.ended
  have hempty := h.conversed
  simp only [Conversed, hpending] at hempty
  refine ⟨⟨?_,?_,?_⟩,?_,?_⟩
  · simp [Job.begin]
  · simp [Job.begin, hend, State.isTerminal]
  · simp [Job.begin, hend]
  · simp [Job.begin]
  · simp [Conversed, Job.begin, hempty, opening]

/-- Between the two states of a run that goes on nothing else has to change. -/
private theorem Sound.withState {state : State} (h : Sound now job) (hactive : job.state.isActive)
    (hs : state.isActive) : Sound now { job with state } := by
  obtain ⟨hstart,hend,hopen⟩ := h.of_active hactive
  have hstate : state ≠ .pending ∧ ¬state.isTerminal := by
    cases state <;> simp_all [State.isActive, State.isTerminal]
  refine ⟨⟨?_,?_,h.inOrder⟩,h.past,?_⟩
  · simp [hstart, hstate]
  · simp [hend, hstate]
  · cases state <;> simp_all [Conversed, State.isActive, opening]

private theorem Sound.terminate (h : Sound now job) (hactive : job.state.isActive) : Sound now (job.terminate now) := by
  obtain ⟨hstart,_,hopen⟩ := h.of_active hactive
  refine ⟨⟨?_,?_,?_⟩,h.past,hopen⟩
  · simp [Job.terminate, hstart]
  · simp [Job.terminate, State.isTerminal]
  · simpa [Job.terminate] using h.past

/-- A run of a job that was ended by force adds to it why it had no reply. -/
theorem finish_terminated (outcome : Outcome) (hs : job.state = .terminated) (hend : job.endTime.isSome) :
    job.finish now outcome = ("Process cancelled", { job with error := "Process was cancelled" }) := by
  obtain ⟨stop,hstop⟩ := Option.isSome_iff_exists.mp hend
  cases job
  simp_all [Job.finish]

private theorem Sound.finish_active (h : Sound now job) (outcome : Outcome) (hactive : job.state.isActive) :
    Sound now (job.finish now outcome).2 := by
  obtain ⟨hstart,hend,hopen,houtput⟩ := h.of_active hactive
  have hnot : job.state ≠ .terminated := by
    intro ht
    simp [ht, State.isActive] at hactive
  refine ⟨⟨?_,?_,?_⟩,?_,?_⟩
  · cases outcome <;> simp [Job.finish, hnot, hstart]
  · cases outcome <;> simp [Job.finish, hnot, hend, State.isTerminal]
  · cases outcome <;> simpa [Job.finish, hnot, hend] using h.past
  · cases outcome <;> simpa [Job.finish, hnot] using h.past
  · rw [opening] at hopen
    cases outcome <;> simp [Job.finish, hnot, Conversed, opening, hopen, houtput]

/-- Whatever can be done to a job keeps its times and its conversation fitting. -/
theorem Sound.apply (h : Sound now job) (hfits : act.fits job.state) (hdue : act.Due now job.state) :
    Sound now (act.apply job) := by
  cases act with
  | begin time input =>
    obtain rfl : time = now := hdue
    exact h.begin input (by simpa [Act.fits] using hfits)
  | remember memory => exact ⟨⟨h.started,h.ended,h.inOrder⟩,h.past,h.conversed⟩
  | finish time outcome =>
    obtain ⟨rfl,hrun⟩ := hdue
    by_cases hs : job.state = .terminated
    · have hend := h.ended.mpr (by simp [hs, State.isTerminal])
      rw [Act.apply, finish_terminated outcome hs hend]
      exact ⟨⟨h.started,h.ended,h.inOrder⟩,h.past,h.conversed⟩
    · exact h.finish_active outcome (by cases hj : job.state <;> simp_all [State.isUnderway, State.isActive])
  | kill time =>
    obtain rfl : time = now := hdue
    exact h.terminate hfits
  | suspend =>
    have hs : job.state = .running := by simpa [Act.fits] using hfits
    exact h.withState (by simp [hs, State.isActive]) rfl
  | resume =>
    have hs : job.state = .suspended := by simpa [Act.fits] using hfits
    exact h.withState (by simp [hs, State.isActive]) rfl
  | giveUp time =>
    obtain rfl : time = now := hdue
    by_cases hactive : job.state.isActive
    · simpa [Act.apply, hactive] using h.terminate hactive
    · simp only [Act.apply, hactive]
      exact ⟨⟨h.started,h.ended,h.inOrder⟩,h.past,h.conversed⟩
  | clear => exact ⟨⟨h.started,h.ended,h.inOrder⟩,h.past,h.conversed⟩

/-! ### What stays -/

/-- The end of a run tells when and how it came, and touches nothing else. -/
theorem finish_eq (now : Nat) (outcome : Outcome) (job : Job) : ∃ state output error context memory, state.isTerminal ∧
    (job.finish now outcome).2 =
      { job with state, endTime := job.endTime.or (some now), output, error, context, memory } := by
  simp only [finish]
  generalize (if job.state == .terminated then Outcome.cancelled else outcome) = last
  cases last <;> exact ⟨_,_,_,_,_,rfl,rfl⟩

/-- Whatever ends a run, the job has ended then. -/
theorem terminal_finish (now : Nat) (outcome : Outcome) (job : Job) : (job.finish now outcome).2.state.isTerminal := by
  obtain ⟨_,_,_,_,_,hterminal,hfinish⟩ := finish_eq now outcome job
  rw [hfinish]
  exact hterminal

/-- What a job was created with, and as which one. -/
def origin (job : Job) : (Definition × Bool) × Nat := ((job.definition,job.background),job.number)

theorem Act.origin_apply (act : Act) (job : Job) : (act.apply job).origin = job.origin := by
  cases act with
  | finish now outcome =>
    obtain ⟨_,_,_,_,_,_,hfinish⟩ := finish_eq now outcome job
    rw [Act.apply, hfinish]
    rfl
  | giveUp now =>
    simp only [Act.apply]
    split <;> rfl
  | _ => rfl

@[simp] theorem Act.number_apply (act : Act) (job : Job) : (act.apply job).number = job.number :=
  congrArg Prod.snd (act.origin_apply job)

theorem Act.definition_apply (act : Act) (job : Job) : (act.apply job).definition = job.definition :=
  congrArg (fun origin => origin.1.1) (act.origin_apply job)

/-- A job that was begun stays so, with its input. -/
theorem Act.begun_apply (hs : job.state ≠ .pending) (hfits : act.fits job.state) :
    (act.apply job).state ≠ .pending ∧ (act.apply job).input = job.input := by
  cases act with
  | begin => simp_all [Act.fits]
  | finish now outcome =>
    obtain ⟨state,_,_,_,_,hterminal,hfinish⟩ := finish_eq now outcome job
    rw [Act.apply, hfinish]
    refine ⟨fun hpending : state = .pending => ?_,rfl⟩
    rw [hpending] at hterminal
    cases hterminal
  | giveUp now =>
    simp only [Act.apply]
    split <;> simp [Job.terminate, hs]
  | _ => simp [Act.apply, Job.terminate, hs]

/-- Only its end takes a run out of its course. -/
theorem Act.underway_apply (hs : job.state.isUnderway) (hfits : act.fits job.state)
    (hact : ∀ now outcome, act ≠ .finish now outcome) : (act.apply job).state.isUnderway := by
  cases act with
  | finish now outcome => exact absurd rfl (hact now outcome)
  | giveUp now =>
    simp only [Act.apply]
    split
    · rfl
    · exact hs
  | remember => exact hs
  | clear => exact hs
  | _ => rfl

/-- Only a beginning makes a job active. -/
theorem Act.active_apply (hfits : act.fits job.state) (hact : ∀ now input, act ≠ .begin now input)
    (h : (act.apply job).state.isActive) : job.state.isActive := by
  cases act with
  | begin now input => exact absurd rfl (hact now input)
  | remember => exact h
  | finish now outcome =>
    obtain ⟨state,_,_,_,_,hterminal,hfinish⟩ := finish_eq now outcome job
    rw [Act.apply, hfinish] at h
    cases state <;> simp_all [State.isActive, State.isTerminal]
  | kill => exact hfits
  | suspend =>
    have hs : job.state = .running := by simpa [Act.fits] using hfits
    rw [hs]
    rfl
  | resume =>
    have hs : job.state = .suspended := by simpa [Act.fits] using hfits
    rw [hs]
    rfl
  | giveUp now =>
    simp only [Act.apply] at h
    split at h
    · assumption
    · exact h
  | clear => exact h

/-- What has ended is not begun again. -/
theorem Act.terminal_apply (hterminal : job.state.isTerminal) (hfits : act.fits job.state) :
    (act.apply job).state.isTerminal := by
  cases act with
  | begin => cases hs : job.state <;> simp_all [Act.fits, State.isTerminal]
  | remember => exact hterminal
  | finish now outcome => exact terminal_finish now outcome job
  | kill => rfl
  | suspend => cases hs : job.state <;> simp_all [Act.fits, State.isTerminal]
  | resume => cases hs : job.state <;> simp_all [Act.fits, State.isTerminal]
  | giveUp now =>
    simp only [Act.apply]
    split
    · rfl
    · exact hterminal
  | clear => exact hterminal

/-- Work that is given up is not taken up again. -/
theorem Act.cancelled_apply (act : Act) (h : job.cancelled) : (act.apply job).cancelled := by
  cases act with
  | finish now outcome =>
    obtain ⟨_,_,_,_,_,_,hfinish⟩ := finish_eq now outcome job
    rw [Act.apply, hfinish]
    exact h
  | giveUp now =>
    simp only [Act.apply]
    split
    · rfl
    · rfl
  | kill => rfl
  | clear => rfl
  | _ => exact h

/-- What an act on the job with a number makes of some job. -/
def Act.on (number : Nat) (act : Act) (job : Job) : Job :=
  if job.number = number ∧ act.fits job.state then act.apply job else job

@[simp] theorem Act.number_on (number : Nat) (act : Act) (job : Job) : (act.on number job).number = job.number := by
  unfold Act.on
  split <;> simp

@[simp] theorem Act.pid_on (number : Nat) (act : Act) (job : Job) : (act.on number job).pid = job.pid := by
  simp [Job.pid]

theorem Act.terminal_on {number : Nat} (h : job.state.isTerminal) : (act.on number job).state.isTerminal := by
  unfold Act.on
  split
  · rename_i hon
    exact terminal_apply h hon.2
  · exact h

theorem Act.underway_on {number : Nat} (hs : job.state.isUnderway) (hact : ∀ now outcome, act ≠ .finish now outcome) :
    (act.on number job).state.isUnderway := by
  unfold Act.on
  split
  · rename_i h
    exact underway_apply hs h.2 hact
  · exact hs

/-! ### Jobs that have ended -/

/-- The same job, and the same about how it ended. -/
structure SameEnd (job later : Job) : Prop where
  number : later.number = job.number
  state : later.state = job.state
  startTime : later.startTime = job.startTime
  endTime : later.endTime = job.endTime
  context : later.context = job.context
  output : later.output = job.output

theorem SameEnd.refl (job : Job) : SameEnd job job := ⟨rfl,rfl,rfl,rfl,rfl,rfl⟩

theorem SameEnd.trans {later last : Job} (h : SameEnd job later) (hl : SameEnd later last) : SameEnd job last :=
  ⟨hl.number.trans h.number,hl.state.trans h.state,hl.startTime.trans h.startTime,hl.endTime.trans h.endTime,
    hl.context.trans h.context,hl.output.trans h.output⟩

/-- How long a job has run for no longer depends on the clock. -/
theorem SameEnd.runtime {later : Job} (h : SameEnd job later) (hend : job.endTime.isSome) (t u : Nat) :
    later.runtime u = job.runtime t := by
  obtain ⟨stop,hstop⟩ := Option.isSome_iff_exists.mp hend
  simp [Job.runtime, h.startTime, h.endTime, hstop]

/-- Nothing that can be done to a job that has ended changes how it did. -/
theorem Sound.sameEnd (h : Sound now job) (hterminal : job.state.isTerminal) (hfits : act.fits job.state)
    (hdue : act.Due now job.state) : SameEnd job (act.apply job) := by
  cases act with
  | begin => cases hs : job.state <;> simp_all [Act.fits, State.isTerminal]
  | remember => exact ⟨rfl,rfl,rfl,rfl,rfl,rfl⟩
  | finish time outcome =>
    have hs : job.state = .terminated := by
      obtain ⟨_,hrun⟩ := hdue
      cases hj : job.state <;> simp_all [State.isUnderway, State.isTerminal]
    rw [Act.apply, finish_terminated outcome hs (h.ended.mpr hterminal)]
    exact ⟨rfl,rfl,rfl,rfl,rfl,rfl⟩
  | kill => cases hs : job.state <;> simp_all [Act.fits, State.isTerminal, State.isActive]
  | suspend => cases hs : job.state <;> simp_all [Act.fits, State.isTerminal]
  | resume => cases hs : job.state <;> simp_all [Act.fits, State.isTerminal]
  | giveUp => cases hs : job.state <;> simp_all [Act.fits, State.isTerminal, State.isActive]
  | clear => exact ⟨rfl,rfl,rfl,rfl,rfl,rfl⟩

/-- The job has ended, and if that was by force its run has told so. -/
def Told (reply : String) (job : Job) : Prop :=
  job.state.isTerminal ∧ (job.state = .terminated → reply = "Process cancelled" ∧ job.error = "Process was cancelled")

theorem told_finish (now : Nat) (outcome : Outcome) (job : Job) : Told (job.finish now outcome).1 (job.finish now outcome).2 := by
  refine ⟨terminal_finish now outcome job,?_⟩
  simp only [finish]
  generalize (if job.state == .terminated then Outcome.cancelled else outcome) = last
  cases last <;> simp

theorem Told.apply {reply : String} (h : Told reply job) (hsound : Sound now job) (hfits : act.fits job.state)
    (hdue : act.Due now job.state) : Told reply (act.apply job) := by
  have hsame := hsound.sameEnd h.1 hfits hdue
  refine ⟨by rw [hsame.state]; exact h.1,fun hs => ?_⟩
  obtain ⟨hreply,herror⟩ := h.2 (hsame.state ▸ hs)
  refine ⟨hreply,?_⟩
  cases act with
  | finish time outcome =>
    rw [Act.apply, finish_terminated outcome (hsame.state ▸ hs) (hsound.ended.mpr h.1)]
  | giveUp time =>
    simp only [Act.apply]
    split
    · exact herror
    · exact herror
  | _ => exact herror

/-- A job that was ended by force at a moment, in the middle of a conversation. -/
structure Killed (moment : Nat) (conversation : List Message) (job : Job) : Prop where
  state : job.state = .terminated
  endTime : job.endTime = some moment
  context : job.context = conversation
  output : job.output = ""
  cancelled : job.cancelled

theorem Sound.killed (h : Sound now job) (hactive : job.state.isActive) : Killed now job.context (job.terminate now) :=
  ⟨rfl,rfl,rfl,h.of_active hactive |>.2.2.2,rfl⟩

/-! ### Moves -/

/-- What a job can be after a moment: the same, or what something makes of it that can be done to it. -/
inductive Moves (now : Nat) (job : Job) : Job → Prop
  | stays : Moves now job job
  | acted {act : Act} (hfits : act.fits job.state) (hdue : act.Due now job.state) : Moves now job (act.apply job)

theorem moves_on {number : Nat} (hdue : job.number = number → act.fits job.state → act.Due now job.state) :
    Moves now job (act.on number job) := by
  unfold Act.on
  split
  · rename_i h
    exact .acted h.2 (hdue h.1 h.2)
  · exact .stays

namespace Moves
variable {later : Job}

theorem number (h : Moves now job later) : later.number = job.number := by
  cases h with
  | stays => rfl
  | acted => exact Act.number_apply _ _

theorem sound (h : Moves now job later) (hj : Sound now job) : Sound now later := by
  cases h with
  | stays => exact hj
  | acted hfits hdue => exact hj.apply hfits hdue

theorem begun (h : Moves now job later) (hs : job.state ≠ .pending) :
    later.state ≠ .pending ∧ later.input = job.input := by
  cases h with
  | stays => exact ⟨hs,rfl⟩
  | acted hfits => exact Act.begun_apply hs hfits

theorem sameEnd (h : Moves now job later) (hj : Sound now job) (hterminal : job.state.isTerminal) :
    SameEnd job later := by
  cases h with
  | stays => exact .refl job
  | acted hfits hdue => exact hj.sameEnd hterminal hfits hdue

theorem told {reply : String} (h : Moves now job later) (hj : Sound now job) (ht : Told reply job) : Told reply later := by
  cases h with
  | stays => exact ht
  | acted hfits hdue => exact ht.apply hj hfits hdue

theorem killed {moment : Nat} {conversation : List Message} (h : Moves now job later) (hj : Sound now job)
    (hk : Killed moment conversation job) : Killed moment conversation later := by
  have hsame := h.sameEnd hj (by rw [hk.state]; rfl)
  refine ⟨hsame.state.trans hk.state,hsame.endTime.trans hk.endTime,hsame.context.trans hk.context,
    hsame.output.trans hk.output,?_⟩
  cases h with
  | stays => exact hk.cancelled
  | acted => exact Act.cancelled_apply _ hk.cancelled

end Moves
end Job
end VirtualShell.Agent
