import VirtualShell.Proofs.Agent.Lifecycle
import VirtualShell.Proofs.Agent.Memory

/-!
What one event makes of what agents remember. A run has what it found when it looked up, until it ends; and if it is
completed, that is what it adds itself to and saves.
-/
namespace VirtualShell.Agent
open Viewed

namespace Job
variable {job : Job}

/-- Whether what an agent remembers is kept under a name. -/
def keeps (name : String) (job : Job) : Bool := job.definition.memory == .persistent && job.definition.name == name

theorem ne_none_of_keeps {name : String} (h : job.keeps name) : job.definition.memory ≠ .none := by
  rw [keeps, Bool.and_eq_true, beq_iff_eq] at h
  simp [h.1]

theorem definition_finish (now : Nat) (outcome : Outcome) (job : Job) :
    (job.finish now outcome).2.definition = job.definition := Act.definition_apply (.finish now outcome) job

@[simp] theorem Act.definition_on (number : Nat) (act : Act) (job : Job) : (act.on number job).definition = job.definition := by
  unfold Act.on
  split
  · exact act.definition_apply job
  · rfl

/-- Only two acts change what a job has in memory. -/
theorem Act.memory_on {number : Nat} {act : Act} (hremember : ∀ memory, act ≠ .remember memory)
    (hfinish : ∀ now outcome, act ≠ .finish now outcome) (job : Job) : (act.on number job).memory = job.memory := by
  unfold Act.on
  split
  · cases act with
    | remember memory => exact absurd rfl (hremember memory)
    | finish now outcome => exact absurd rfl (hfinish now outcome)
    | giveUp now =>
      simp only [Act.apply]
      split <;> rfl
    | _ => rfl
  · rfl

/-- Only its end completes a run, and nothing takes that back. -/
theorem Act.completed_on {number : Nat} {act : Act} (hfinish : ∀ now outcome, act ≠ .finish now outcome) (job : Job) :
    ((act.on number job).state == .completed) = (job.state == .completed) := by
  unfold Act.on
  split
  · rename_i h
    have hfits := h.2
    cases act with
    | finish now outcome => exact absurd rfl (hfinish now outcome)
    | giveUp now =>
      simp only [Act.apply]
      split
      · cases hs : job.state <;> simp_all [State.isActive, terminate]
      · rfl
    | _ => cases hs : job.state <;> simp_all [Act.fits, Act.apply, State.isActive, terminate, Job.begin]
  · rfl

/-- A run that was completed is noted in what it had in memory. -/
theorem memory_of_completed {now : Nat} {outcome : Outcome} (hdone : (job.finish now outcome).2.state = .completed)
    (hkept : job.definition.memory ≠ .none) :
    ∃ text, (job.finish now outcome).2.memory = recordRun job.input text job.memory := by
  simp only [finish] at hdone ⊢
  generalize (if job.state == .terminated then Outcome.cancelled else outcome) = last at hdone ⊢
  cases last with
  | completed text => exact ⟨text,by simp [hkept]⟩
  | timedOut limit => cases hdone
  | cancelled => cases hdone
  | errored cause => cases hdone

end Job

namespace Manager
variable {σ : Type} {m : Manager σ}

/-- Where one job changes, one of a kind is added at most. -/
theorem Numbered.countP_on (h : m.Numbered) {job : Job} (hj : job ∈ m.jobs) (act : Job.Act) (kind : Job → Bool)
    (hkind : kind job = false) :
    (m.jobs.map (act.on job.number)).countP kind = m.jobs.countP kind + if kind (act.on job.number job) then 1 else 0 := by
  obtain ⟨before,after,hjobs⟩ := List.append_of_mem hj
  have hnodup : (m.jobs.map Job.number).Nodup := by
    rw [h.numbers]
    exact List.nodup_range'
  rw [hjobs, List.map_append, List.map_cons, List.nodup_middle, ← List.map_append] at hnodup
  have hsame : ∀ other ∈ before ++ after, act.on job.number other = other := by
    intro other ho
    have hne : other.number ≠ job.number := fun hn => (List.nodup_cons.mp hnodup).1 (hn ▸ List.mem_map_of_mem ho)
    simp [Job.Act.on, hne]
  have hbefore : before.map (act.on job.number) = before :=
    (List.map_congr_left fun other ho => hsame other (by simp [ho])).trans (List.map_id _)
  have hafter : after.map (act.on job.number) = after :=
    (List.map_congr_left fun other ho => hsame other (by simp [ho])).trans (List.map_id _)
  rw [hjobs, List.map_append, List.map_cons, hbefore, hafter]
  simp only [List.countP_append, List.countP_cons, hkind, Bool.false_eq_true, if_false]
  omega

end Manager

namespace System
variable {σ : Type} {s s' : System σ} {i : Nat}

/-- The job for which a call asks the model. -/
def asking? (s : System σ) (i : Nat) : Option Job :=
  match s.calls[i]? with
  | some ⟨number,_,.asking⟩ => s.manager.job? number
  | _ => none

theorem asking?_eq_some {job : Job} : s.asking? i = some job ↔
    ∃ number input, s.calls[i]? = some ⟨number,input,.asking⟩ ∧ s.manager.job? number = some job := by
  unfold asking?
  split
  · simp_all
  · rename_i hno
    simp only [reduceCtorEq, false_iff]
    rintro ⟨number,input,hcall,_⟩
    exact hno number input hcall

/-- A call that goes on asking, while something is done to a job. -/
private theorem asking?_on {number : Nat} {act : Job.Act} {later : Job} (hl : s'.asking? i = some later)
    (hjobs : s'.manager.jobs = s.manager.jobs.map (act.on number))
    (hcalls : ∀ n input, s'.calls[i]? = some ⟨n,input,.asking⟩ → s.calls[i]? = some ⟨n,input,.asking⟩) :
    ∃ job, s.asking? i = some job ∧ later = act.on number job := by
  obtain ⟨n,input,hcall,hfound⟩ := asking?_eq_some.mp hl
  rw [Manager.job?_map hjobs (Job.Act.number_on _ _)] at hfound
  obtain ⟨job,hjob,rfl⟩ := Option.map_eq_some_iff.mp hfound
  exact ⟨job,asking?_eq_some.mpr ⟨n,input,hcalls n input hcall,hjob⟩,rfl⟩

/-- A new call does not ask the model yet. -/
private theorem calls_concat {call : Call} (hs : call.stage ≠ .asking) (n : Nat) (input : String)
    (h : (s.calls ++ [call])[i]? = some ⟨n,input,.asking⟩) : s.calls[i]? = some ⟨n,input,.asking⟩ := by
  rw [List.getElem?_append] at h
  split at h
  · exact h
  · rw [List.getElem?_singleton] at h
    split at h
    · obtain rfl := Option.some.inj h
      exact absurd rfl hs
    · cases h

/-- When a call comes to another stage, the others stay where they are. -/
private theorem calls_set {j n : Nat} {call : Call} {input : String} (hij : j ≠ i)
    (h : (s.calls.set j call)[i]? = some ⟨n,input,.asking⟩) : s.calls[i]? = some ⟨n,input,.asking⟩ := by
  rwa [List.getElem?_set_ne hij] at h

/-- A call that asks is not the one that another call with the same job asks with. -/
private theorem Invariant.number_ne (h : s.Invariant) {j n : Nat} {job : Job} {input : String} {stage : Call.Stage} (hij : j ≠ i)
    (hcall : s.calls[j]? = some ⟨n,input,stage⟩) (hpast : Call.isPast ⟨n,input,stage⟩) (hasking : s.asking? i = some job) :
    job.number ≠ n := by
  rintro rfl
  obtain ⟨number,other,hi,hfound⟩ := asking?_eq_some.mp hasking
  obtain ⟨_,hn⟩ := Manager.mem_of_job? hfound
  exact hij (h.once j i _ _ hcall hi hpast rfl hn)

private theorem begun_of_set {j : Nat} {call other : Call} (hother : other.stage ≠ .begun) (hcall : call.stage = .begun)
    (h : (s.calls.set j other)[i]? = some call) : s.calls[i]? = some call := by
  rw [List.getElem?_set] at h
  split at h
  · split at h
    · obtain rfl := Option.some.inj h
      exact absurd hcall hother
    · cases h
  · exact h

/-- Only a new call has just begun its job. -/
theorem Change.begun_call (hc : Change s s') (hi : i < s.calls.length) {call : Call} (hstage : call.stage = .begun)
    (h : s'.calls[i]? = some call) : s.calls[i]? = some call := by
  cases hc with
  | idle _ _ hcalls => rwa [hcalls] at h
  | created _ _ _ _ hcalls => rwa [hcalls] at h
  | controlled _ _ _ _ hcalls => rwa [hcalls] at h
  | begun _ _ _ _ _ hcalls => rwa [hcalls, List.getElem?_append_left hi] at h
  | refused _ _ _ _ _ hcalls => rwa [hcalls, List.getElem?_append_left hi] at h
  | remembered _ _ _ _ _ _ hcalls => exact begun_of_set (by simp) hstage (hcalls ▸ h)
  | finished _ _ _ _ _ _ _ hcalls => exact begun_of_set (by simp) hstage (hcalls ▸ h)

theorem Change.length_calls (hc : Change s s') : s.calls.length ≤ s'.calls.length := by
  cases hc with
  | idle _ _ hcalls => rw [hcalls]
  | created _ _ _ _ hcalls => rw [hcalls]
  | controlled _ _ _ _ hcalls => rw [hcalls]
  | begun _ _ _ _ _ hcalls => simp [hcalls]
  | refused _ _ _ _ _ hcalls => simp [hcalls]
  | remembered _ _ _ _ _ _ hcalls => simp [hcalls, stageAt]
  | finished _ _ _ _ _ _ _ hcalls => simp [hcalls, stageAt]

variable [Storage σ]

theorem step_remember_begun {number : Nat} {input : String} (h : s.manager.Numbered)
    (hcall : s.calls[i]? = some ⟨number,input,.begun⟩) (memory : Memories) : s.step (.remember i memory) =
      { s with
        manager := { s.manager with jobs := s.manager.jobs.map ((Job.Act.remember memory).on number) }
        calls := s.calls.set i ⟨number,input,.asking⟩ } := by
  simp only [step, hcall, Manager.run_act h, stageAt]

/-- Only who has just begun a job remembers anything. -/
theorem step_remember_idle (hcall : ∀ call, s.calls[i]? = some call → call.stage ≠ .begun) (memory : Memories) :
    s.step (.remember i memory) = s := by
  simp only [step]
  split
  · rename_i call hc
    split
    · rename_i hs
      exact absurd hs (hcall call hc)
    · rfl
  · rfl

theorem step_finish {job : Job} (h : s.asking? i = some job) (outcome : Job.Outcome) : ∃ reply input,
    s.calls[i]? = some ⟨job.number,input,.asking⟩ ∧ s.step (.finish i outcome) =
      { s with
        manager := ((Manager.finish s.now job outcome).run s.manager).2
        calls := s.calls.set i ⟨job.number,input,.ended (.ok reply)⟩ } := by
  obtain ⟨number,input,hcall,hfound⟩ := asking?_eq_some.mp h
  obtain ⟨_,rfl⟩ := Manager.mem_of_job? hfound
  exact ⟨_,input,hcall,by simp only [step, hcall, hfound, stageAt]; rfl⟩

theorem step_finish_idle (h : s.asking? i = none) (outcome : Job.Outcome) : s.step (.finish i outcome) = s := by
  simp only [step]
  split
  · rename_i call hcall
    split
    · rename_i job hs hfound
      have hasking : s.asking? i = some job :=
        asking?_eq_some.mpr ⟨call.number,call.input,by rw [hcall, ← hs],hfound⟩
      rw [hasking] at h
      cases h
    · rfl
  · rfl

/-- What happens to jobs while they go on is done to one of them at most, and leaves the shell alone. -/
theorem Invariant.manager_step (h : s.Invariant) (event : Event σ)
    (helsewhere : ∀ shell poisoned requests, event ≠ .elsewhere shell poisoned requests)
    (hcreate : ∀ definition background, event ≠ .create definition background)
    (hfinish : ∀ i outcome, event ≠ .finish i outcome) :
    (s.step event).manager = s.manager ∨ ∃ number act table, (∀ now outcome, act ≠ .finish now outcome) ∧
      (s.step event).manager = { s.manager with jobs := s.manager.jobs.map (Job.Act.on number act), table } := by
  cases event with
  | tick moment => exact .inl rfl
  | elsewhere shell poisoned requests => exact absurd rfl (helsewhere shell poisoned requests)
  | create definition background => exact absurd rfl (hcreate definition background)
  | finish i outcome => exact absurd rfl (hfinish i outcome)
  | run number input =>
    cases hfound : s.manager.job? number with
    | none => exact .inl (by simp [step, hfound])
    | some job =>
      obtain ⟨hjob,rfl⟩ := Manager.mem_of_job? hfound
      by_cases hpending : job.state = .pending
      · refine .inr ⟨job.number,.begin s.now input,s.manager.table,by simp,?_⟩
        simp [step, hfound, Manager.run_begin h.numbered s.now input hjob hpending]
      · exact .inl (by simp [step, hfound, Manager.run_begin_refused h.numbered s.now input hjob hpending])
  | remember i memory =>
    by_cases hbegun : ∃ number input, s.calls[i]? = some ⟨number,input,.begun⟩
    · obtain ⟨number,input,hcall⟩ := hbegun
      exact .inr ⟨number,.remember memory,_,by simp,by rw [step_remember_begun h.numbered hcall]⟩
    · rw [step_remember_idle (fun call hc hs => hbegun ⟨call.number,call.input,by rw [hc, ← hs]⟩)]
      exact .inl rfl
  | control number control =>
    refine .inr ⟨number,control.act s.now,s.manager.table,fun now outcome => ?_,by simp [step, Manager.run_act h.numbered]⟩
    cases control <;> simp [Control.act]
  | drop pid =>
    rcases Manager.run_drop_cases h.numbered pid with hsame | ⟨job,_,_,hdrop⟩
    · exact .inl (by simp [step, hsame])
    · exact .inr ⟨job.number,.clear,Keyed.erase pid s.manager.table,by simp,by simp only [step, hdrop]⟩

/-- A call has been asking the model already, and its job has kept what it had in memory. -/
private def AsksOn (s : System σ) (i : Nat) (later : Job) : Prop :=
  ∃ job, s.asking? i = some job ∧ later.definition = job.definition ∧ later.memory = job.memory

omit [Storage σ] in
/-- Acts that leave the memory of the job leave a call asking. -/
private theorem asksOn_of_act {number : Nat} {act : Job.Act} {later : Job} (hl : s'.asking? i = some later)
    (hjobs : s'.manager.jobs = s.manager.jobs.map (act.on number))
    (hcalls : ∀ n input, s'.calls[i]? = some ⟨n,input,.asking⟩ → s.calls[i]? = some ⟨n,input,.asking⟩)
    (hmemory : ∀ job, s.asking? i = some job → (act.on number job).memory = job.memory) : AsksOn s i later := by
  obtain ⟨job,hasking,rfl⟩ := asking?_on hl hjobs hcalls
  exact ⟨job,hasking,by simp,hmemory job hasking⟩

theorem Invariant.asking?_create (h : s.Invariant) (definition : Definition) (background : Bool) :
    (s.step (.create definition background)).asking? i = s.asking? i := by
  refine Option.ext fun job => ?_
  rw [asking?_eq_some, asking?_eq_some]
  have hsame {number : Nat} {input : String} (hcall : s.calls[i]? = some ⟨number,input,.asking⟩) :
      (s.step (.create definition background)).manager.job? number = s.manager.job? number := by
    -- The job is there already, so the new one, at the end, is not the one found.
    obtain ⟨first,hfirst,rfl,_⟩ := h.underway _ (List.mem_of_getElem? hcall) rfl
    have hfound := h.numbered.job?_number hfirst
    rw [hfound]
    exact (List.find?_append ..).trans (by rw [show s.manager.jobs.find? _ = some first from hfound, Option.some_or])
  constructor
  · rintro ⟨number,input,hcall,hjob⟩
    exact ⟨number,input,hcall,hsame hcall ▸ hjob⟩
  · rintro ⟨number,input,hcall,hjob⟩
    exact ⟨number,input,hcall,(hsame hcall).trans hjob⟩

private theorem Invariant.asksOn_run (h : s.Invariant) {number : Nat} {input : String} {later : Job}
    (hl : (s.step (.run number input)).asking? i = some later) : AsksOn s i later := by
  cases hfound : s.manager.job? number with
  | none =>
    simp only [step, hfound] at hl
    exact ⟨later,hl,rfl,rfl⟩
  | some job =>
    obtain ⟨hjob,rfl⟩ := Manager.mem_of_job? hfound
    by_cases hpending : job.state = .pending
    · simp only [step, hfound, Manager.run_begin h.numbered s.now input hjob hpending] at hl
      exact asksOn_of_act hl rfl (calls_concat (by simp)) fun asking _ => Job.Act.memory_on (by simp) (by simp) asking
    · simp only [step, hfound, Manager.run_begin_refused h.numbered s.now input hjob hpending] at hl
      obtain ⟨n,text,hcall,hlater⟩ := asking?_eq_some.mp hl
      exact ⟨later,asking?_eq_some.mpr ⟨n,text,calls_concat (by simp) n text hcall,hlater⟩,rfl,rfl⟩

private theorem Invariant.asksOn_control (h : s.Invariant) {number : Nat} {control : Control} {later : Job}
    (hl : (s.step (.control number control)).asking? i = some later) : AsksOn s i later := by
  have hact : ∀ act, act = control.act s.now → (∀ memory, act ≠ .remember memory) ∧ ∀ now outcome, act ≠ .finish now outcome := by
    rintro act rfl
    cases control <;> simp [Control.act]
  obtain ⟨hremember,hfinish⟩ := hact _ rfl
  simp only [step, Manager.run_act h.numbered] at hl
  exact asksOn_of_act (s := s) hl rfl (fun _ _ hc => hc) fun asking _ => Job.Act.memory_on hremember hfinish asking

private theorem Invariant.asksOn_drop (h : s.Invariant) {pid : String} {later : Job}
    (hl : (s.step (.drop pid)).asking? i = some later) : AsksOn s i later := by
  rcases Manager.run_drop_cases h.numbered pid with hsame | ⟨job,_,_,hdrop⟩
  · simp only [step, hsame] at hl
    exact ⟨later,hl,rfl,rfl⟩
  · simp only [step, hdrop] at hl
    exact asksOn_of_act (s := s) hl rfl (fun _ _ hc => hc) fun asking _ => Job.Act.memory_on (by simp) (by simp) asking

/-- Of the calls that ask, one that has ended is none, and the others go on. -/
private theorem Invariant.asksOn_finish (h : s.Invariant) {j : Nat} {outcome : Job.Outcome} {later : Job}
    (hl : (s.step (.finish j outcome)).asking? i = some later) : AsksOn s i later := by
  cases hfound : s.asking? j with
  | none =>
    rw [step_finish_idle hfound] at hl
    exact ⟨later,hl,rfl,rfl⟩
  | some job =>
    obtain ⟨reply,input,hcall,hstep⟩ := step_finish hfound outcome
    obtain ⟨shell,requests,hrun⟩ := Manager.run_finish h.numbered s.now outcome job
    rw [hstep, hrun] at hl
    by_cases hij : j = i
    · subst hij
      obtain ⟨n,text,hasked,_⟩ := asking?_eq_some.mp hl
      obtain ⟨hlength,_⟩ := List.getElem?_eq_some_iff.mp hcall
      rw [List.getElem?_set_self hlength] at hasked
      cases hasked
    · refine asksOn_of_act (s := s) hl rfl (fun _ _ => calls_set hij) fun asking hasking => ?_
      simp [Job.Act.on, h.number_ne hij hcall rfl hasking]

/-- A call asks after a lookup if it did before, or if the lookup is its own and has just been made for its job. -/
private theorem Invariant.asking?_remember (h : s.Invariant) {j : Nat} {memory : Memories} {later : Job}
    (hl : (s.step (.remember j memory)).asking? i = some later) : AsksOn s i later ∨
      ∃ job number input, s.calls[i]? = some ⟨number,input,.begun⟩ ∧ s.manager.job? number = some job ∧ j = i ∧
        later = { job with memory } := by
  by_cases hbegun : ∃ number input, s.calls[j]? = some ⟨number,input,.begun⟩
  · obtain ⟨number,input,hcall⟩ := hbegun
    rw [step_remember_begun h.numbered hcall] at hl
    by_cases hij : j = i
    · subst hij
      obtain ⟨n,text,hasked,hlater⟩ := asking?_eq_some.mp hl
      obtain ⟨hlength,_⟩ := List.getElem?_eq_some_iff.mp hcall
      rw [List.getElem?_set_self hlength] at hasked
      cases hasked
      rw [Manager.job?_map (m := s.manager) rfl (Job.Act.number_on _ _)] at hlater
      obtain ⟨job,hjob,rfl⟩ := Option.map_eq_some_iff.mp hlater
      obtain ⟨_,hnumber⟩ := Manager.mem_of_job? hjob
      refine .inr ⟨job,number,input,hcall,hjob,rfl,?_⟩
      simp [Job.Act.on, hnumber, Job.Act.fits, Job.Act.apply]
    · refine .inl (asksOn_of_act hl rfl (fun _ _ => calls_set hij) fun asking hasking => ?_)
      simp [Job.Act.on, h.number_ne hij hcall rfl hasking]
  · rw [step_remember_idle (fun call hc hs => hbegun ⟨call.number,call.input,by rw [hc, ← hs]⟩)] at hl
    exact .inl ⟨later,hl,rfl,rfl⟩

/-- As long as a call asks the model, its job has what the call looked up for it. -/
theorem Invariant.asking?_step (h : s.Invariant) (event : Event σ) {later : Job} (hl : (s.step event).asking? i = some later) :
    ∃ job, later.definition = job.definition ∧
      ((s.asking? i = some job ∧ later.memory = job.memory) ∨
        ∃ number input, s.calls[i]? = some ⟨number,input,.begun⟩ ∧ s.manager.job? number = some job ∧
          event = .remember i later.memory) := by
  suffices hasks : AsksOn s i later ∨ ∃ job number input, s.calls[i]? = some ⟨number,input,.begun⟩ ∧
      s.manager.job? number = some job ∧ ∃ memory, event = .remember i memory ∧ later = { job with memory } by
    obtain ⟨job,hasking,hdefinition,hmemory⟩ | ⟨job,number,input,hcall,hjob,memory,rfl,rfl⟩ := hasks
    · exact ⟨job,hdefinition,.inl ⟨hasking,hmemory⟩⟩
    · exact ⟨job,rfl,.inr ⟨number,input,hcall,hjob,rfl⟩⟩
  cases event with
  | tick moment => exact .inl ⟨later,hl,rfl,rfl⟩
  | elsewhere shell poisoned requests => exact .inl ⟨later,hl,rfl,rfl⟩
  | create definition background => exact .inl ⟨later,(h.asking?_create definition background).symm.trans hl,rfl,rfl⟩
  | run number input => exact .inl (h.asksOn_run hl)
  | finish j outcome => exact .inl (h.asksOn_finish hl)
  | control number control => exact .inl (h.asksOn_control hl)
  | drop pid => exact .inl (h.asksOn_drop hl)
  | remember j memory =>
    refine (h.asking?_remember hl).imp_right ?_
    rintro ⟨job,number,input,hcall,hjob,rfl,hlater⟩
    exact ⟨job,number,input,hcall,hjob,memory,rfl,hlater⟩

/-! ### What is saved -/

/-- What the agents of a name find when they look up what they remember. -/
def stored (name : String) (s : System σ) : Memories := ((Manager.loadMemory name).run s.manager).1

omit [Storage σ] in
/-- How many runs of agents whose memory is kept under a name have been completed. -/
def completed (name : String) (s : System σ) : Nat :=
  s.manager.jobs.countP fun job => job.keeps name && job.state == .completed

omit [Storage σ] in
/-- The job, as its run ends, when an event completes a run of an agent whose memory is kept under a name. -/
def saved? (name : String) (s : System σ) : Event σ → Option Job
  | .finish i outcome => ((s.asking? i).map fun job => (job.finish s.now outcome).2).filter fun done =>
    done.keeps name && done.state == .completed
  | _ => none

omit [Storage σ] in
theorem saved?_eq_some {name : String} {event : Event σ} {done : Job} (h : s.saved? name event = some done) :
    ∃ i outcome job, event = .finish i outcome ∧ s.asking? i = some job ∧ done = (job.finish s.now outcome).2 ∧
      done.keeps name ∧ done.state = .completed := by
  cases event with
  | finish i outcome =>
    obtain ⟨hmap,hkind⟩ := Option.filter_eq_some_iff.mp h
    obtain ⟨job,hjob,rfl⟩ := Option.map_eq_some_iff.mp hmap
    rw [Bool.and_eq_true, beq_iff_eq] at hkind
    exact ⟨i,outcome,job,rfl,hjob,rfl,hkind⟩
  | _ => cases h

omit [Storage σ] in
/-- An event saves the memory of one job at most, under one name. -/
theorem saved?_unique {name other : String} {event : Event σ} {done last : Job} (h : s.saved? name event = some done)
    (hother : s.saved? other event = some last) : other = name ∧ last = done := by
  obtain ⟨i,outcome,job,rfl,hasking,rfl,hkeeps,_⟩ := saved?_eq_some h
  obtain ⟨j,_,asking,hevent,hfound,rfl,hlast,_⟩ := saved?_eq_some hother
  obtain ⟨rfl,rfl⟩ := Event.finish.inj hevent
  obtain rfl := Option.some.inj (hasking.symm.trans hfound)
  simp only [Job.keeps, Bool.and_eq_true, beq_iff_eq] at hkeeps hlast
  exact ⟨hlast.2.symm.trans hkeeps.2,rfl⟩

omit [Storage σ] in
/-- What is saved is what the run had, with the run noted in it. -/
theorem memory_of_saved {name : String} {event : Event σ} {done : Job} (h : s.saved? name event = some done) :
    ∃ i outcome job text, event = .finish i outcome ∧ s.asking? i = some job ∧ job.keeps name ∧
      done.memory = Job.recordRun job.input text job.memory := by
  obtain ⟨i,outcome,job,rfl,hasking,rfl,hkeeps,hstate⟩ := saved?_eq_some h
  have hjob : job.keeps name := by rwa [Job.keeps, Job.definition_finish] at hkeeps
  obtain ⟨text,hmemory⟩ := Job.memory_of_completed hstate (Job.ne_none_of_keeps hjob)
  exact ⟨i,outcome,job,text,rfl,hasking,hjob,hmemory⟩

/-- What leaves the shell alone leaves what is stored. -/
private theorem stored_congr (name : String) (hshell : s'.manager.shell = s.manager.shell)
    (hpoisoned : s'.manager.poisoned = s.manager.poisoned) : s'.stored name = s.stored name := by
  rw [stored, stored, Manager.loadMemory_eq, Manager.loadMemory_eq, hshell, hpoisoned]

/-- The count of completed runs goes up by one when such a run is completed, and stays otherwise. -/
theorem Invariant.completed_step (h : s.Invariant) (name : String) (event : Event σ) :
    (s.step event).completed name = s.completed name + if (s.saved? name event).isSome then 1 else 0 := by
  have hon {number : Nat} {act : Job.Act} (hfinish : ∀ now outcome, act ≠ .finish now outcome) :
      (s.manager.jobs.map (act.on number)).countP (fun job => job.keeps name && job.state == .completed) = s.completed name := by
    rw [List.countP_map, completed]
    congr 1
    funext job
    simp [Job.keeps, Job.Act.completed_on hfinish]
  have hgoing := h.manager_step event
  cases event with
  | elsewhere shell poisoned requests => rfl
  | create definition background =>
    change (s.manager.jobs ++ [_]).countP _ = _
    simp [List.countP_append, Job.new, completed, saved?]
  | finish i outcome =>
    cases hfound : s.asking? i with
    | none => simp [step_finish_idle hfound, saved?, hfound]
    | some job =>
      obtain ⟨reply,input,hcall,hstep⟩ := step_finish hfound outcome
      obtain ⟨shell,requests,hrun⟩ := Manager.run_finish h.numbered s.now outcome job
      obtain ⟨other,hother,hnumber,hunderway⟩ := h.underway _ (List.mem_of_getElem? hcall) rfl
      obtain ⟨_,_,_,hjob⟩ := asking?_eq_some.mp hfound
      obtain ⟨hj,_⟩ := Manager.mem_of_job? hjob
      obtain rfl := h.numbered.eq_of_number hj hother hnumber
      have hopen : other.state ≠ .completed := by
        intro hs
        rw [hs] at hunderway
        cases hunderway
      rw [hstep, hrun]
      refine (h.numbered.countP_on hother (.finish s.now outcome) _ (by simp [hopen])).trans ?_
      have hdone : (Job.Act.finish s.now outcome).on other.number other = (other.finish s.now outcome).2 := by
        simp [Job.Act.on, Job.Act.fits, Job.Act.apply]
      rw [hdone, completed, saved?, hfound, Option.map_some, Option.filter_some]
      split <;> rfl
  | _ =>
    obtain hsame | ⟨number,act,_,hfinish,hacted⟩ := hgoing (by simp) (by simp) (by simp)
    · rw [completed, hsame]
      rfl
    · rw [completed, hacted]
      exact hon hfinish

/-- Where a run ends, what it remembers is saved if it was completed; otherwise the shell is left alone. -/
theorem Invariant.manager_finish (h : s.Invariant) (i : Nat) (outcome : Job.Outcome) : ∃ jobs,
    ((∀ name, s.saved? name (.finish i outcome) = none) ∧
      (s.step (.finish i outcome)).manager = { s.manager with jobs }) ∨
    ∃ done, s.saved? done.definition.name (.finish i outcome) = some done ∧
      (s.step (.finish i outcome)).manager =
        ((Manager.saveMemory done.definition.name done.memory).run { s.manager with jobs }).2 := by
  cases hasking : s.asking? i with
  | none =>
    refine ⟨s.manager.jobs,.inl ⟨fun name => by simp [saved?, hasking],?_⟩⟩
    rw [step_finish_idle hasking]
  | some job =>
    obtain ⟨reply,input,_,hstep⟩ := step_finish hasking outcome
    obtain ⟨_,_,_,hjob⟩ := asking?_eq_some.mp hasking
    obtain ⟨_,rfl⟩ := Manager.mem_of_job? hjob
    refine ⟨s.manager.jobs.map ((Job.Act.finish s.now outcome).on job.number),?_⟩
    rw [hstep, Manager.run_finish_eq h.numbered, hjob, Option.getD_some]
    split
    · rename_i hsaves
      refine .inr ⟨_,?_,rfl⟩
      rw [Bool.and_comm] at hsaves
      simpa [saved?, hasking, Job.keeps] using hsaves
    · rename_i hsaves
      refine .inl ⟨fun name => ?_,rfl⟩
      have hidle :
          ¬((job.finish s.now outcome).2.keeps name && (job.finish s.now outcome).2.state == .completed) := by
        simp only [Job.keeps, Bool.and_eq_true] at hsaves ⊢
        exact fun h => hsaves ⟨h.2,h.1.1⟩
      rw [saved?, hasking, Option.map_some, Option.filter_some, if_neg hidle]

variable [LawfulNodes σ]

/--
An event as it should be: an agent with the name looks up what is stored, its saves are accepted, and nothing else
writes that file, under another name or from elsewhere.
-/
def Faithful (name : String) (s : System σ) : Event σ → Prop
  | .elsewhere shell poisoned requests =>
    Sound shell.session.fs ∧ (s.step (.elsewhere shell poisoned requests)).stored name = s.stored name
  | .remember i memory => ∀ number input job, s.calls[i]? = some ⟨number,input,.begun⟩ → s.manager.job? number = some job →
    job.keeps name → memory = s.stored name
  | .finish i outcome => ∀ other done, s.saved? other (.finish i outcome) = some done →
    Path.segments (Manager.memoryPath other) = Path.segments (Manager.memoryPath name) →
    other = name ∧ s.manager.Accepts name done.memory
  | _ => True

theorem Faithful.accepted {name : String} {event : Event σ} {done : Job} (h : Faithful name s event)
    (hsaved : s.saved? name event = some done) : s.manager.Accepts name done.memory := by
  obtain ⟨i,outcome,_,rfl,_⟩ := saved?_eq_some hsaved
  exact (h name done hsaved rfl).2

/-- What is not saved leaves what is stored. -/
theorem Invariant.spared (h : s.Invariant) (hs : Sound s.manager.shell.session.fs) {name : String} {event : Event σ}
    (hf : Faithful name s event) (hsaved : s.saved? name event = none) : (s.step event).stored name = s.stored name := by
  have hgoing := h.manager_step event
  cases event with
  | elsewhere shell poisoned requests => exact hf.2
  | create definition background => exact stored_congr name rfl rfl
  | finish i outcome =>
    obtain ⟨jobs,⟨_,hended⟩ | ⟨done,hdone,hended⟩⟩ := h.manager_finish i outcome
    · exact stored_congr name (by rw [hended]) (by rw [hended])
    · have hother : Path.segments (Manager.memoryPath name) ≠ Path.segments (Manager.memoryPath done.definition.name) := by
        intro hsame
        obtain ⟨hname,_⟩ := hf _ done hdone hsame.symm
        rw [hname, hsaved] at hdone
        cases hdone
      rw [stored, hended, Manager.loadMemory_saveMemory_ne (m := { s.manager with jobs }) hs done.memory hother]
      change stored name { s with manager := { s.manager with jobs } } = s.stored name
      exact stored_congr name rfl rfl
  | _ =>
    obtain hsame | ⟨number,act,_,_,hacted⟩ := hgoing (by simp) (by simp) (by simp)
    · exact stored_congr name (by rw [hsame]) (by rw [hsame])
    · exact stored_congr name (by rw [hacted]) (by rw [hacted])

theorem Invariant.sound_step (h : s.Invariant) (hs : Sound s.manager.shell.session.fs) {name : String} {event : Event σ}
    (hf : Faithful name s event) : Sound (s.step event).manager.shell.session.fs := by
  have hgoing := h.manager_step event
  cases event with
  | elsewhere shell poisoned requests => exact hf.1
  | create definition background => exact hs
  | finish i outcome =>
    obtain ⟨jobs,⟨_,hended⟩ | ⟨done,_,hended⟩⟩ := h.manager_finish i outcome
    · rw [hended]
      exact hs
    · rw [hended]
      exact Manager.sound_saveMemory (m := { s.manager with jobs }) hs _ _
  | _ =>
    obtain hsame | ⟨number,act,_,_,hacted⟩ := hgoing (by simp) (by simp) (by simp)
    · rwa [hsame]
    · rw [hacted]
      exact hs

/-- A memory whose save is accepted is what is stored then. -/
theorem Invariant.stored_step (h : s.Invariant) (hs : Sound s.manager.shell.session.fs) {name : String} {event : Event σ}
    {done : Job} (hsaved : s.saved? name event = some done) (haccepted : s.manager.Accepts name done.memory)
    (hl : Legible done.memory) (hne : done.memory ≠ []) : (s.step event).stored name = done.memory := by
  obtain ⟨i,outcome,_,rfl,_⟩ := saved?_eq_some hsaved
  obtain ⟨jobs,⟨hnone,_⟩ | ⟨other,hother,hended⟩⟩ := h.manager_finish i outcome
  · cases hsaved.symm.trans (hnone name)
  · obtain ⟨rfl,rfl⟩ := saved?_unique hsaved hother
    rw [stored, hended]
    exact Manager.loadMemory_saveMemory (m := { s.manager with jobs }) hs ⟨haccepted.usable,haccepted.accepted⟩ hl hne

end System
end VirtualShell.Agent
