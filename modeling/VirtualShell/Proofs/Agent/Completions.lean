import VirtualShell.Proofs.Agent.Updates

/-!
Completed runs and what they note. A run is completed by a reply that comes before anybody ends it; until then its call is
live, and once it has ended nothing brings it back to life. A run in a mode without a file leaves the shell as it is.
-/
namespace VirtualShell.Agent

/-! ### Noted runs -/

/-- A memory that tells of some runs and of the last one of them. -/
def noted (runs : UInt64) (input output : String) : Memories :=
  [("last_input",.string input),("last_output",.string output),("runs",.number (.natural runs))]

theorem legible_noted (runs : UInt64) (input output : String) : Legible (noted runs input output) := by
  have hkeys : ((noted runs input output).map Prod.fst).Pairwise (· < ·) :=
    show ["last_input", "last_output", "runs"].Pairwise (· < ·) by decide
  refine ⟨List.pairwise_map.mp hkeys,fun member hm => ?_⟩
  simp only [noted, List.mem_cons, List.not_mem_nil, or_false] at hm
  obtain rfl | rfl | rfl := hm
  · exact .string _
  · exact .string _
  · exact .natural _

theorem recordRun_nil (input output : String) : Job.recordRun input output [] = noted 1 input output := rfl

theorem recordRun_noted (runs : UInt64) (last reply input output : String) :
    Job.recordRun input output (noted runs last reply) = noted (runs + 1) input output := rfl

/-- What was saved is what its text stands for. -/
theorem decoded_noted (runs : UInt64) (input output : String) :
    Manager.decoded (.ok (some (Json.pretty 0 (.object (noted runs input output))))) = noted runs input output := by
  have h := legible_noted runs input output
  rw [Manager.decoded, Json.read_pretty (by simp [noted]) h.rising h.flat]

namespace Job
variable {job : Job} {now : Nat} {outcome : Outcome}

/-- A run is completed by a reply that comes before anybody ends it, and notes what it was given and what it replied. -/
theorem completed_finish (hdone : (job.finish now outcome).2.state = .completed) (hkept : job.definition.memory ≠ .none) :
    job.state ≠ .terminated ∧ (job.finish now outcome).1 = (job.finish now outcome).2.output ∧
      (job.finish now outcome).2.input = job.input ∧
      (job.finish now outcome).2.memory = recordRun job.input (job.finish now outcome).2.output job.memory := by
  have hstate : job.state ≠ .terminated := by
    intro hs
    simp [finish, hs] at hdone
  cases outcome with
  | completed text => simp [finish, hstate, hkept]
  | timedOut limit => simp [finish, hstate] at hdone
  | cancelled => simp [finish] at hdone
  | errored cause => simp [finish, hstate] at hdone

/-- A run that fails, times out, is given up or was ended by force is not completed. -/
theorem not_completed_finish (h : ∀ text, outcome = .completed text → job.state = .terminated) :
    (job.finish now outcome).2.state ≠ .completed := by
  intro hdone
  by_cases hs : job.state = .terminated
  · simp [finish, hs] at hdone
  · cases outcome with
    | completed text => exact hs (h text rfl)
    | timedOut limit => simp [finish, hs] at hdone
    | cancelled => simp [finish] at hdone
    | errored cause => simp [finish, hs] at hdone

end Job

/-! ### Modes without a file -/

namespace Manager
variable {σ : Type} [Storage σ] {m : Manager σ} {job : Job}

/-- A run in another mode looks nothing up. -/
theorem shell_start (h : m.Numbered) (hj : job ∈ m.jobs) (hmode : job.definition.memory ≠ .persistent) (now : Nat)
    (input : String) : ((start now job input).run m).2.shell = m.shell := by
  by_cases hpending : job.state = .pending
  · let begun : Manager σ := { m with jobs := m.jobs.map ((Job.Act.begin now input).on job.number) }
    have hbegin : (begin now job input).run m = pure (.ok (),begun) := run_begin h now input hj hpending
    have hlook : (memoryOf job : Managing σ Memories) = pure [] := by simp [memoryOf, hmode]
    have hnumbered : begun.Numbered := h.on _ _
    have hact : ((act job.number (.remember [])).run begun).2.shell = m.shell := by rw [run_act hnumbered]
    rw [← hact]
    simp only [start, StateT.run_bind, hbegin, hlook, pure_bind]
    rfl
  · rw [run_start_refused h now input hj hpending]

/-- A run in another mode saves nothing. -/
theorem shell_finish (h : m.Numbered) (hj : job ∈ m.jobs) (hmode : job.definition.memory ≠ .persistent) (now : Nat)
    (outcome : Job.Outcome) : ((finish now job outcome).run m).2.shell = m.shell := by
  rw [run_finish_eq h, h.job?_number hj, Option.getD_some, if_neg]
  simp [Job.definition_finish, hmode]

end Manager

namespace System
open VirtualShell.Legible Manager
variable {σ : Type} {s : System σ} {events : List (Event σ)} {event : Event σ} {name : String} {done : Job} {i k n : Nat}

/-! ### Runs that can be completed -/

/-- Whether a call runs an agent whose memory is kept under a name, and may yet complete its run. -/
def live (name : String) (s : System σ) (call : Call) : Bool :=
  call.isOpen && (s.manager.job? call.number).any fun job => job.keeps name && job.state.isActive

theorem live_iff {call : Call} : s.live name call ↔
    call.isOpen ∧ ∃ job, s.manager.job? call.number = some job ∧ job.keeps name ∧ job.state.isActive := by
  simp [live, Option.any_eq_true]

/-- One call at most may yet complete a run under a name. -/
def Alone (name : String) (s : System σ) : Prop := ∀ (i j : Nat) (call other : Call), s.calls[i]? = some call →
  s.calls[j]? = some other → s.live name call → s.live name other → i = j

/-- A job that was begun is active only if it was so before. -/
private theorem active_of_moves {now : Nat} {job later : Job} (h : job.Moves now later) (hbegun : job.state ≠ .pending)
    (hactive : later.state.isActive) : later.definition = job.definition ∧ job.state.isActive := by
  cases h with
  | stays => exact ⟨rfl,hactive⟩
  | @acted act hfits _ =>
    have hdefinition := Job.Act.definition_on job.number act job
    rw [Job.Act.on, if_pos ⟨rfl,hfits⟩] at hdefinition
    refine ⟨hdefinition,Job.Act.active_apply hfits ?_ hactive⟩
    rintro now input rfl
    exact hbegun (by simpa [Job.Act.fits] using hfits)

variable [Storage σ]

/-- Only a new call comes to life. -/
theorem Invariant.live_step (h : s.Invariant) {call later : Call} (hcall : s.calls[i]? = some call)
    (hlater : (s.step event).calls[i]? = some later) (hlive : (s.step event).live name later) : s.live name call := by
  have hchange := change_step h.numbered event
  obtain ⟨hopen,next,hnext,hkeeps,hactive⟩ := live_iff.mp hlive
  obtain ⟨earlier,hearlier,hgo⟩ | ⟨hend,_⟩ := hchange.call hlater
  · obtain rfl := Option.some.inj (hcall.symm.trans hearlier)
    obtain ⟨job,hj,hnumber,hunderway⟩ := h.underway call (List.mem_of_getElem? hcall) (hgo.isOpen hopen)
    obtain ⟨last,hl,hmoves⟩ := (h.jobsMove hchange).forth job hj
    obtain ⟨hn,hnext⟩ := Manager.mem_of_job? hnext
    have hsame : last.number = next.number := by rw [hnext, hgo.number, hmoves.number, hnumber]
    obtain rfl := (h.next event).numbered.eq_of_number hn hl hsame
    have hbegun : job.state ≠ .pending := by
      intro hs
      rw [hs] at hunderway
      cases hunderway
    obtain ⟨hdefinition,hbefore⟩ := active_of_moves hmoves hbegun hactive
    rw [Job.keeps, hdefinition] at hkeeps
    exact live_iff.mpr ⟨hgo.isOpen hopen,job,hnumber ▸ h.numbered.job?_number hj,hkeeps,hbefore⟩
  · have hi := (List.getElem?_eq_some_iff.mp hcall).1
    omega

/-- So the job of such a call was active before. -/
theorem Invariant.live_job (h : s.Invariant) {call later : Call} {job : Job} (hcall : s.calls[i]? = some call)
    (hjob : s.manager.job? call.number = some job) (hlater : (s.step event).calls[i]? = some later)
    (hlive : (s.step event).live name later) : s.live name call ∧ job.keeps name ∧ job.state.isActive := by
  have hbefore := h.live_step hcall hlater hlive
  obtain ⟨_,other,hother,hkeeps,hactive⟩ := live_iff.mp hbefore
  obtain rfl := Option.some.inj (hjob.symm.trans hother)
  exact ⟨hbefore,hkeeps,hactive⟩

omit [Storage σ] in
/-- A job of a call that asks is active if its run is completed. -/
theorem Invariant.active_of_saved (h : s.Invariant) {outcome : Job.Outcome} {job : Job}
    (hasking : s.asking? i = some job) (hdone : (job.finish s.now outcome).2.state = .completed) : job.state.isActive := by
  obtain ⟨number,input,hcall,hjob⟩ := asking?_eq_some.mp hasking
  obtain ⟨hj,hnumber⟩ := Manager.mem_of_job? hjob
  obtain ⟨other,ho,hother,hunderway⟩ := h.underway _ (List.mem_of_getElem? hcall) rfl
  obtain rfl := h.numbered.eq_of_number hj ho (hother.trans hnumber.symm)
  have hnot : other.state ≠ .terminated := fun hs => Job.not_completed_finish (fun _ _ => hs) hdone
  cases hs : other.state <;> simp_all [State.isUnderway, State.isActive]

omit [Storage σ] in
/-- Who saves is a call that asks, and that may complete its run. -/
theorem Invariant.live_of_saved (h : s.Invariant) (hsaved : s.saved? name event = some done) :
    ∃ i outcome call, event = .finish i outcome ∧ s.calls[i]? = some call ∧ call.stage = .asking ∧ s.live name call := by
  obtain ⟨i,outcome,job,rfl,hasking,rfl,hkeeps,hdone⟩ := saved?_eq_some hsaved
  have hactive := h.active_of_saved hasking hdone
  obtain ⟨number,input,hcall,hjob⟩ := asking?_eq_some.mp hasking
  rw [Job.keeps, Job.definition_finish] at hkeeps
  exact ⟨i,outcome,_,rfl,hcall,rfl,live_iff.mpr ⟨rfl,job,hjob,hkeeps,hactive⟩⟩

/-- A completed run is kept with its job, together with the reply, which is what its call answers. -/
theorem Invariant.saved_step (h : s.Invariant) (hsaved : s.saved? name event = some done) :
    (s.step event).manager.job? done.number = some done ∧
      ∃ i : Nat, (s.step event).calls[i]? = some ⟨done.number,done.input,.ended (.ok done.output)⟩ := by
  obtain ⟨i,outcome,job,rfl,hasking,rfl,hkeeps,hdone⟩ := saved?_eq_some hsaved
  obtain ⟨number,input,hcall,hjob⟩ := asking?_eq_some.mp hasking
  obtain ⟨hj,rfl⟩ := Manager.mem_of_job? hjob
  obtain ⟨other,ho,hnumber,_,hinput⟩ := h.past _ (List.mem_of_getElem? hcall) rfl
  obtain rfl := h.numbered.eq_of_number hj ho hnumber
  rw [Job.keeps, Job.definition_finish, ← Job.keeps] at hkeeps
  obtain ⟨_,hreply,hsame,_⟩ := Job.completed_finish hdone (Job.ne_none_of_keeps hkeeps)
  have hacted : (Job.Act.finish s.now outcome).on other.number other = (other.finish s.now outcome).2 := by
    simp [Job.Act.on, Job.Act.fits, Job.Act.apply]
  have hlast : (other.finish s.now outcome).2.number = other.number := Job.Act.number_apply (.finish s.now outcome) other
  have hstep : s.step (.finish i outcome) = { s with
      manager := ((Manager.finish s.now other outcome).run s.manager).2
      calls := s.calls.set i ⟨other.number,input,.ended (.ok ((Manager.finish s.now other outcome).run s.manager).1)⟩ } := by
    simp only [step, hcall, hjob, stageAt]
    rfl
  obtain ⟨shell,requests,hrun⟩ := Manager.run_finish h.numbered s.now outcome other
  rw [hjob, Option.getD_some] at hrun
  rw [hstep, hrun, hlast]
  refine ⟨?_,i,?_⟩
  · rw [Manager.job?_map (m := s.manager) rfl (Job.Act.number_on _ _), hjob, Option.map_some, hacted]
  · rw [List.getElem?_set_self (List.getElem?_eq_some_iff.mp hcall).1, hsame, hinput, hreply]

/-- A call that has ended asks no more. -/
theorem not_asking_finish {outcome : Job.Outcome} {job : Job} :
    (s.step (.finish i outcome)).asking? i ≠ some job := by
  intro hasking
  obtain ⟨_,_,hcall,_⟩ := asking?_eq_some.mp hasking
  cases hbefore : s.asking? i with
  | none =>
    rw [step_finish_idle hbefore, hbefore] at hasking
    cases hasking
  | some earlier =>
    obtain ⟨_,_,hearlier,hstep⟩ := step_finish hbefore outcome
    have hi := (List.getElem?_eq_some_iff.mp hearlier).1
    rw [hstep, List.getElem?_set_self hi] at hcall
    cases hcall

/-! ### Completed runs -/

/-- The jobs, as their runs ended, that completed a run under a name by a moment, the earliest first. -/
def completedBy (name : String) (s : System σ) (events : List (Event σ)) (n : Nat) : List Job :=
  (List.range n).filterMap fun m => events[m]?.bind ((s.moment events m).saved? name)

theorem completedBy_succ (hevent : events[n]? = some event) : completedBy name s events (n + 1) =
    completedBy name s events n ++ ((s.moment events n).saved? name event).toList := by
  have hlast : [n].filterMap (fun m => events[m]?.bind ((s.moment events m).saved? name)) =
      ((s.moment events n).saved? name event).toList := by
    rw [List.filterMap_cons, hevent, Option.bind_some]
    cases (s.moment events n).saved? name event <;> rfl
  rw [completedBy, List.range_succ, List.filterMap_append, hlast, completedBy]

theorem completedBy_unsaved (hevent : events[n]? = some event) (hnone : (s.moment events n).saved? name event = none) :
    completedBy name s events (n + 1) = completedBy name s events n := by
  rw [completedBy_succ hevent, hnone, Option.toList_none, List.append_nil]

theorem completedBy_saved (hevent : events[n]? = some event) (hsaved : (s.moment events n).saved? name event = some done) :
    completedBy name s events (n + 1) = completedBy name s events n ++ [done] := by
  rw [completedBy_succ hevent, hsaved, Option.toList_some]

theorem completedBy_grows (hkn : k ≤ n) (hn : n ≤ events.length) :
    completedBy name s events k <+: completedBy name s events n := by
  induction n, hkn using Nat.le_induction with
  | base => exact List.prefix_rfl
  | succ n hkn ih =>
    rw [completedBy_succ (List.getElem?_eq_getElem hn)]
    exact (ih (by omega)).trans (List.prefix_append _ _)

/-- A run that fails, times out, is given up or was killed is not among the completed ones. -/
theorem completedBy_finish {outcome : Job.Outcome} {job : Job} (hevent : events[n]? = some (.finish i outcome))
    (hasking : (s.moment events n).asking? i = some job) (hends : ∀ text, outcome = .completed text → job.state = .terminated) :
    completedBy name s events (n + 1) = completedBy name s events n := by
  refine completedBy_unsaved hevent ?_
  by_contra hsome
  obtain ⟨done,hsaved⟩ := Option.ne_none_iff_exists'.mp hsome
  obtain ⟨j,_,other,hwhat,hother,rfl,_,hdone⟩ := saved?_eq_some hsaved
  obtain ⟨rfl,rfl⟩ := Event.finish.inj hwhat
  obtain rfl := Option.some.inj (hasking.symm.trans hother)
  exact Job.not_completed_finish hends hdone

/-- What the last of some jobs has in memory, if there is one. -/
def lastMemory (jobs : List Job) : Memories := (jobs.getLast?.map Job.memory).getD []

theorem lastMemory_concat (jobs : List Job) (job : Job) : lastMemory (jobs ++ [job]) = job.memory := by
  simp [lastMemory]

theorem moment_calls_mono (h : s.Invariant) (hkn : k ≤ n) (hn : n ≤ events.length) :
    (s.moment events k).calls.length ≤ (s.moment events n).calls.length := by
  induction n, hkn using Nat.le_induction with
  | base => exact le_rfl
  | succ n hkn ih =>
    rw [moment_succ (List.getElem?_eq_getElem hn)]
    exact (ih (by omega)).trans (change_step (h.moment events n).numbered _).length_calls

end System
end VirtualShell.Agent
