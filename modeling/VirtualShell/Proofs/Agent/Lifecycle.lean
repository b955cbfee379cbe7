import VirtualShell.Proofs.Agent.Interleaving

/-!
The life of a job under every interleaving of events. One call at most runs it, its times and its conversation fit
its state, and how it ended never changes.
-/
namespace VirtualShell.Agent.System
variable {σ : Type} {s s' : System σ}

/-! ### The invariant -/

/-- What holds at every time: above all, a call that has not replied belongs to a job whose run is under way. -/
structure Invariant (s : System σ) : Prop where
  numbered : s.manager.Numbered
  sound : ∀ job ∈ s.manager.jobs, job.Sound s.now
  /-- Who got past the check has begun the job, with the input of the call. -/
  past : ∀ call ∈ s.calls, call.isPast →
    ∃ job ∈ s.manager.jobs, job.number = call.number ∧ job.state ≠ .pending ∧ job.input = call.input
  underway : ∀ call ∈ s.calls, call.isOpen → ∃ job ∈ s.manager.jobs, job.number = call.number ∧ job.state.isUnderway
  once : ∀ (i j : Nat) (call other : Call), s.calls[i]? = some call → s.calls[j]? = some other → call.isPast → other.isPast →
    call.number = other.number → i = j
  refused : ∀ call ∈ s.calls, ¬call.isPast → call.stage = .ended (.error (.notPending s!"agent_{call.number}"))

theorem invariant_new (shell : Shell σ) (model : Model) (limit : Option Nat) :
    Invariant (new (Manager.new shell model limit)) where
  numbered := Manager.numbered_new shell model limit
  sound := by simp [new, Manager.new]
  past := by simp [new]
  underway := by simp [new]
  once := by simp [new]
  refused := by simp [new]

/-! ### One change -/

/-- An open call keeps its job from being finished by others. -/
private theorem Invariant.due (h : Invariant s) {job : Job} {call : Call} (outcome : Job.Outcome) (hcall : call ∈ s.calls)
    (hopen : call.isOpen) (hj : job ∈ s.manager.jobs) (hn : job.number = call.number) :
    (Job.Act.finish s.now outcome).Due s.now job.state := by
  obtain ⟨other,ho,hnumber,hrun⟩ := h.underway call hcall hopen
  rw [h.numbered.eq_of_number hj ho (hnumber.trans hn.symm)] at hrun
  exact ⟨rfl,hrun⟩

/-- Every job makes one move, and new ones may be added. -/
structure JobsMove (s s' : System σ) : Prop where
  now : s.now ≤ s'.now
  forth : ∀ job ∈ s.manager.jobs, ∃ later ∈ s'.manager.jobs, job.Moves s.now later
  back : ∀ later ∈ s'.manager.jobs, (∃ job ∈ s.manager.jobs, job.Moves s.now later) ∨
    ∃ number definition background, later = .new number definition background

private theorem jobsMove_same (hnow : s.now ≤ s'.now) (hjobs : s'.manager.jobs = s.manager.jobs) : JobsMove s s' where
  now := hnow
  forth job hj := ⟨job,hjobs ▸ hj,.stays⟩
  back job hj := .inl ⟨job,hjobs ▸ hj,.stays⟩

private theorem jobsMove_on {number : Nat} {act : Job.Act} (hnow : s'.now = s.now)
    (hjobs : s'.manager.jobs = s.manager.jobs.map (act.on number))
    (hdue : ∀ job ∈ s.manager.jobs, job.number = number → act.Due s.now job.state) : JobsMove s s' where
  now := Nat.le_of_eq hnow.symm
  forth job hj :=
    ⟨act.on number job,hjobs ▸ List.mem_map_of_mem hj,Job.moves_on fun hn _ => hdue job hj hn⟩
  back later hl := by
    rw [hjobs] at hl
    obtain ⟨job,hj,rfl⟩ := List.mem_map.mp hl
    exact .inl ⟨job,hj,Job.moves_on fun hn _ => hdue job hj hn⟩

theorem Invariant.jobsMove (h : Invariant s) (hc : Change s s') : JobsMove s s' := by
  cases hc with
  | idle hnow hjobs => exact jobsMove_same hnow hjobs
  | created definition background hnow hjobs =>
    refine ⟨Nat.le_of_eq hnow.symm,fun job hj => ⟨job,?_,.stays⟩,fun later hl => ?_⟩
    · rw [hjobs]
      exact List.mem_append_left _ hj
    · rw [hjobs, List.mem_append, List.mem_singleton] at hl
      rcases hl with hl | rfl
      · exact .inl ⟨later,hl,.stays⟩
      · exact .inr ⟨_,_,_,rfl⟩
  | begun input _ _ hnow hjobs => exact jobsMove_on hnow hjobs fun _ _ _ => rfl
  | refused _ _ _ hnow hjobs => exact jobsMove_same (Nat.le_of_eq hnow.symm) hjobs
  | remembered i memory _ _ hnow hjobs => exact jobsMove_on hnow hjobs fun _ _ _ => trivial
  | finished i outcome _ hcall hopen hnow hjobs =>
    exact jobsMove_on hnow hjobs fun job hj hn => h.due outcome (List.mem_of_getElem? hcall) hopen hj hn
  | controlled number control hnow hjobs =>
    exact jobsMove_on hnow hjobs fun _ _ _ => by cases control <;> first | rfl | trivial

private theorem Invariant.sound_change (h : Invariant s) (hc : Change s s') : ∀ job ∈ s'.manager.jobs, job.Sound s'.now := by
  obtain ⟨hnow,_,hback⟩ := h.jobsMove hc
  intro later hl
  rcases hback later hl with ⟨job,hj,hmoves⟩ | ⟨number,definition,background,rfl⟩
  · exact (hmoves.sound (h.sound job hj)).later hnow
  · exact Job.sound_new number definition background

/-! ### Calls -/

private theorem isPast_of_isOpen {call : Call} (h : call.isOpen) : call.isPast := by
  obtain ⟨number,input,stage⟩ := call
  cases stage <;> simp_all [Call.isOpen, Call.isPast]

/-- How a call goes on: it stays where it is, or comes further if it has not replied. -/
inductive Continues (call : Call) : Call → Prop
  | same : Continues call call
  | onward {stage : Call.Stage} (hopen : call.isOpen) (hpast : Call.isPast { call with stage }) :
    Continues call { call with stage }

/-- Where a new call stands: it has begun its job, or it was refused. -/
inductive Arrives (s s' : System σ) : Call → Prop
  | begun {job : Job} {input : String} (hj : job ∈ s.manager.jobs) (hpending : job.state = .pending)
    (hbegun : job.begin s.now input ∈ s'.manager.jobs) : Arrives s s' ⟨job.number,input,.begun⟩
  | refused (job : Job) (input : String) : Arrives s s' ⟨job.number,input,.ended (.error (.notPending job.pid))⟩

private theorem get_concat {call last : Call} {i : Nat} (h : (s.calls ++ [last])[i]? = some call) :
    s.calls[i]? = some call ∨ i = s.calls.length ∧ call = last := by
  rw [List.getElem?_append] at h
  split at h
  · exact .inl h
  · rename_i hi
    rw [List.getElem?_singleton] at h
    split at h
    · exact .inr ⟨by omega,(Option.some.inj h).symm⟩
    · cases h

private theorem get_stageAt {call later : Call} {stage : Call.Stage} {i j : Nat} (hcall : s.calls[i]? = some call)
    (hopen : call.isOpen) (hpast : Call.isPast { call with stage }) (h : (s.stageAt i call stage)[j]? = some later) :
    ∃ earlier, s.calls[j]? = some earlier ∧ Continues earlier later := by
  rw [stageAt, List.getElem?_set] at h
  split at h
  · rename_i hij
    split at h
    · cases h
      exact ⟨call,hij ▸ hcall,.onward hopen hpast⟩
    · cases h
  · exact ⟨later,h,.same⟩

/-- What became of a call in a change. -/
theorem Change.call (hc : Change s s') {i : Nat} {later : Call} (h : s'.calls[i]? = some later) :
    (∃ call, s.calls[i]? = some call ∧ Continues call later) ∨ i = s.calls.length ∧ Arrives s s' later := by
  cases hc with
  | idle _ _ hcalls => exact .inl ⟨later,hcalls ▸ h,.same⟩
  | created _ _ _ _ hcalls => exact .inl ⟨later,hcalls ▸ h,.same⟩
  | controlled _ _ _ _ hcalls => exact .inl ⟨later,hcalls ▸ h,.same⟩
  | @begun job input hj hpending _ hjobs hcalls =>
    rw [hcalls] at h
    rcases get_concat h with h | ⟨hi,rfl⟩
    · exact .inl ⟨later,h,.same⟩
    · refine .inr ⟨hi,.begun hj hpending ?_⟩
      rw [hjobs]
      exact List.mem_map.mpr ⟨job,hj,by simp [Job.Act.on, Job.Act.fits, Job.Act.apply, hpending]⟩
  | @refused job input _ _ _ _ hcalls =>
    rw [hcalls] at h
    rcases get_concat h with h | ⟨hi,rfl⟩
    · exact .inl ⟨later,h,.same⟩
    · exact .inr ⟨hi,.refused job input⟩
  | remembered i memory hcall hopen _ _ hcalls => exact .inl (get_stageAt hcall hopen rfl (hcalls ▸ h))
  | finished i outcome _ hcall hopen _ _ hcalls => exact .inl (get_stageAt hcall hopen rfl (hcalls ▸ h))

namespace Continues
variable {call later : Call}

theorem number (h : Continues call later) : later.number = call.number := by cases h <;> rfl

theorem input (h : Continues call later) : later.input = call.input := by cases h <;> rfl

theorem isPast (h : Continues call later) : later.isPast = call.isPast := by
  cases h with
  | same => rfl
  | onward hopen hpast => rw [hpast, isPast_of_isOpen hopen]

theorem isOpen (h : Continues call later) (hopen : later.isOpen) : call.isOpen := by
  cases h with
  | same => exact hopen
  | onward hopen' => exact hopen'

theorem eq (h : Continues call later) (hpast : ¬later.isPast) : later = call := by
  cases h with
  | same => rfl
  | onward _ hpast' => exact absurd hpast' hpast

end Continues

/-! ### The invariant holds always -/

private theorem Invariant.past_change (h : Invariant s) (hc : Change s s') : ∀ call ∈ s'.calls, call.isPast →
    ∃ job ∈ s'.manager.jobs, job.number = call.number ∧ job.state ≠ .pending ∧ job.input = call.input := by
  intro later hl hpast
  obtain ⟨i,hi⟩ := List.getElem?_of_mem hl
  rcases hc.call hi with ⟨call,hcall,hgo⟩ | ⟨_,hnew⟩
  · obtain ⟨job,hj,hnumber,hs,hinput⟩ := h.past call (List.mem_of_getElem? hcall) (hgo.isPast ▸ hpast)
    obtain ⟨next,hn,hmoves⟩ := (h.jobsMove hc).forth job hj
    obtain ⟨hs',hinput'⟩ := hmoves.begun hs
    rw [hgo.number, hgo.input]
    exact ⟨next,hn,hmoves.number.trans hnumber,hs',hinput'.trans hinput⟩
  · cases hnew with
    | begun hj hpending hbegun => exact ⟨_,hbegun,rfl,by simp [Job.begin],rfl⟩
    | refused => cases hpast

/-- A job with an open call stays under way, unless that call ends its run. -/
private theorem Invariant.underway_forth (h : Invariant s) (hc : Change s s') {i : Nat} {call later : Call}
    (hi : s.calls[i]? = some call) (hl : s'.calls[i]? = some later) (hopen : later.isOpen) (hgo : Continues call later) :
    ∃ job ∈ s'.manager.jobs, job.number = call.number ∧ job.state.isUnderway := by
  have hcall := hgo.isOpen hopen
  obtain ⟨job,hj,hn,hrun⟩ := h.underway call (List.mem_of_getElem? hi) hcall
  have hon {number : Nat} {act : Job.Act} (hjobs : s'.manager.jobs = s.manager.jobs.map (act.on number))
      (hact : ∀ now outcome, act ≠ .finish now outcome) :
      ∃ job ∈ s'.manager.jobs, job.number = call.number ∧ job.state.isUnderway :=
    ⟨act.on number job,hjobs ▸ List.mem_map_of_mem hj,by simp [hn],Job.Act.underway_on hrun hact⟩
  cases hc with
  | idle _ hjobs => exact ⟨job,hjobs ▸ hj,hn,hrun⟩
  | created _ _ _ hjobs => exact ⟨job,by simp [hjobs, hj],hn,hrun⟩
  | refused _ _ _ _ hjobs => exact ⟨job,hjobs ▸ hj,hn,hrun⟩
  | begun _ _ _ _ hjobs => exact hon hjobs (by simp)
  | remembered _ _ _ _ _ hjobs => exact hon hjobs (by simp)
  | controlled _ control _ hjobs => exact hon hjobs (by cases control <;> simp [Control.act])
  | @finished last k outcome _ hk hlast _ hjobs hcalls =>
    -- Another call ends its run, and that is the run of another job.
    have hki : k ≠ i := by
      rintro rfl
      obtain ⟨hlength,_⟩ := List.getElem?_eq_some_iff.mp hk
      rw [hcalls, stageAt, List.getElem?_set_self hlength] at hl
      cases hl
      cases hopen
    have hne : job.number ≠ last.number := fun he =>
      hki (h.once k i last call hk hi (isPast_of_isOpen hlast) (isPast_of_isOpen hcall) (he.symm.trans hn))
    refine ⟨job,?_,hn,hrun⟩
    rw [hjobs]
    exact List.mem_map.mpr ⟨job,hj,by simp [Job.Act.on, hne]⟩

private theorem Invariant.underway_change (h : Invariant s) (hc : Change s s') : ∀ call ∈ s'.calls, call.isOpen →
    ∃ job ∈ s'.manager.jobs, job.number = call.number ∧ job.state.isUnderway := by
  intro later hl hopen
  obtain ⟨i,hi⟩ := List.getElem?_of_mem hl
  rcases hc.call hi with ⟨call,hcall,hgo⟩ | ⟨_,hnew⟩
  · rw [hgo.number]
    exact h.underway_forth hc hcall hi hopen hgo
  · cases hnew with
    | begun hj hpending hbegun => exact ⟨_,hbegun,rfl,rfl⟩
    | refused => cases hopen

/-- Who has just begun a job is the first to get past the check. -/
theorem Invariant.first (h : Invariant s) {job : Job} {call : Call} (hj : job ∈ s.manager.jobs)
    (hpending : job.state = .pending) (hcall : call ∈ s.calls) (hpast : call.isPast) : call.number ≠ job.number := by
  intro hn
  obtain ⟨other,ho,hnumber,hs,_⟩ := h.past call hcall hpast
  rw [h.numbered.eq_of_number hj ho (hnumber.trans hn)] at hs
  exact hs hpending

private theorem Invariant.once_change (h : Invariant s) (hc : Change s s') (i j : Nat) (call other : Call)
    (hi : s'.calls[i]? = some call) (hj : s'.calls[j]? = some other) (hcall : call.isPast) (hother : other.isPast)
    (hn : call.number = other.number) : i = j := by
  rcases hc.call hi with ⟨call',hi',hgo⟩ | ⟨hend,hnew⟩ <;> rcases hc.call hj with ⟨other',hj',hgo'⟩ | ⟨hend',hnew'⟩
  · refine h.once i j call' other' hi' hj' (hgo.isPast ▸ hcall) (hgo'.isPast ▸ hother) ?_
    rw [← hgo.number, ← hgo'.number, hn]
  · cases hnew' with
    | begun hjob hpending => 
      exact absurd (hgo.number.symm.trans hn) (h.first hjob hpending (List.mem_of_getElem? hi') (hgo.isPast ▸ hcall))
    | refused => cases hother
  · cases hnew with
    | begun hjob hpending =>
      exact absurd (hgo'.number.symm.trans hn.symm) (h.first hjob hpending (List.mem_of_getElem? hj') (hgo'.isPast ▸ hother))
    | refused => cases hcall
  · exact hend.trans hend'.symm

private theorem Invariant.refused_change (h : Invariant s) (hc : Change s s') : ∀ call ∈ s'.calls, ¬call.isPast →
    call.stage = .ended (.error (.notPending s!"agent_{call.number}")) := by
  intro later hl hpast
  obtain ⟨i,hi⟩ := List.getElem?_of_mem hl
  rcases hc.call hi with ⟨call,hcall,hgo⟩ | ⟨_,hnew⟩
  · obtain rfl := hgo.eq hpast
    exact h.refused later (List.mem_of_getElem? hcall) hpast
  · cases hnew with
    | begun => exact absurd rfl hpast
    | refused => rfl

variable [Storage σ]

theorem Invariant.next (h : Invariant s) (event : Event σ) : Invariant (s.step event) :=
  have hc := change_step h.numbered event
  ⟨numbered_step h.numbered event,h.sound_change hc,h.past_change hc,h.underway_change hc,h.once_change hc,h.refused_change hc⟩

theorem Invariant.after (h : Invariant s) (events : List (Event σ)) : Invariant (s.after events) := by
  induction events generalizing s with
  | nil => exact h
  | cons event events ih => exact ih (h.next event)

/-- What every event keeps. -/
def Kept (known : System σ → Prop) : Prop := ∀ s event, Invariant s → known s → known (s.step event)

theorem Kept.after {known : System σ → Prop} (hk : Kept known) (h : Invariant s) (hs : known s) (events : List (Event σ)) :
    known (s.after events) := by
  induction events generalizing s with
  | nil => exact hs
  | cons event events ih => exact ih (h.next event) (hk s event h hs)

/-- What every move of a job keeps is kept for the job with a number. -/
theorem kept_job {P : Job → Prop} (number : Nat)
    (hP : ∀ {now : Nat} {job later : Job}, job.Moves now later → job.Sound now → P job → P later) :
    Kept fun s : System σ => ∃ job ∈ s.manager.jobs, job.number = number ∧ P job := by
  rintro s event h ⟨job,hj,hnumber,hp⟩
  obtain ⟨later,hl,hmoves⟩ := (h.jobsMove (change_step h.numbered event)).forth job hj
  exact ⟨later,hl,hmoves.number.trans hnumber,hP hmoves (h.sound job hj) hp⟩

/-- How a job has ended is the same after any events. -/
theorem Invariant.sameEnd_after (h : Invariant s) (events : List (Event σ)) {job : Job} (hj : job ∈ s.manager.jobs)
    (hterminal : job.state.isTerminal) : ∃ later ∈ (s.after events).manager.jobs, job.SameEnd later := by
  have hkept : Kept fun s : System σ => ∃ later ∈ s.manager.jobs, later.number = job.number ∧ job.SameEnd later := by
    refine kept_job job.number fun hmoves hsound hsame => hsame.trans (hmoves.sameEnd hsound ?_)
    rw [hsame.state]
    exact hterminal
  obtain ⟨later,hl,_,hsame⟩ := hkept.after h ⟨job,hj,rfl,.refl job⟩ events
  exact ⟨later,hl,hsame⟩

/-! ### Lifecycles -/

/-- One call at most gets past the check of a job, and gives it its input. All others are refused, and change nothing. -/
structure RunsOnce (s : System σ) : Prop where
  once : ∀ (i j : Nat) (call other : Call), s.calls[i]? = some call → s.calls[j]? = some other → call.isPast →
    other.isPast → call.number = other.number → i = j
  input : ∀ call ∈ s.calls, call.isPast →
    ∃ job, s.manager.job? call.number = some job ∧ job.state ≠ .pending ∧ job.input = call.input
  refused : ∀ call ∈ s.calls, ¬call.isPast → call.stage = .ended (.error (.notPending s!"agent_{call.number}"))
  unchanged : ∀ call ∈ s.calls, call.isPast → ∀ input, s.step (.run call.number input) =
    { s with calls := s.calls ++ [⟨call.number,input,.ended (.error (.notPending s!"agent_{call.number}"))⟩] }

private theorem Invariant.runsOnce (h : Invariant s) : RunsOnce s := by
  have hinput : ∀ call ∈ s.calls, call.isPast →
      ∃ job, s.manager.job? call.number = some job ∧ job.state ≠ .pending ∧ job.input = call.input := by
    intro call hcall hpast
    obtain ⟨job,hj,hnumber,hs,hinput⟩ := h.past call hcall hpast
    exact ⟨job,hnumber ▸ h.numbered.job?_number hj,hs,hinput⟩
  refine ⟨h.once,hinput,h.refused,fun call hcall hpast input => ?_⟩
  obtain ⟨job,hfound,hs,_⟩ := hinput call hcall hpast
  obtain ⟨hj,hnumber⟩ := Manager.mem_of_job? hfound
  simp only [step, hfound, Manager.run_begin_refused h.numbered s.now input hj hs, Job.pid, hnumber]

/--
Whatever happens in whatever order: one call at most runs a job, and all others fail without a trace. Once a job has
ended, its state, its end, how long it ran, its conversation and its output never change. A job has a start unless it
is pending, an end if it has ended, and not before its start. The conversation of a job that was begun is what its
run opened with, followed by the reply if it was completed; a pending job has none yet.
-/
theorem lifecycle (shell : Shell σ) (model : Model) (limit : Option Nat) (events more : List (Event σ)) :
    let s := (new (Manager.new shell model limit)).after events
    RunsOnce s ∧
      (∀ job ∈ s.manager.jobs, job.state.isTerminal → ∃ later, (s.after more).manager.job? job.number = some later ∧
        job.SameEnd later ∧ ∀ t u, later.runtime u = job.runtime t) ∧
      ∀ job ∈ s.manager.jobs, job.Timed ∧ job.Conversed := by
  intro s
  have h : Invariant s := (invariant_new shell model limit).after events
  refine ⟨h.runsOnce,fun job hj hterminal => ?_,fun job hj => ⟨(h.sound job hj).toTimed,(h.sound job hj).conversed⟩⟩
  obtain ⟨later,hl,hsame⟩ := h.sameEnd_after more hj hterminal
  have hfound := (h.after more).numbered.job?_number hl
  rw [hsame.number] at hfound
  exact ⟨later,hfound,hsame,hsame.runtime ((h.sound job hj).ended.mpr hterminal)⟩

/-- The prompt is no part of the conversation of a job that was not begun yet. -/
theorem pending_without_prompt :
    let shell : Shell Provider := ⟨⟨⟨.plain (.tree .empty),"/",0⟩,[],[],true,"",[]⟩,[]⟩
    let agent : Definition := { Definition.standard with systemPrompt := "be nice" }
    let s := (new (Manager.new shell (Mock.model 100) none)).after [.create agent false]
    ¬∀ job ∈ s.manager.jobs,
      job.context = job.opening ++ if job.state = .completed then [⟨.assistant,job.output⟩] else [] := by
  intro shell agent s h
  have hcontext := h (.new 1 agent false) (List.mem_singleton_self _)
  simp [Job.new, Job.opening, agent] at hcontext

end VirtualShell.Agent.System
