import Mathlib.Tactic.IntervalCases
import VirtualShell.Proofs.Agent.Completions
import VirtualShell.Proofs.Agent.Separation

/-!
Memory that lasts. Where the runs under a name come one after the other, every save is accepted and nobody else writes the
file, each run finds exactly what the last completed one had; the file tells of as many runs as were completed, with the
input and the reply of the last, and it changes with a completed run only.
-/
namespace VirtualShell.Agent.System
open VirtualShell.Legible Manager
variable {σ : Type} [Storage σ] [FallibleNodes σ] {s : System σ} {events : List (Event σ)} {event : Event σ} {name : String}
  {done : Job} {i k n : Nat}

/-! ### One run after the other -/

/-- A lookup for a job, at a moment at which its call has begun: it is answered, and this is what it finds. -/
structure LookedUp (job : Job) (s : System σ) (events : List (Event σ)) (i k : Nat) (memory : Memories) : Prop where
  begun : ∃ call, (s.moment events k).calls[i]? = some call ∧ call.stage = .begun
  answers : (s.moment events k).manager.Answers job.definition.name
  found : ((memoryOf job).run (s.moment events k).manager).1 = memory

/-- What is found for a job of an agent whose memory is kept under a name is what the file of that name stands for. -/
theorem LookedUp.memory_eq {job : Job} {memory : Memories} (h : LookedUp job s events i k memory) (hkeeps : job.keeps name)
    (hs : Intact (s.moment events k).manager.shell.session.fs) : memory = decoded (.ok ((s.moment events k).manager.file? name)) := by
  rw [Job.keeps, Bool.and_eq_true, beq_iff_eq, beq_iff_eq] at hkeeps
  have hanswers := h.answers
  have hfound := h.found
  rw [memoryOf, hkeeps.1, hkeeps.2, if_pos (beq_self_eq_true _)] at hfound
  rw [hkeeps.2] at hanswers
  rw [← hfound, hanswers.loadMemory hs]

/-- At a position, a call gives its job, of an agent whose memory is kept under a name, what was looked up for it. -/
def Remembers (name : String) (s : System σ) (events : List (Event σ)) (i n : Nat) (job : Job) (memory : Memories) : Prop :=
  events[n]? = some (.remember i memory) ∧ job.keeps name ∧ ∃ number input,
    (s.moment events n).calls[i]? = some ⟨number,input,.begun⟩ ∧ (s.moment events n).manager.job? number = some job

/--
The runs under a name come one after the other, look up what they remember and have their saves accepted, and nobody else
writes their file.
-/
structure InTurn (name : String) (s : System σ) (events : List (Event σ)) : Prop where
  readable : Readable events
  spared : ∀ n, ¬Strikes name s events n
  saves : ∀ n event other done, events[n]? = some event → (s.moment events n).saved? other event = some done →
    Alike name other → other = name ∧ (s.moment events n).manager.Accepts name done.memory
  lookups : ∀ i n job memory, Remembers name s events i n job memory → ∃ k ≤ n, LookedUp job s events i k memory
  alone : ∀ n ≤ events.length, Alone name (s.moment events n)

namespace InTurn
variable (hc : InTurn name s events) (h : s.Invariant)
include hc h

/-- While a call may yet complete its run, nobody else completes one. -/
private theorem unsaved {call : Call} (hn : n < events.length) (hcall : (s.moment events n).calls[i]? = some call)
    (hlive : (s.moment events n).live name call) (hgoing : ∀ outcome, call.stage = .asking → events[n] ≠ .finish i outcome) :
    (s.moment events n).saved? name events[n] = none := by
  by_contra hsome
  obtain ⟨done,hsaved⟩ := Option.ne_none_iff_exists'.mp hsome
  obtain ⟨j,outcome,other,hwhat,hother,hasking,hlast⟩ := (h.moment events n).live_of_saved hsaved
  obtain rfl := hc.alone n hn.le i j call other hcall hother hlive hlast
  obtain rfl := Option.some.inj (hcall.symm.trans hother)
  exact hgoing outcome hasking hwhat

/-- While a call looks up for a job that may yet be completed, nobody completes a run. -/
private theorem quiet {first call : Call} (hkn : k ≤ n) (hn : n ≤ events.length)
    (hfirst : (s.moment events k).calls[i]? = some first) (hcall : (s.moment events n).calls[i]? = some call)
    (hbegun : call.stage = .begun) (hlive : (s.moment events n).live name call) :
    completedBy name s events n = completedBy name s events k := by
  induction n, hkn using Nat.le_induction with
  | base => rfl
  | succ n hkn ih =>
    have hevent : events[n]? = some events[n] := List.getElem?_eq_getElem hn
    have hinvariant := h.moment events n
    rw [moment_succ hevent] at hcall hlive
    have hlength : i < (s.moment events n).calls.length :=
      (List.getElem?_eq_some_iff.mp hfirst).1.trans_le (moment_calls_mono h hkn (by omega))
    have hbefore := (change_step hinvariant.numbered _).begun_call hlength hbegun hcall
    have hearlier := hinvariant.live_step hbefore hcall hlive
    have hnone := hc.unsaved h hn hbefore hearlier fun outcome hasking => by simp [hbegun] at hasking
    rw [completedBy_unsaved hevent hnone]
    exact ih (by omega) hbefore hearlier

omit h in
/-- Only runs under the name save in its file. -/
private theorem not_savesAlike (hn : n < events.length) (hnone : (s.moment events n).saved? name events[n] = none) :
    ¬SavesAlike name s events n := by
  rintro ⟨event,other,done,hevent,hsaved,halike⟩
  obtain ⟨rfl,_⟩ := hc.saves n event other done hevent hsaved halike
  obtain rfl := Option.some.inj ((List.getElem?_eq_getElem hn).symm.trans hevent)
  rw [hnone] at hsaved
  cases hsaved

/-- What an event makes of the file: the memory that it saves, or what it was. -/
private theorem file?_succ (hs : Intact s.manager.shell.session.fs) (hn : n < events.length) :
    (s.moment events (n + 1)).manager.file? name =
      match (s.moment events n).saved? name events[n] with
      | some done => some (Json.pretty 0 (.object done.memory))
      | none => (s.moment events n).manager.file? name := by
  have hevent : events[n]? = some events[n] := List.getElem?_eq_getElem hn
  split
  · rename_i done hsaved
    obtain ⟨_,haccepted⟩ := hc.saves n _ name done hevent hsaved (.refl name)
    rw [moment_succ hevent]
    exact (h.moment events n).file?_saved (intact_moment h hs hc.readable hn.le) hsaved haccepted (.refl name)
  · rename_i hnone
    exact System.file?_succ h hs hc.readable hn (hc.spared n) (hc.not_savesAlike hn hnone)

end InTurn

/-- What holds at every moment: the file, and each run that may yet be completed, have what the last completed run had. -/
structure Standing (name : String) (s : System σ) (events : List (Event σ)) (n : Nat) : Prop where
  stands : decoded (.ok ((s.moment events n).manager.file? name)) = lastMemory (completedBy name s events n)
  carried : ∀ i job, (s.moment events n).asking? i = some job → job.keeps name → job.state.isActive →
    job.memory = lastMemory (completedBy name s events n)
  tells : completedBy name s events n ≠ [] → ∃ input output,
    lastMemory (completedBy name s events n) = noted (.ofNat (completedBy name s events n).length) input output

namespace Standing

/-- A run that is completed counts itself among the others. -/
private theorem memory_eq (hk : Standing name s events n) (h : s.Invariant)
    (hsaved : (s.moment events n).saved? name event = some done) :
    done.memory = noted (.ofNat ((completedBy name s events n).length + 1)) done.input done.output := by
  obtain ⟨i,outcome,job,rfl,hasking,rfl,hkeeps,hdone⟩ := saved?_eq_some hsaved
  rw [Job.keeps, Job.definition_finish, ← Job.keeps] at hkeeps
  have hcarried := hk.carried i job hasking hkeeps ((h.moment events n).active_of_saved hasking hdone)
  obtain ⟨_,_,hinput,hmemory⟩ := Job.completed_finish hdone (Job.ne_none_of_keeps hkeeps)
  rw [hmemory, hinput, hcarried]
  by_cases hnone : completedBy name s events n = []
  · rw [hnone]
    exact recordRun_nil _ _
  · obtain ⟨last,reply,hlast⟩ := hk.tells hnone
    rw [hlast, recordRun_noted, UInt64.ofNat_add]
    rfl

/-- What a call gives its job is what the last completed run had. -/
private theorem remembers (hc : InTurn name s events) (hs : Intact s.manager.shell.session.fs)
    (hbefore : ∀ k ≤ n, Standing name s events k) (h : s.Invariant) {job : Job} {memory : Memories} (hn : n ≤ events.length)
    (hr : Remembers name s events i n job memory) : ∃ k ≤ n, LookedUp job s events i k memory ∧
      memory = lastMemory (completedBy name s events k) ∧
      (job.state.isActive → completedBy name s events n = completedBy name s events k) := by
  obtain ⟨k,hkn,hlook⟩ := hc.lookups i n job memory hr
  obtain ⟨_,hkeeps,number,input,hcall,hjob⟩ := hr
  obtain ⟨first,hfirst,_⟩ := hlook.begun
  refine ⟨k,hkn,hlook,?_,fun hactive => ?_⟩
  · rw [hlook.memory_eq hkeeps (intact_moment h hs hc.readable (by omega)), (hbefore k hkn).stands]
  · exact hc.quiet h hkn hn hfirst hcall rfl (live_iff.mpr ⟨rfl,job,hjob,hkeeps,hactive⟩)

private theorem zero (hcalls : s.calls = []) (hstart : decoded (.ok (s.manager.file? name)) = []) :
    Standing name s events 0 := by
  refine ⟨hstart,fun i job hasking => ?_,fun hne => absurd rfl hne⟩
  obtain ⟨_,_,hcall,_⟩ := asking?_eq_some.mp hasking
  rw [show (s.moment events 0).calls = [] from hcalls] at hcall
  cases hcall

private theorem stands_succ (hk : Standing name s events n) (hc : InTurn name s events) (h : s.Invariant)
    (hs : Intact s.manager.shell.session.fs) (hn : n < events.length) :
    decoded (.ok ((s.moment events (n + 1)).manager.file? name)) = lastMemory (completedBy name s events (n + 1)) := by
  have hevent : events[n]? = some events[n] := List.getElem?_eq_getElem hn
  rw [hc.file?_succ h hs hn]
  cases hsaved : (s.moment events n).saved? name events[n] with
  | some done =>
    dsimp only
    rw [completedBy_saved hevent hsaved, lastMemory_concat, hk.memory_eq h hsaved, decoded_noted]
  | none =>
    rw [completedBy_unsaved hevent hsaved]
    exact hk.stands

private theorem tells_succ (hk : Standing name s events n) (h : s.Invariant) (hn : n < events.length)
    (hne : completedBy name s events (n + 1) ≠ []) : ∃ input output,
    lastMemory (completedBy name s events (n + 1)) =
      noted (.ofNat (completedBy name s events (n + 1)).length) input output := by
  have hevent : events[n]? = some events[n] := List.getElem?_eq_getElem hn
  cases hsaved : (s.moment events n).saved? name events[n] with
  | some done =>
    refine ⟨done.input,done.output,?_⟩
    rw [completedBy_saved hevent hsaved, lastMemory_concat, List.length_append, List.length_singleton]
    exact hk.memory_eq h hsaved
  | none =>
    rw [completedBy_unsaved hevent hsaved] at hne ⊢
    exact hk.tells hne

/-- A run that goes on has what it had; a run that has just looked up has what it found. -/
private theorem carried_succ (hbefore : ∀ k ≤ n, Standing name s events k) (hc : InTurn name s events) (h : s.Invariant)
    (hs : Intact s.manager.shell.session.fs) (hn : n < events.length) {later : Job}
    (hasking : (s.moment events (n + 1)).asking? i = some later) (hkeeps : later.keeps name) (hactive : later.state.isActive) :
    later.memory = lastMemory (completedBy name s events (n + 1)) := by
  have hevent : events[n]? = some events[n] := List.getElem?_eq_getElem hn
  have hinvariant := h.moment events n
  obtain ⟨number,input,hcall,hlater⟩ := asking?_eq_some.mp hasking
  have hlive : (s.moment events (n + 1)).live name ⟨number,input,.asking⟩ := live_iff.mpr ⟨rfl,later,hlater,hkeeps,hactive⟩
  rw [moment_succ hevent] at hasking hcall hlive
  obtain ⟨job,_,⟨hjob,hmemory⟩ | ⟨first,text,hbegun,hjob,hwhat⟩⟩ := hinvariant.asking?_step events[n] hasking
  · obtain ⟨_,_,hearlier,hfound⟩ := asking?_eq_some.mp hjob
    obtain ⟨hgoing,hkept,hrun⟩ := hinvariant.live_job hearlier hfound hcall hlive
    have hnone := hc.unsaved h hn hearlier hgoing fun outcome _ hwhat => not_asking_finish (hwhat ▸ hasking)
    rw [completedBy_unsaved hevent hnone, hmemory]
    exact (hbefore n le_rfl).carried i job hjob hkept hrun
  · obtain ⟨_,hkept,hrun⟩ := hinvariant.live_job hbegun hjob hcall hlive
    have hnone : (s.moment events n).saved? name events[n] = none := by
      rw [hwhat]
      rfl
    obtain ⟨k,_,_,hmemory,hquiet⟩ := remembers hc hs hbefore h hn.le ⟨hwhat ▸ hevent,hkept,first,text,hbegun,hjob⟩
    rw [completedBy_unsaved hevent hnone, hmemory, hquiet hrun]

private theorem succ (hbefore : ∀ k ≤ n, Standing name s events k) (hc : InTurn name s events) (h : s.Invariant)
    (hs : Intact s.manager.shell.session.fs) (hn : n < events.length) : Standing name s events (n + 1) where
  stands := (hbefore n le_rfl).stands_succ hc h hs hn
  carried _ _ hasking hkeeps hactive := carried_succ hbefore hc h hs hn hasking hkeeps hactive
  tells hne := (hbefore n le_rfl).tells_succ h hn hne

end Standing

private theorem InTurn.standing (hc : InTurn name s events) (h : s.Invariant) (hs : Intact s.manager.shell.session.fs)
    (hcalls : s.calls = []) (hstart : decoded (.ok (s.manager.file? name)) = []) (hn : n ≤ events.length) :
    ∀ k ≤ n, Standing name s events k := by
  induction n with
  | zero =>
    intro k hk
    obtain rfl := Nat.le_zero.mp hk
    exact .zero hcalls hstart
  | succ n ih =>
    intro k hk
    obtain hk | rfl := Nat.le_succ_iff.mp hk
    · exact ih (by omega) k hk
    · exact .succ (ih (by omega)) hc h hs hn

/-! ### What lasts -/

/-- As long as no run is completed, the file stays as it is. -/
private theorem InTurn.file?_eq (hc : InTurn name s events) (h : s.Invariant) (hs : Intact s.manager.shell.session.fs)
    (hkn : k ≤ n) (hn : n ≤ events.length) (hsame : completedBy name s events n = completedBy name s events k) :
    (s.moment events n).manager.file? name = (s.moment events k).manager.file? name := by
  induction n, hkn using Nat.le_induction with
  | base => rfl
  | succ n hkn ih =>
    have hevent : events[n]? = some events[n] := List.getElem?_eq_getElem hn
    have hearlier := (completedBy_grows hkn (by omega) : completedBy name s events k <+: completedBy name s events n).length_le
    cases hsaved : (s.moment events n).saved? name events[n] with
    | some done =>
      have hlength := congrArg List.length ((completedBy_saved hevent hsaved).symm.trans hsame)
      rw [List.length_append, List.length_singleton] at hlength
      omega
    | none =>
      rw [hc.file?_succ h hs hn, hsaved]
      exact ih (by omega) ((completedBy_unsaved hevent hsaved).symm.trans hsame)

omit [FallibleNodes σ] in
/-- The job that was given what was looked up for it. -/
private theorem job?_remembered (h : s.Invariant) {job : Job} {memory : Memories} (hr : Remembers name s events i n job memory) :
    (s.moment events (n + 1)).manager.job? job.number = some { job with memory } := by
  obtain ⟨hevent,_,number,input,hcall,hjob⟩ := hr
  obtain ⟨_,rfl⟩ := Manager.mem_of_job? hjob
  rw [moment_succ hevent, step_remember_begun (h.moment events n).numbered hcall,
    Manager.job?_map (m := (s.moment events n).manager) rfl (Job.Act.number_on _ _), hjob]
  simp [Job.Act.on, Job.Act.fits, Job.Act.apply]

/-- A file that is missing or corrupt stands for nothing. -/
private theorem decoded_of_corrupt {file : Option String}
    (h : ∀ text members, file = some text → Json.read text ≠ .ok (.object members)) : decoded (.ok file) = [] := by
  cases file with
  | none => rfl
  | some text =>
    rw [decoded]
    split
    · rename_i members hread
      exact absurd hread (h text members rfl)
    · rfl

/--
From a file that is missing or corrupt on, with the runs under a name one after the other: each run is given exactly what
the last completed one has in its job, and that is what the file stands for at every moment. The run that is completed as
one of so many counts them, with its own input and its own reply, in its job and in the file. The file changes with no
other event; a run that fails, times out, is given up or was killed is not completed. And a run in another mode leaves the
whole shell as it is.
-/
theorem memory_durable {shell : Shell σ} (hshell : Intact shell.session.fs) (model : Model) (limit : Option Nat)
    (hstart : ∀ text members, (Manager.new shell model limit).file? name = some text → Json.read text ≠ .ok (.object members))
    (hc : InTurn name (new (Manager.new shell model limit)) events) :
    let s := new (Manager.new shell model limit)
    let before (n : Nat) := completedBy name s events n
    let file (n : Nat) := (s.moment events n).manager.file? name
    (∀ n i job memory, Remembers name s events i n job memory → ∃ k ≤ n, LookedUp job s events i k memory ∧
      memory = lastMemory (before k) ∧ (job.state.isActive → before n = before k) ∧
      (s.moment events (n + 1)).manager.job? job.number = some { job with memory }) ∧
    (∀ n ≤ events.length, decoded (.ok (file n)) = lastMemory (before n)) ∧
    (∀ n event done, events[n]? = some event → (s.moment events n).saved? name event = some done →
      before (n + 1) = before n ++ [done] ∧ done.state = .completed ∧
      done.memory = noted (.ofNat (before (n + 1)).length) done.input done.output ∧
      (s.moment events (n + 1)).manager.job? done.number = some done ∧
      (∃ i : Nat, (s.moment events (n + 1)).calls[i]? = some ⟨done.number,done.input,.ended (.ok done.output)⟩) ∧
      file (n + 1) = some (Json.pretty 0 (.object done.memory))) ∧
    (∀ k n, k ≤ n → n ≤ events.length → before n = before k → file n = file k) ∧
    (∀ n i outcome job, events[n]? = some (.finish i outcome) → (s.moment events n).asking? i = some job →
      (∀ text, outcome = .completed text → job.state = .terminated) → before (n + 1) = before n) ∧
    ∀ (m : Manager σ) (job : Job), m.Numbered → job ∈ m.jobs → job.definition.memory ≠ .persistent → ∀ now input outcome,
      ((start now job input).run m).2.shell = m.shell ∧ ((finish now job outcome).run m).2.shell = m.shell := by
  intro s before file
  have h : s.Invariant := invariant_new shell model limit
  have hs : Intact s.manager.shell.session.fs := hshell
  have hstanding (n : Nat) (hn : n ≤ events.length) : ∀ k ≤ n, Standing name s events k :=
    hc.standing h hs rfl (decoded_of_corrupt fun text members => hstart text members) hn
  refine ⟨?_,fun n hn => (hstanding n hn n le_rfl).stands,?_,fun k n hkn hn => hc.file?_eq h hs hkn hn,?_,?_⟩
  · intro n i job memory hr
    have hn := (List.getElem?_eq_some_iff.mp hr.1).1
    obtain ⟨k,hkn,hlook,hmemory,hquiet⟩ := Standing.remembers hc hs (hstanding n hn.le) h hn.le hr
    exact ⟨k,hkn,hlook,hmemory,hquiet,job?_remembered h hr⟩
  · intro n event done hevent hsaved
    have hn := (List.getElem?_eq_some_iff.mp hevent).1
    have hlist : before (n + 1) = before n ++ [done] := completedBy_saved hevent hsaved
    obtain ⟨hjob,hcall⟩ := (h.moment events n).saved_step hsaved
    obtain ⟨_,_,_,_,_,_,_,hdone⟩ := saved?_eq_some hsaved
    obtain rfl := Option.some.inj ((List.getElem?_eq_getElem hn).symm.trans hevent)
    have hfile := hc.file?_succ h hs hn
    rw [hsaved] at hfile
    rw [← moment_succ hevent] at hjob hcall
    refine ⟨hlist,hdone,?_,hjob,hcall,hfile⟩
    rw [hlist, List.length_append, List.length_singleton]
    exact (hstanding n hn.le n le_rfl).memory_eq h hsaved
  · exact fun n i outcome job hevent hasking hends => completedBy_finish hevent hasking hends
  · exact fun m job hm hj hmode now input outcome => ⟨shell_start hm hj hmode now input,shell_finish hm hj hmode now outcome⟩

/-! ### Three runs -/

omit [Storage σ] [FallibleNodes σ] in
private theorem alone_of_few (h : ((List.range s.calls.length).filter fun i => s.calls[i]?.any (s.live name)).length ≤ 1) :
    Alone name s := by
  intro i j call other hcall hother hlive hlast
  have hmem {i : Nat} {call : Call} (hcall : s.calls[i]? = some call) (hlive : s.live name call) :
      i ∈ (List.range s.calls.length).filter fun i => s.calls[i]?.any (s.live name) := by
    refine List.mem_filter.mpr ⟨List.mem_range.mpr (List.getElem?_eq_some_iff.mp hcall).1,?_⟩
    rw [hcall, Option.any_some]
    exact hlive
  have hi := hmem hcall hlive
  have hj := hmem hother hlast
  match hlist : (List.range s.calls.length).filter fun i => s.calls[i]?.any (s.live name) with
  | [] => rw [hlist] at hi; cases hi
  | [last] =>
    rw [hlist, List.mem_singleton] at hi hj
    rw [hi, hj]
  | _ :: _ :: _ =>
    rw [hlist] at h
    simp at h

omit [FallibleNodes σ] in
/-- What a call is given at once after it was looked up. -/
theorem lookedUp_now {job : Job} {memory : Memories} (hr : Remembers name s events i n job memory)
    (hmemory : memory = (s.moment events n).stored name)
    (hanswers : !(s.moment events n).manager.poisoned &&
      ((s.moment events n).manager.shell.onFiles (FileSystem.read (memoryPath name))).1.isOk) :
    LookedUp job s events i n memory := by
  obtain ⟨_,hkeeps,number,input,hcall,_⟩ := hr
  rw [Job.keeps, Bool.and_eq_true, beq_iff_eq, beq_iff_eq] at hkeeps
  rw [Bool.and_eq_true, Bool.not_eq_true'] at hanswers
  refine ⟨⟨_,hcall,rfl⟩,⟨hanswers.1,?_⟩,?_⟩
  · rw [hkeeps.2]
    exact ⟨_,Storing.eq_ok_of_isOk hanswers.2 none⟩
  · rw [memoryOf, hkeeps.1, if_pos (beq_self_eq_true _), hkeeps.2, hmemory, stored]

omit [FallibleNodes σ] in
/-- An end that saves under the name, or none at all, as can be computed. -/
private theorem saves_of {outcome : Job.Outcome} {other : String} (hevent : events[n]? = some (.finish i outcome))
    (h : (((s.moment events n).saved? name (.finish i outcome)).any fun done => !(s.moment events n).manager.poisoned &&
      decide (((s.moment events n).manager.shell.onFiles (keep name done.memory)).1 = .ok true)) ||
      ((s.moment events n).asking? i).all fun job => job.state == .terminated)
    (hwhat : events[n]? = some event) (hsaved : (s.moment events n).saved? other event = some done) :
    other = name ∧ (s.moment events n).manager.Accepts name done.memory := by
  obtain rfl := Option.some.inj (hevent.symm.trans hwhat)
  obtain h | h := Bool.or_eq_true_iff.mp h
  · obtain ⟨last,hlast,haccepted⟩ := (Option.any_eq_true _ _).mp h
    obtain ⟨rfl,rfl⟩ := saved?_unique hlast hsaved
    rw [Bool.and_eq_true, Bool.not_eq_true', decide_eq_true_eq] at haccepted
    exact ⟨rfl,haccepted.1,haccepted.2⟩
  · obtain ⟨j,_,job,hfinish,hasking,rfl,_,hdone⟩ := saved?_eq_some hsaved
    obtain ⟨rfl,rfl⟩ := Event.finish.inj hfinish
    rw [hasking, Option.all_some, beq_iff_eq] at h
    exact absurd hdone (Job.not_completed_finish fun _ _ => h)

/-- A killed run between two that are completed. -/
theorem durable_of_three :
    let store := ((Storage.setUp 0).on (Provider.tree .empty)).2
    let shell : Shell Provider := ⟨⟨⟨.plain store,"/",0⟩,[],[],true,"",[]⟩,[]⟩
    let agent : Definition := { Definition.standard with name := "bot", memory := .persistent }
    let s := new (Manager.new shell (Mock.model 100) none)
    let first : List (Event Provider) := [.create agent false,.create agent false,.create agent false,.run 1 "a",.remember 0 [],
      .finish 0 (.completed "one"),.run 2 "b"]
    let second := first ++ [.remember 1 ((s.after first).stored "bot"),.control 2 .kill,.finish 1 (.completed "late"),.run 3 "c"]
    let events := second ++ [.remember 2 ((s.after second).stored "bot"),.finish 2 (.completed "two")]
    Intact shell.session.fs ∧ (Manager.new shell (Mock.model 100) none).file? "bot" = none ∧ InTurn "bot" s events ∧
      (s.after events).manager.file? "bot" = some (Json.pretty 0 (.object (noted 2 "c" "two"))) := by
  intro store shell agent s first second events
  have hshell : Intact shell.session.fs := Provider.Ready.tree.sound_setUp 0
  have hnone : (Manager.new shell (Mock.model 100) none).file? "bot" = none := by decide +kernel
  have hnowhere : ∀ shell poisoned requests, Event.elsewhere shell poisoned requests ∉ events := by simp [events, second, first]
  have hturn : InTurn "bot" s events := by
    refine ⟨fun shell poisoned requests h => absurd h (hnowhere shell poisoned requests),not_strikes hnowhere,?_,?_,?_⟩
    · intro n event other done hwhat hsaved _
      obtain ⟨i,outcome,_,rfl,_⟩ := saved?_eq_some hsaved
      have hn : n < 13 := (List.getElem?_eq_some_iff.mp hwhat).1
      obtain rfl | rfl | rfl : n = 5 ∨ n = 9 ∨ n = 12 := by interval_cases n <;> first | omega | cases hwhat
      · exact saves_of rfl (by decide +kernel) hwhat hsaved
      · exact saves_of rfl (by decide +kernel) hwhat hsaved
      · exact saves_of rfl (by decide +kernel) hwhat hsaved
    · intro i n job memory hr
      have hwhat := hr.1
      have hn : n < 13 := (List.getElem?_eq_some_iff.mp hwhat).1
      obtain rfl | rfl | rfl : n = 4 ∨ n = 7 ∨ n = 11 := by interval_cases n <;> first | omega | cases hwhat
      · obtain ⟨rfl,rfl⟩ := Event.remember.inj (Option.some.inj hwhat)
        have hempty : ((s.moment events 4).stored "bot").isEmpty := by decide +kernel
        exact ⟨4,le_rfl,lookedUp_now hr (List.isEmpty_iff.mp hempty).symm (by decide +kernel)⟩
      · obtain ⟨rfl,rfl⟩ := Event.remember.inj (Option.some.inj hwhat)
        exact ⟨7,le_rfl,lookedUp_now hr rfl (by decide +kernel)⟩
      · obtain ⟨rfl,rfl⟩ := Event.remember.inj (Option.some.inj hwhat)
        exact ⟨11,le_rfl,lookedUp_now hr rfl (by decide +kernel)⟩
    · have hfew : ∀ n ∈ List.range 14, ((List.range (s.moment events n).calls.length).filter fun i =>
          (s.moment events n).calls[i]?.any ((s.moment events n).live "bot")).length ≤ 1 := by decide +kernel
      exact fun n hn => alone_of_few (hfew n (List.mem_range.mpr (Nat.lt_succ_of_le hn)))
  have hlast : ((s.moment events 12).saved? "bot" (.finish 2 (.completed "two"))).any fun done =>
      done.input == "c" && done.output == "two" := by decide +kernel
  obtain ⟨done,hsaved,hdone⟩ := (Option.any_eq_true _ _).mp hlast
  rw [Bool.and_eq_true, beq_iff_eq, beq_iff_eq] at hdone
  have hlength : (completedBy "bot" s events 13).length = 2 := by decide +kernel
  obtain ⟨_,_,hcompleted,_⟩ := memory_durable hshell (Mock.model 100) none (by simp [hnone]) hturn
  obtain ⟨_,_,hmemory,_,_,hfile⟩ := hcompleted 12 _ done rfl hsaved
  rw [hmemory, hlength, hdone.1, hdone.2] at hfile
  exact ⟨hshell,hnone,hturn,hfile⟩

/-- From now on the store fails whenever a file is read. -/
def deafened (s : System (Faulty Provider)) : Event (Faulty Provider) :=
  let shell := s.manager.shell
  let store := { shell.session.fs.mount.store with fails := fun _ call => call.name == "read_file" }
  let fs := { shell.session.fs with mount := .plain store }
  .elsewhere { shell with session := { shell.session with fs } } false s.manager.requests

/--
A run whose lookup fails finds nothing, though nobody has touched the file: it is completed and saved as if it were the
first. So does a run on a shell that can no longer be used, which saves nothing.
-/
theorem forgotten_of_two :
    let store := ((Storage.setUp 0).on (Provider.tree .empty)).2
    let shell : Shell (Faulty Provider) := ⟨⟨⟨.plain ⟨store,"memory",0,fun _ _ => false⟩,"/",0⟩,[],[],true,"",[]⟩,[]⟩
    let agent : Definition := { Definition.standard with name := "bot", memory := .persistent }
    let s := new (Manager.new shell (Mock.model 100) none)
    let first := s.after [.create agent false,.create agent false,.run 1 "a",.remember 0 [],.finish 0 (.completed "done"),
      .run 2 "b"]
    let second := first.step (deafened first)
    let last := second.after [.remember 1 (second.stored "bot"),.finish 1 (.completed "done")]
    let poisoned := first.step (.elsewhere first.manager.shell true first.manager.requests)
    runsOf (first.stored "bot") = 1 ∧ second.manager.file? "bot" = first.manager.file? "bot" ∧
      poisoned.manager.file? "bot" = first.manager.file? "bot" ∧ second.stored "bot" = [] ∧ poisoned.stored "bot" = [] ∧
      last.completed "bot" = 2 ∧ last.manager.file? "bot" = some (Json.pretty 0 (.object (noted 1 "b" "done"))) := by
  intro store shell agent s first second last poisoned
  have hsecond : (second.stored "bot").isEmpty := by decide +kernel
  have hpoisoned : (poisoned.stored "bot").isEmpty := by decide +kernel
  have hbefore : runsOf (first.stored "bot") = 1 ∧ second.manager.file? "bot" = first.manager.file? "bot" ∧
      poisoned.manager.file? "bot" = first.manager.file? "bot" := by decide +kernel
  have hafter : last.completed "bot" = 2 ∧
      last.manager.file? "bot" = some (Json.pretty 0 (.object (noted 1 "b" "done"))) := by decide +kernel
  exact ⟨hbefore.1,hbefore.2.1,hbefore.2.2,List.isEmpty_iff.mp hsecond,List.isEmpty_iff.mp hpoisoned,hafter⟩

end VirtualShell.Agent.System
