import VirtualShell.Proofs.Agent.Durability

/-!
The count of runs that a memory file keeps. Whatever text stands there, a run that is completed counts one more than the
text tells of and keeps all else that was stored. The count has 64 bits: after the greatest number it begins again at zero.
-/
namespace VirtualShell.Agent

/-! ### Counting -/

/--
How many runs the text of a memory file tells of: none where there is no file or its text is no object, and none where
the object has no unsigned whole number of them.
-/
def toldRuns (file : Option String) : Nat :=
  match file.map Json.read with
  | some (.ok (.object members)) =>
    match Keyed.find? "runs" members with
    | some (.number (.natural runs)) => runs.toNat
    | _ => 0
  | _ => 0

private theorem toNat_runsOf (memory : Memories) : (runsOf memory).toNat = match Keyed.find? "runs" memory with
    | some (.number (.natural runs)) => runs.toNat
    | _ => 0 := by
  rw [runsOf]
  cases Keyed.find? "runs" memory with
  | none => rfl
  | some value =>
    cases value with
    | number n => cases n <;> rfl
    | _ => rfl

theorem toNat_runsOf_decoded (file : Option String) : (runsOf (Manager.decoded (.ok file))).toNat = toldRuns file := by
  cases file with
  | none => rfl
  | some text =>
    rw [toldRuns, Option.map_some, Manager.decoded]
    cases Json.read text with
    | error e => rfl
    | ok value =>
      cases value with
      | object members => exact toNat_runsOf members
      | _ => rfl

/-- Texts that tell of no run: the last number does not fit into 64 bits, and counts as a floating-point one. -/
example : ["[3]", "\x7b\"runs\": 3", "\x7b\"runs\": -3\x7d", "\x7b\"runs\": 18446744073709551616\x7d"].map
    (fun text => toldRuns (some text)) = [0, 0, 0, 0] := by decide +kernel

/--
What a run notes in a memory that it found in a file: one run more than the file told of, or none if that was the greatest
number of 64 bits, and its input and its reply. All else is what stood in the file.
-/
structure Recorded (file : Option String) (input output : String) (memory : Memories) : Prop where
  counted : toldRuns file < 2 ^ 64 - 1 →
    ∃ runs : UInt64, Keyed.find? "runs" memory = some (.number (.natural runs)) ∧ runs.toNat = toldRuns file + 1
  restarted : toldRuns file = 2 ^ 64 - 1 → Keyed.find? "runs" memory = some (.number (.natural 0))
  input : Keyed.find? "last_input" memory = some (.string input)
  output : Keyed.find? "last_output" memory = some (.string output)
  kept : ∀ key, key ∉ ["runs", "last_input", "last_output"] →
    Keyed.find? key memory = Keyed.find? key (Manager.decoded (.ok file))

private theorem toNat_succ {n : UInt64} (h : n.toNat < 2 ^ 64 - 1) : (n + 1).toNat = n.toNat + 1 := by
  rw [UInt64.toNat_add, UInt64.toNat_one]
  omega

private theorem succ_greatest {n : UInt64} (h : n.toNat = 2 ^ 64 - 1) : n + 1 = 0 := by
  rw [← UInt64.toNat_inj, UInt64.toNat_add, h]
  rfl

theorem recorded_recordRun (file : Option String) (input output : String) :
    Recorded file input output (Job.recordRun input output (Manager.decoded (.ok file))) := by
  have hruns := find?_recordRun input output (Manager.decoded (.ok file))
  refine ⟨fun h => ⟨_,hruns,?_⟩,fun h => ?_,?_,?_,fun key hkey => ?_⟩
  · rw [← toNat_runsOf_decoded] at h ⊢
    exact toNat_succ h
  · rw [← toNat_runsOf_decoded] at h
    rw [hruns, succ_greatest h]
  · simp [Job.recordRun, Keyed.find?_insert]
  · simp [Job.recordRun, Keyed.find?_insert]
  · simp only [List.mem_cons, List.not_mem_nil, or_false, not_or] at hkey
    obtain ⟨hruns,hinput,houtput⟩ := hkey
    simp [Job.recordRun, Keyed.find?_insert, Ne.symm hruns, Ne.symm hinput, Ne.symm houtput]

/-- A reply completes a run that nobody has ended by force. -/
theorem Job.finish_completed {job : Job} (h : job.state ≠ .terminated) (hkept : job.definition.memory ≠ .none) (now : Nat)
    (text : String) :
    (job.finish now (.completed text)).2.state = .completed ∧ (job.finish now (.completed text)).2.input = job.input ∧
      (job.finish now (.completed text)).2.output = text ∧
      (job.finish now (.completed text)).2.memory = recordRun job.input text job.memory := by
  simp [finish, h, hkept]

namespace System
open VirtualShell.Legible Manager
variable {σ : Type} [Storage σ] {s : System σ} {events : List (Event σ)} {name : String} {job : Job} {i n : Nat}

/-! ### From the lookup to the end -/

/-- What a call's job has while the model is asked is what the call gave it. -/
theorem Invariant.remembered (h : s.Invariant) (hcalls : s.calls = []) (hn : n ≤ events.length)
    (hasking : (s.moment events n).asking? i = some job) (hkeeps : job.keeps name) :
    ∃ m < n, ∃ begun, Remembers name s events i m begun job.memory := by
  induction n generalizing job with
  | zero =>
    obtain ⟨_,_,hcall,_⟩ := asking?_eq_some.mp hasking
    rw [show (s.moment events 0).calls = [] from hcalls] at hcall
    cases hcall
  | succ n ih =>
    have hevent : events[n]? = some events[n] := List.getElem?_eq_getElem hn
    rw [moment_succ hevent] at hasking
    obtain ⟨earlier,hdefinition,⟨hbefore,hmemory⟩ | ⟨number,input,hcall,hjob,hwhat⟩⟩ :=
      (h.moment events n).asking?_step events[n] hasking
    · rw [Job.keeps, hdefinition] at hkeeps
      obtain ⟨m,hm,begun,hremembers⟩ := ih (by omega) hbefore hkeeps
      exact ⟨m,by omega,begun,hmemory ▸ hremembers⟩
    · rw [Job.keeps, hdefinition] at hkeeps
      exact ⟨n,n.lt_succ_self,earlier,hwhat ▸ hevent,hkeeps,number,input,hcall,hjob⟩

omit [Storage σ] in
/-- A reply that comes before anybody ends the run completes it. -/
theorem saved?_completed (hasking : s.asking? i = some job) (hkeeps : job.keeps name) (hstate : job.state ≠ .terminated)
    (text : String) : s.saved? name (.finish i (.completed text)) = some (job.finish s.now (.completed text)).2 := by
  have hdone := (Job.finish_completed hstate (Job.ne_none_of_keeps hkeeps) s.now text).1
  have hsame := Job.definition_finish s.now (.completed text) job
  rw [saved?, hasking, Option.map_some, Option.filter_some, if_pos]
  rw [Job.keeps, hsame, ← Job.keeps, hkeeps, hdone]
  rfl

variable [FallibleNodes σ]

/--
Whatever text stands in the file of an agent when it is looked up: a run that is completed by its reply has in its job what
it found there, with its own input and reply and one run more than the file told of, or none at all if the file told of the
greatest number; nothing else that was stored is changed. If its save is accepted, that is what stands in the file then.
-/
theorem runs_counted {shell : Shell σ} (hshell : Intact shell.session.fs) (model : Model) (limit : Option Nat)
    (hreadable : Readable events) :
    let s := new (Manager.new shell model limit)
    let file (name : String) (n : Nat) := (s.moment events n).manager.file? name
    ∀ name n i text job, events[n]? = some (.finish i (.completed text)) → (s.moment events n).asking? i = some job →
      job.keeps name → job.state ≠ .terminated → ∃ done m begun,
        (s.moment events (n + 1)).manager.job? job.number = some done ∧ done.state = .completed ∧
        (∃ j : Nat, (s.moment events (n + 1)).calls[j]? = some ⟨job.number,job.input,.ended (.ok text)⟩) ∧
        m < n ∧ Remembers name s events i m begun job.memory ∧
        (∀ k ≤ m, LookedUp begun s events i k job.memory → Recorded (file name k) job.input text done.memory) ∧
        ((s.moment events n).manager.Accepts name done.memory →
          file name (n + 1) = some (Json.pretty 0 (.object done.memory))) := by
  intro s file name n i text job hevent hasking hkeeps hstate
  have h : s.Invariant := invariant_new shell model limit
  have hs : Intact s.manager.shell.session.fs := hshell
  have hn := (List.getElem?_eq_some_iff.mp hevent).1
  obtain ⟨m,hmn,begun,hremembers⟩ := h.remembered rfl hn.le hasking hkeeps
  have hsaved := saved?_completed hasking hkeeps hstate text
  obtain ⟨hjob,j,hcall⟩ := (h.moment events n).saved_step hsaved
  rw [← moment_succ hevent] at hjob hcall
  obtain ⟨hdone,hinput,houtput,hmemory⟩ :=
    Job.finish_completed hstate (Job.ne_none_of_keeps hkeeps) (s.moment events n).now text
  have hnumber : (job.finish (s.moment events n).now (.completed text)).2.number = job.number :=
    Job.Act.number_apply (.finish _ (.completed text)) job
  rw [hnumber] at hjob hcall
  rw [hinput, houtput] at hcall
  refine ⟨_,m,begun,hjob,hdone,⟨j,hcall⟩,hmn,hremembers,fun k hkm hlook => ?_,fun haccepted => ?_⟩
  · obtain ⟨_,hbegun,_⟩ := hremembers
    rw [hmemory, hlook.memory_eq hbegun (intact_moment h hs hreadable (hkm.trans (hmn.le.trans hn.le)))]
    exact recorded_recordRun _ _ _
  · change (s.moment events (n + 1)).manager.file? name = _
    rw [moment_succ hevent]
    exact (h.moment events n).file?_saved (intact_moment h hs hreadable hn.le) hsaved haccepted (.refl name)

/-! ### One run -/

/-- A text put into the file of one agent; no proof but by evaluation has to look into it. -/
@[irreducible] private def placed (text : String) (fs : FileSystem σ) : FileSystem σ :=
  ((FileSystem.write (memoryPath "bot") text).on ((FileSystem.mkdirAll memoryDir).on fs).2).2

private theorem intact_placed {fs : FileSystem σ} (hs : Intact fs) (text : String) : Intact (placed text fs) := by
  have hmade := (FileSystem.mkdirAll_tries hs memoryDir).altered.intact
  rw [placed]
  exact (FileSystem.write_tries hmade (segments_memoryPath _ "bot")).altered.intact

/-- A shell on a new tree, with a text in the file of the agent. -/
private def shelf (text : String) : Shell Provider :=
  ⟨⟨placed text ⟨.plain ((Storage.setUp 0).on (Provider.tree .empty)).2,"/",0⟩,[],[],true,"",[]⟩,[]⟩

/-- One run of the agent, which is given what is stored for it. -/
private def oneRun (s : System Provider) : List (Event Provider) :=
  let before := [.create { Definition.standard with name := "bot", memory := .persistent } false,.run 1 "x"]
  before ++ [.remember 0 ((s.after before).stored "bot"),.finish 0 (.completed "done")]

/-- The run after the forty-first one, over a file with parts of parts. -/
theorem counted_after_many :
    let text := "\x7b\"log\": [1, \x7b\"a\": null\x7d], \"runs\": 41\x7d"
    let s := new (Manager.new (shelf text) (Mock.model 100) none)
    let last := s.after (oneRun s)
    Intact (shelf text).session.fs ∧ Readable (oneRun s) ∧ s.manager.file? "bot" = some text ∧ toldRuns (some text) = 41 ∧
      ∃ done, last.manager.job? 1 = some done ∧ Recorded (some text) "x" "done" done.memory ∧
        last.manager.file? "bot" = some (Json.pretty 0 (.object done.memory)) := by
  intro text s last
  have hbare : Intact (⟨.plain ((Storage.setUp 0).on (Provider.tree .empty)).2,"/",0⟩ : FileSystem Provider) :=
    Provider.Ready.tree.sound_setUp 0
  have hshell : Intact (shelf text).session.fs := intact_placed hbare text
  have hreadable : Readable (oneRun s) := fun shell poisoned requests h => by simp [oneRun] at h
  have hfile : s.manager.file? "bot" = some text := by decide +kernel
  have htold : toldRuns (some text) = 41 := by decide +kernel
  have hany : ((s.moment (oneRun s) 3).asking? 0).any fun job =>
      job.keeps "bot" && job.state == .running && job.input == "x" && job.number == 1 := by decide +kernel
  obtain ⟨job,hasking,hjob⟩ := (Option.any_eq_true _ _).mp hany
  simp only [Bool.and_eq_true, beq_iff_eq] at hjob
  obtain ⟨⟨⟨hkeeps,hstate⟩,hinput⟩,hnumber⟩ := hjob
  have haccepts : (last.manager.job? 1).all fun done => !(s.moment (oneRun s) 3).manager.poisoned && decide
      (((s.moment (oneRun s) 3).manager.shell.onFiles (keep "bot" done.memory)).1 = .ok true) := by decide +kernel
  obtain ⟨done,m,begun,hdone,_,_,hm,hremembers,hrecorded,hfiled⟩ := runs_counted hshell (Mock.model 100) none
    hreadable "bot" 3 0 "done" job rfl hasking hkeeps (by simp [hstate])
  have hwhat := hremembers.1
  obtain rfl : m = 2 := by interval_cases m <;> first | rfl | cases hwhat
  have hlook : LookedUp begun s (oneRun s) 0 2 job.memory :=
    lookedUp_now hremembers (Event.remember.inj (Option.some.inj hwhat)).2.symm (by decide +kernel)
  have hcounted : Recorded (s.manager.file? "bot") job.input "done" done.memory := hrecorded 2 le_rfl hlook
  have hlast : last.manager.job? 1 = some done := hnumber ▸ hdone
  rw [hinput, hfile] at hcounted
  rw [hlast, Option.all_some, Bool.and_eq_true, Bool.not_eq_true', decide_eq_true_eq] at haccepts
  exact ⟨hshell,hreadable,hfile,htold,done,hlast,hcounted,hfiled ⟨haccepts.1,haccepts.2⟩⟩

/-- The run after the greatest count there is: it is completed and saved, and the file tells of no run at all. -/
theorem count_restarts :
    let s := new (Manager.new (shelf "\x7b\"runs\": 18446744073709551615\x7d") (Mock.model 100) none)
    let last := s.after (oneRun s)
    toldRuns (s.manager.file? "bot") = 18446744073709551615 ∧ last.manager.jobs.map Job.state = [.completed] ∧
      last.manager.file? "bot" = some (Json.pretty 0 (.object (noted 0 "x" "done"))) ∧
      toldRuns (last.manager.file? "bot") = 0 := by
  decide +kernel

end System
end VirtualShell.Agent
