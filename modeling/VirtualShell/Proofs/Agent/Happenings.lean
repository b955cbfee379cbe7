import Mathlib.Data.List.Perm.Subperm
import VirtualShell.Proofs.Agent.Schedule

/-!
What can happen to a schedule: calls of the manager come at any moment, and between them tasks that can go on do so,
one at a time and in any order. What every single step carries on, all of them do, and so do the waits of the foreground.
-/
namespace VirtualShell.Agent.Schedule
variable {σ α β : Type}

/-! ### Where an action leads -/

/-- From where something holds, an action leads to where something else does. -/
def Leads (P : Schedule σ → Prop) (act : Scheduling σ α) (Q : α → Schedule σ → Prop) : Prop :=
  ∀ schedule, P schedule → Q (act.run schedule).1 (act.run schedule).2

namespace Leads
variable {P P' : Schedule σ → Prop} {Q Q' : α → Schedule σ → Prop} {R : β → Schedule σ → Prop}

theorem pure (x : α) (h : ∀ schedule, P schedule → Q x schedule) : Leads P (Pure.pure x) Q := h

theorem bind {act : Scheduling σ α} {next : α → Scheduling σ β} (h : Leads P act Q) (hnext : ∀ x, Leads (Q x) (next x) R) :
    Leads P (act >>= next) R := fun schedule hp => hnext _ _ (h schedule hp)

/-- What the schedule is when an action looks at it. -/
theorem get_bind {next : Schedule σ → Scheduling σ β}
    (h : ∀ now, P now → Leads (fun schedule => schedule = now) (next now) R) : Leads P (MonadState.get >>= next) R :=
  fun schedule hp => h schedule hp schedule rfl

theorem update {f : Schedule σ → Schedule σ} {Q : Schedule σ → Prop} (h : ∀ schedule, P schedule → Q (f schedule)) :
    Leads P (modify f) fun _ => Q := h

theorem mono {act : Scheduling σ α} (h : Leads P act Q) (hp : ∀ schedule, P' schedule → P schedule)
    (hq : ∀ x schedule, Q x schedule → Q' x schedule) : Leads P' act Q' := fun schedule hs => hq _ _ (h schedule (hp schedule hs))

/-- From a single schedule. -/
theorem from_ {now : Schedule σ} {act : Scheduling σ α} (h : Leads P act Q) (hp : P now) :
    Leads (fun schedule => schedule = now) act Q :=
  h.mono (fun _ he => he ▸ hp) fun _ _ h => h

/-- What is known beforehand. -/
theorem given {c : Prop} {act : Scheduling σ α} (h : c → Leads P act Q) : Leads (fun schedule => c ∧ P schedule) act Q :=
  fun schedule hp => h hp.1 schedule hp.2

/-- What an action leads to is known. -/
theorem run_bind {now later : Schedule σ} {act : Scheduling σ α} {next : α → Scheduling σ β} {x : α}
    (h : act.run now = (x,later)) (hnext : Leads (fun schedule => schedule = later) (next x) R) :
    Leads (fun schedule => schedule = now) (act >>= next) R := by
  rintro _ rfl
  rw [StateT.run_bind, h]
  exact hnext later rfl

theorem ite {c : Prop} [Decidable c] {act other : Scheduling σ α} (h : Leads P act Q) (ho : Leads P other Q) :
    Leads P (if c then act else other) Q := by
  split
  · exact h
  · exact ho

end Leads

variable [Storage σ]

/-! ### Calls of the manager -/

/-- A call of the manager that is one of the interleavings, and begins and ends no run. -/
def Mirrored (act : Nat → Managing σ α) : Prop :=
  ∀ asking tasks, Follows (Holds asking tasks) (managing act) fun _ => Holds asking tasks

namespace Mirrored

theorem pure (x : α) : Mirrored (σ := σ) fun _ => Pure.pure x := fun _ _ => .pure x fun _ _ h => h

theorem bind {act : Nat → Managing σ α} {next : α → Nat → Managing σ β} (h : Mirrored act) (hnext : ∀ x, Mirrored (next x)) :
    Mirrored fun now => act now >>= fun x => next x now :=
  fun asking tasks => (h asking tasks).bind fun x => hnext x asking tasks

/-- What the manager is when a call looks at it. -/
theorem get_bind {next : Manager σ → Nat → Managing σ β} (h : ∀ manager, Mirrored (next manager)) :
    Mirrored fun now => MonadState.get >>= fun manager => next manager now :=
  fun asking tasks schedule s hs => h schedule.manager asking tasks schedule s hs

theorem act (number : Nat) (control : Control) : Mirrored (σ := σ) fun now => Manager.act number (control.act now) := by
  rintro asking tasks schedule s ⟨hs,htasks⟩
  refine ⟨[.control number control],hs.step (.control number control) hs.now ?_ rfl ?_,htasks⟩
  · rw [run_managing, ← hs.manager, ← hs.now]
    rfl
  · have hact : ∀ now input, control.act s.now ≠ .begin now input := by cases control <;> simp [Control.act]
    simp only [System.step, Manager.run_act hs.invariant.numbered]
    exact hs.active_on number hact

theorem create (definition : Definition) (background : Bool) :
    Mirrored (σ := σ) fun _ => Manager.create definition background := by
  rintro asking tasks schedule s ⟨hs,htasks⟩
  refine ⟨[.create definition background],hs.step (.create definition background) hs.now ?_ rfl ?_,htasks⟩
  · rw [run_managing, ← hs.manager]
    rfl
  · intro job hj hactive
    rcases List.mem_append.mp hj with hj | hj
    · exact hs.active job hj hactive
    · rw [List.mem_singleton.mp hj] at hactive
      simp [Job.new, State.isActive] at hactive

theorem drop (pid : String) : Mirrored (σ := σ) fun _ => Manager.drop pid := by
  rintro asking tasks schedule s ⟨hs,htasks⟩
  refine ⟨[.drop pid],hs.step (.drop pid) hs.now ?_ rfl ?_,htasks⟩
  · rw [run_managing, ← hs.manager]
    rfl
  · rcases Manager.run_drop_cases hs.invariant.numbered pid with hsame | ⟨job,_,_,hdrop⟩
    · simpa only [System.step, hsame] using hs.active
    · simp only [System.step, hdrop]
      exact hs.active_on job.number (by simp)

/-- Others use the shell. -/
theorem elsewhere (shell : Shell σ) (poisoned : Bool) :
    Mirrored (σ := σ) fun _ => modify fun manager => { manager with shell, poisoned } := by
  rintro asking tasks schedule s ⟨hs,htasks⟩
  refine ⟨[.elsewhere shell poisoned schedule.manager.requests],hs.step (.elsewhere shell poisoned _) hs.now ?_ rfl hs.active,htasks⟩
  simp only [System.step, hs.manager]
  rfl

end Mirrored

/-- Calls from outside of runs, which do not make a run begin or end; others leave the shell as allowed, poisoned or not. -/
inductive Outside (allowed : Bool → Prop) : {α : Type} → (Nat → Managing σ α) → Prop
  | pure {α : Type} (x : α) : Outside allowed fun _ => Pure.pure x
  | bind {α β : Type} {act : Nat → Managing σ α} {next : α → Nat → Managing σ β} : Outside allowed act →
      (∀ x, Outside allowed (next x)) → Outside allowed fun now => act now >>= fun x => next x now
  | get_bind {β : Type} {next : Manager σ → Nat → Managing σ β} : (∀ manager, Outside allowed (next manager)) →
      Outside allowed fun now => MonadState.get >>= fun manager => next manager now
  | act (number : Nat) (control : Control) : Outside allowed fun now => Manager.act number (control.act now)
  | create (definition : Definition) (background : Bool) : Outside allowed fun _ => Manager.create definition background
  | drop (pid : String) : Outside allowed fun _ => Manager.drop pid
  | elsewhere (shell : Shell σ) {poisoned : Bool} : allowed poisoned →
      Outside allowed fun _ => modify fun manager => { manager with shell, poisoned }

namespace Outside
variable {allowed : Bool → Prop}

theorem mirrored {act : Nat → Managing σ α} (h : Outside allowed act) : Mirrored act := by
  induction h with
  | pure x => exact .pure x
  | bind _ _ ih ihnext => exact ih.bind ihnext
  | get_bind _ ih => exact .get_bind ih
  | act number control => exact .act number control
  | create definition background => exact .create definition background
  | drop pid => exact .drop pid
  | elsewhere shell _ => exact .elsewhere shell _

section
omit [Storage σ]

theorem actOn (pid : String) (control : Control) : Outside (σ := σ) allowed fun now => Manager.actOn pid (control.act now) := by
  refine .get_bind fun manager => ?_
  cases manager.find? pid with
  | none => exact .pure false
  | some job => exact .act job.number control

theorem actOnAll (control : Control) (jobs : List Job) :
    Outside (σ := σ) allowed fun now => Manager.actOnAll (control.act now) jobs := by
  induction jobs with
  | nil => exact .pure 0
  | cons job rest ih => exact (Outside.act job.number control).bind fun done => ih.bind fun more => .pure _

theorem kill (pid : String) : Outside (σ := σ) allowed fun now => Manager.kill now pid := actOn pid .kill

theorem suspend (pid : String) : Outside (σ := σ) allowed fun _ => Manager.suspend pid := actOn pid .suspend

theorem resume (pid : String) : Outside (σ := σ) allowed fun _ => Manager.resume pid := actOn pid .resume

theorem drops (pids : List String) : Outside (σ := σ) allowed fun _ => pids.forM Manager.drop := by
  induction pids with
  | nil => exact .pure ()
  | cons pid rest ih => exact (Outside.drop pid).bind fun _ => ih

theorem cleanupCompleted : Outside (σ := σ) allowed fun _ => Manager.cleanupCompleted :=
  .get_bind fun manager => (drops manager.table.keys).bind fun _ => .get_bind fun _ => .pure _

theorem cleanupAll : Outside (σ := σ) allowed Manager.cleanupAll :=
  .get_bind fun manager => (actOnAll .giveUp manager.listed).bind fun _ => cleanupCompleted

end

end Outside

/-! ### What is carried on -/

/-- The runs that the foreground has under way after the start of one; each is told by its job as it was then. -/
def started (front : List Job) : Except AgentError Job → List Job
  | .error _ => front
  | .ok job => job :: front

/-- The runs that the foreground has under way when the work of one is done. -/
def worked (front : List Job) : String ⊕ Wait → List Job
  | .inl _ => front
  | .inr wait => wait.job :: front

/-- A statement about a schedule with some runs of the foreground under way, while some tasks that were taken out of the
queue are still to go on. It is carried on by every step of a schedule, as long as others leave the shell as allowed. -/
structure CarriedIf (allowed : Bool → Prop) (inv : List Job → List Nat → Schedule σ → Prop) : Prop where
  queue {front : List Job} {pending ready : List Nat} {schedule : Schedule σ} : inv front [] schedule →
    (∀ id ∈ schedule.ready, id ∈ pending ++ ready) → inv front pending { schedule with ready }
  advance {front : List Job} {pending : List Nat} (id : Nat) :
    Leads (inv front (id :: pending)) (Schedule.advance id) fun _ => inv front pending
  wake {front : List Job} (ids : List Nat) : Leads (inv front []) (Schedule.wake ids) fun _ => inv front []
  clock {front : List Job} {schedule : Schedule σ} (moment : Nat) :
    inv front [] schedule → inv front [] { schedule with now := max schedule.now moment }
  credit {front : List Job} {schedule : Schedule σ} (credit : Nat) :
    inv front [] schedule → inv front [] { schedule with credit }
  spawn {front : List Job} (number : Nat) (input : String) :
    Leads (inv front []) (Schedule.spawn number input) fun _ => inv front []
  managing {front : List Job} {α : Type} {act : Nat → Managing σ α} : Outside allowed act →
    Leads (inv front []) (Schedule.managing act) fun _ => inv front []
  start {front : List Job} (number : Nat) (input : String) :
    Leads (inv front []) (Schedule.start number input) fun result => inv (started front result) []
  work {front : List Job} (job : Job) :
    Leads (inv (job :: front) []) (Schedule.work job) fun progress => inv (worked front progress) []
  endWait {front : List Job} (wait : Wait) :
    Leads (inv (wait.job :: front) []) (Schedule.endWait wait) fun _ => inv front []

namespace CarriedIf
variable {allowed : Bool → Prop}

/-- Two statements that are carried on are so together. -/
theorem and {inv inv' : List Job → List Nat → Schedule σ → Prop} (h : CarriedIf allowed inv) (h' : CarriedIf allowed inv') :
    CarriedIf allowed fun front pending schedule => inv front pending schedule ∧ inv' front pending schedule where
  queue hs hready := ⟨h.queue hs.1 hready,h'.queue hs.2 hready⟩
  advance id := fun schedule hs => ⟨h.advance id schedule hs.1,h'.advance id schedule hs.2⟩
  wake ids := fun schedule hs => ⟨h.wake ids schedule hs.1,h'.wake ids schedule hs.2⟩
  clock moment hs := ⟨h.clock moment hs.1,h'.clock moment hs.2⟩
  credit credit hs := ⟨h.credit credit hs.1,h'.credit credit hs.2⟩
  spawn number input := fun schedule hs => ⟨h.spawn number input schedule hs.1,h'.spawn number input schedule hs.2⟩
  managing hact := fun schedule hs => ⟨h.managing hact schedule hs.1,h'.managing hact schedule hs.2⟩
  start number input := fun schedule hs => ⟨h.start number input schedule hs.1,h'.start number input schedule hs.2⟩
  work job := fun schedule hs => ⟨h.work job schedule hs.1,h'.work job schedule hs.2⟩
  endWait wait := fun schedule hs => ⟨h.endWait wait schedule hs.1,h'.endWait wait schedule hs.2⟩

/-- So is a statement about something that is not told. -/
theorem exists_ {ι : Type} {inv : ι → List Job → List Nat → Schedule σ → Prop} (h : ∀ x, CarriedIf allowed (inv x)) :
    CarriedIf allowed fun front pending schedule => ∃ x, inv x front pending schedule where
  queue := fun ⟨x,hs⟩ hready => ⟨x,(h x).queue hs hready⟩
  advance id := fun schedule ⟨x,hs⟩ => ⟨x,(h x).advance id schedule hs⟩
  wake ids := fun schedule ⟨x,hs⟩ => ⟨x,(h x).wake ids schedule hs⟩
  clock moment := fun ⟨x,hs⟩ => ⟨x,(h x).clock moment hs⟩
  credit credit := fun ⟨x,hs⟩ => ⟨x,(h x).credit credit hs⟩
  spawn number input := fun schedule ⟨x,hs⟩ => ⟨x,(h x).spawn number input schedule hs⟩
  managing hact := fun schedule ⟨x,hs⟩ => ⟨x,(h x).managing hact schedule hs⟩
  start number input := fun schedule ⟨x,hs⟩ => ⟨x,(h x).start number input schedule hs⟩
  work job := fun schedule ⟨x,hs⟩ => ⟨x,(h x).work job schedule hs⟩
  endWait wait := fun schedule ⟨x,hs⟩ => ⟨x,(h x).endWait wait schedule hs⟩

end CarriedIf

/-- It is carried on whatever others do. -/
abbrev Carried (inv : List Job → List Nat → Schedule σ → Prop) : Prop := CarriedIf (fun _ => True) inv

/-- Nobody can go on, and nobody waits for an earlier moment. -/
def Free (moment : Nat) (schedule : Schedule σ) : Prop := schedule.ready = [] ∧ ∀ other ∈ schedule.moments, moment ≤ other

/-- Tasks that sleep, and whose waits are over or for work that was given up. -/
structure Wakeable (ids : List Nat) (schedule : Schedule σ) : Prop where
  sleep : ids.Subperm schedule.sleeping
  elapsed : ∀ id ∈ ids, ∀ wait, schedule.wait? id = some wait → wait.until_ ≤ schedule.now ∨ schedule.isCancelled wait.job

/-- A statement that is kept while tasks go on and wait: time goes on only when no task can, up to the next moment at
most, and only tasks are woken that have nothing to wait for. -/
structure Idling (inv : List Nat → Schedule σ → Prop) : Prop where
  queue {pending ready : List Nat} {schedule : Schedule σ} : inv [] schedule → schedule.ready.Perm (pending ++ ready) →
    inv pending { schedule with ready }
  advance {pending : List Nat} (id : Nat) : Leads (inv (id :: pending)) (Schedule.advance id) fun _ => inv pending
  wake {ids : List Nat} {schedule : Schedule σ} : inv [] schedule → Wakeable ids schedule →
    inv [] ((Schedule.wake ids).run schedule).2
  clock {moment : Nat} {schedule : Schedule σ} : inv [] schedule → Free moment schedule →
    inv [] { schedule with now := max schedule.now moment }
  credit {schedule : Schedule σ} (credit : Nat) : inv [] schedule → inv [] { schedule with credit }

/-- A statement that is kept by every step as a schedule makes it. Calls of the manager are of some kind. -/
structure Sustained (calls : {α : Type} → (Nat → Managing σ α) → Prop) (inv : List Job → List Nat → Schedule σ → Prop) :
    Prop where
  idling (front : List Job) : Idling (inv front)
  spawn {front : List Job} (number : Nat) (input : String) :
    Leads (inv front []) (Schedule.spawn number input) fun _ => inv front []
  managing {front : List Job} {α : Type} {act : Nat → Managing σ α} : calls act →
    Leads (inv front []) (Schedule.managing act) fun _ => inv front []
  start {front : List Job} (number : Nat) (input : String) :
    Leads (inv front []) (Schedule.start number input) fun result => inv (started front result) []
  work {front : List Job} (job : Job) :
    Leads (inv (job :: front) []) (Schedule.work job) fun progress => inv (worked front progress) []
  endWait {front : List Job} (wait : Wait) :
    Leads (inv (wait.job :: front) []) (Schedule.endWait wait) fun _ => inv front []

section
omit [Storage σ]
variable {schedule : Schedule σ}

/-- Who is woken when work was given up waited for it. -/
theorem wakeable_givenUp (schedule : Schedule σ) : Wakeable schedule.givenUp schedule := by
  let waits := schedule.sleeping.filterMap fun id => (schedule.wait? id).map (id, ·)
  let cancelled := waits.filter fun entry => schedule.isCancelled entry.2.job
  have hperm : schedule.givenUp.Perm (cancelled.map Prod.fst) := (List.mergeSort_perm cancelled _).map _
  have hids : waits.map Prod.fst = schedule.sleeping.filter fun id => (schedule.wait? id).isSome := by
    simp only [waits, List.map_filterMap, ← List.filterMap_eq_filter]
    refine List.filterMap_congr fun id _ => ?_
    cases hwait : schedule.wait? id <;> simp [Option.guard, hwait]
  refine ⟨hperm.subperm.trans ?_,fun id hid wait hwait => .inr ?_⟩
  · refine (List.filter_sublist.map Prod.fst).subperm.trans ?_
    rw [hids]
    exact List.filter_sublist.subperm
  · obtain ⟨entry,hentry,rfl⟩ := List.mem_map.mp (hperm.mem_iff.mp hid)
    obtain ⟨hmem,hcancelled⟩ := List.mem_filter.mp hentry
    obtain ⟨other,_,hother⟩ := List.mem_filterMap.mp hmem
    obtain ⟨found,hfound,rfl⟩ := Option.map_eq_some_iff.mp hother
    rw [hwait] at hfound
    cases hfound
    exact hcancelled

/-- Who is due has waited for long enough. -/
theorem wakeable_due (schedule : Schedule σ) : Wakeable schedule.due schedule := by
  refine ⟨List.filter_sublist.subperm,fun id hid wait hwait => .inl ?_⟩
  have hdue := (List.mem_filter.mp hid).2
  simpa [hwait] using hdue

/-- The next moment is not after any for which a task waits. -/
theorem free_next {alarm : Option Nat} {moment : Nat} (hready : schedule.ready = [])
    (hnext : schedule.next? alarm = some moment) : Free moment schedule :=
  ⟨hready,fun other ho => (List.min?_eq_some_iff.mp hnext).2 other (List.mem_append_right _ ho)⟩

end

namespace Idling
variable {inv : List Nat → Schedule σ → Prop}

theorem jump (h : Idling inv) (moment : Nat) :
    Leads (fun schedule => inv [] schedule ∧ Free moment schedule) (Schedule.jump moment) fun _ => inv [] := by
  refine (Leads.update (Q := inv []) fun _ hs => h.clock hs.1 hs.2).bind fun _ => .get_bind fun now hn => ?_
  rintro _ rfl
  exact h.wake hn (wakeable_due _)

private theorem advanceAll (h : Idling inv) (ids : List Nat) :
    Leads (inv ids) (ids.forM Schedule.advance) fun _ => inv [] := by
  induction ids with
  | nil => exact .pure _ fun _ h => h
  | cons id rest ih => exact (h.advance id).bind fun _ => ih

theorem drain (h : Idling inv) : Leads (inv []) Schedule.drain fun _ => inv [] := by
  -- What is taken out of the queue at once stays pending until its turn comes.
  refine .get_bind fun now hn => .bind (Leads.update (Q := inv (now.ready.take turn)) ?_) fun _ => h.advanceAll _
  rintro schedule rfl
  exact h.queue hn (by rw [List.take_append_drop])

theorem idle (h : Idling inv) (alarm : Option Nat) (isOver : Schedule σ → Bool) (fuel : Nat) :
    Leads (inv []) (Schedule.idle alarm isOver fuel) fun _ => inv [] := by
  induction fuel with
  | zero => exact .pure _ fun _ h => h
  | succ fuel ih =>
    refine h.drain.bind fun _ => .get_bind fun now hn => .ite (.pure _ fun _ he => he ▸ hn) ?_
    split
    · exact ih.from_ hn
    · rename_i hready
      cases hnext : now.next? alarm with
      | none => exact .pure _ fun _ he => he ▸ hn
      | some moment =>
        have hfree : Free moment now := free_next (by simpa using hready) hnext
        exact ((h.jump moment).from_ ⟨hn,hfree⟩).bind fun _ => .ite (.pure _ fun _ h => h) ih

private theorem restoreCredit (h : Idling inv) : Leads (inv []) Schedule.restoreCredit fun _ => inv [] :=
  .update fun _ => h.credit _

theorem giveTurn (h : Idling inv) : Leads (inv []) Schedule.giveTurn fun _ => inv [] := h.drain.bind fun _ => h.restoreCredit

theorem beforeWait (h : Idling inv) : Leads (inv []) Schedule.beforeWait fun _ => inv [] :=
  .get_bind fun _ hn => .ite (h.giveTurn.from_ hn) (.pure _ fun _ he => he ▸ hn)

theorem afterWait (h : Idling inv) : Leads (inv []) Schedule.afterWait fun _ => inv [] := .update fun _ => h.credit _

theorem pause (h : Idling inv) (alarm : Option Nat) (isOver : Schedule σ → Bool) :
    Leads (inv []) (Schedule.pause alarm isOver) fun _ => inv [] :=
  .get_bind fun _ hn => ((h.idle alarm isOver _).from_ hn).bind fun _ => h.restoreCredit

theorem sleep (h : Idling inv) (milliseconds : Nat) : Leads (inv []) (Schedule.sleep milliseconds) fun _ => inv [] :=
  .ite h.giveTurn (h.beforeWait.bind fun _ => .get_bind fun _ hn => ((h.pause _ _).from_ hn).bind fun _ => h.afterWait)

theorem await (h : Idling inv) (id : Nat) : Leads (inv []) (Schedule.await id) fun _ => inv [] := by
  have hrest : Leads (inv []) (Schedule.afterWait >>= fun _ => return (← get).reply? id) fun _ => inv [] :=
    h.afterWait.bind fun _ => .get_bind fun _ hn => .pure _ fun _ he => he ▸ hn
  refine h.beforeWait.bind fun _ => .get_bind fun now hn => ?_
  exact .ite (((h.pause _ _).from_ hn).bind fun _ => hrest) (hrest.from_ hn)

end Idling

namespace Sustained
variable {calls : {α : Type} → (Nat → Managing σ α) → Prop} {inv : List Job → List Nat → Schedule σ → Prop}
  {front : List Job}

theorem interrupting {act : Nat → Managing σ α} (h : Sustained calls inv) (hact : calls act) :
    Leads (inv front []) (Schedule.interrupting act) fun _ => inv front [] := by
  refine (h.managing hact).bind fun _ => .get_bind fun now hn => .bind (Q := fun _ => inv front []) ?_ fun _ => .pure _ fun _ h => h
  rintro _ rfl
  exact (h.idling front).wake hn (wakeable_givenUp _)

/-- The end of a run in the foreground. -/
private theorem endRun (h : Sustained calls inv) (wait : Wait) : Leads (inv (wait.job :: front) [])
    (Schedule.afterWait >>= fun _ => do return .ok (← Schedule.endWait wait))
    fun (_ : Except AgentError String) => inv front [] :=
  (h.idling _).afterWait.bind fun _ => (h.endWait wait).bind fun _ => .pure _ fun _ h => h

/-- A run in the foreground after its start. -/
private theorem goOn (h : Sustained calls inv) (job : Job) : Leads (inv (job :: front) [])
    (do
      match ← Schedule.work job with
      | .inl reply => return .ok reply
      | .inr wait =>
        if (← get).now < wait.until_ then Schedule.pause (some wait.until_) fun _ => false
        Schedule.afterWait
        return .ok (← Schedule.endWait wait))
    fun (_ : Except AgentError String) => inv front [] := by
  refine (h.work job).bind fun progress => ?_
  cases progress with
  | inl reply => exact .pure _ fun _ h => h
  | inr wait =>
    exact .get_bind fun now hn => .ite ((((h.idling _).pause _ _).from_ hn).bind fun _ => h.endRun wait) ((h.endRun wait).from_ hn)

theorem run (h : Sustained calls inv) (number : Nat) (input : String) :
    Leads (inv front []) (Schedule.run number input) fun _ => inv front [] := by
  refine (h.start number input).bind fun result => ?_
  cases result with
  | error e => exact .pure _ fun _ h => h
  | ok job =>
    exact .get_bind fun now hn => .ite (((h.idling _).beforeWait.from_ hn).bind fun _ => h.goOn job) ((h.goOn job).from_ hn)

end Sustained

namespace CarriedIf
variable {allowed : Bool → Prop} {inv : List Job → List Nat → Schedule σ → Prop} {front : List Job}

/-- What any steps carry on, those of a schedule do. -/
theorem sustained (h : CarriedIf allowed inv) : Sustained (Outside allowed) inv where
  idling _ := {
    queue := fun hs hperm => h.queue hs fun _ => hperm.mem_iff.mp
    advance := h.advance
    wake := fun {ids schedule} hs _ => h.wake ids schedule hs
    clock := fun hs _ => h.clock _ hs
    credit := h.credit }
  spawn := h.spawn
  managing := h.managing
  start := h.start
  work := h.work
  endWait := h.endWait

theorem interrupting {act : Nat → Managing σ α} (h : CarriedIf allowed inv) (hact : Outside allowed act) :
    Leads (inv front []) (Schedule.interrupting act) fun _ => inv front [] := h.sustained.interrupting hact

theorem beforeWait (h : CarriedIf allowed inv) : Leads (inv front []) Schedule.beforeWait fun _ => inv front [] :=
  (h.sustained.idling front).beforeWait

end CarriedIf

/-! ### Happenings -/

/-- Lets a task go on if it can. -/
def poll (id : Nat) : Scheduling σ Unit := do
  if (← get).ready.contains id then
    modify fun schedule => { schedule with ready := schedule.ready.erase id }
    advance id

/-- What can happen between two waits of the foreground: it calls the manager or waits, others use the shell, time goes
on, or one of the tasks does. -/
inductive Happening (σ : Type) where
  | elsewhere (shell : Shell σ) (poisoned : Bool)
  | create (definition : Definition) (background : Bool)
  | spawn (number : Nat) (input : String)
  | run (number : Nat) (input : String)
  | await (id : Nat)
  | sleep (milliseconds : Nat)
  | jump (moment : Nat)
  | poll (id : Nat)
  | kill (pid : String)
  | suspend (pid : String)
  | resume (pid : String)
  | cleanupCompleted
  | cleanupAll

def Happening.act : Happening σ → Scheduling σ Unit
  | elsewhere shell poisoned => managing fun _ => modify fun manager => { manager with shell, poisoned }
  | create definition background => do let _ ← managing fun _ => Manager.create definition background
  | spawn number input => do let _ ← Schedule.spawn number input
  | run number input => do let _ ← Schedule.run number input
  | await id => do let _ ← Schedule.await id
  | sleep milliseconds => Schedule.sleep milliseconds
  | jump moment => Schedule.jump moment
  | poll id => Schedule.poll id
  | kill pid => do let _ ← interrupting fun now => Manager.kill now pid
  | suspend pid => do let _ ← managing fun _ => Manager.suspend pid
  | resume pid => do let _ ← managing fun _ => Manager.resume pid
  | cleanupCompleted => do let _ ← interrupting fun _ => Manager.cleanupCompleted
  | cleanupAll => do let _ ← interrupting Manager.cleanupAll

/-- Others leave the shell as allowed. -/
def Happening.Leaves (allowed : Bool → Prop) : Happening σ → Prop
  | elsewhere _ poisoned => allowed poisoned
  | _ => True

/-- A schedule after a sequence of happenings. -/
def play (happenings : List (Happening σ)) (schedule : Schedule σ) : Schedule σ :=
  happenings.foldl (fun schedule happening => (happening.act.run schedule).2) schedule

section
omit [Storage σ]

private theorem Leads.done {inv : List Job → List Nat → Schedule σ → Prop} {act : Scheduling σ α}
    (h : Leads (inv [] []) act fun _ => inv [] []) : Leads (inv [] []) (do let _ ← act) fun _ => inv [] [] :=
  h.bind fun _ => .pure _ fun _ h => h

end

/-- A happening does not move the clock past a moment for which a task waits, or while one can go on. -/
def Happening.Timely (schedule : Schedule σ) : Happening σ → Prop
  | jump moment => Free moment schedule
  | _ => True

/-- The calls of the manager in a happening are of some kind. -/
def Happening.Makes (calls : {α : Type} → (Nat → Managing σ α) → Prop) : Happening σ → Prop
  | elsewhere shell poisoned => calls fun _ => modify fun manager : Manager σ => { manager with shell, poisoned }
  | create definition background => calls fun _ => Manager.create (σ := σ) definition background
  | kill pid => calls fun now => Manager.kill (σ := σ) now pid
  | suspend pid => calls fun _ => Manager.suspend (σ := σ) pid
  | resume pid => calls fun _ => Manager.resume (σ := σ) pid
  | cleanupCompleted => calls fun _ => Manager.cleanupCompleted (σ := σ)
  | cleanupAll => calls (Manager.cleanupAll (σ := σ))
  | _ => True

namespace Sustained
variable {calls : {α : Type} → (Nat → Managing σ α) → Prop} {inv : List Job → List Nat → Schedule σ → Prop}

theorem poll (h : Sustained calls inv) (id : Nat) : Leads (inv [] []) (Schedule.poll id) fun _ => inv [] [] := by
  refine .get_bind fun now hn => ?_
  split
  · rename_i hid
    refine .bind (.update (Q := inv [] [id]) ?_) fun _ => (h.idling []).advance id
    rintro schedule rfl
    exact (h.idling []).queue hn (List.perm_cons_erase (by simpa using hid))
  · exact .pure _ fun _ he => he ▸ hn

theorem happening (h : Sustained calls inv) {happening : Happening σ} (hmakes : happening.Makes calls)
    {schedule : Schedule σ} (hs : inv [] [] schedule) (htimely : happening.Timely schedule) :
    inv [] [] (happening.act.run schedule).2 := by
  cases happening with
  | elsewhere shell poisoned => exact h.managing hmakes schedule hs
  | create definition background => exact (h.managing hmakes).done schedule hs
  | spawn number input => exact (h.spawn number input).done schedule hs
  | run number input => exact (h.run number input).done schedule hs
  | await id => exact Leads.done ((h.idling []).await id) schedule hs
  | sleep milliseconds => exact (h.idling []).sleep milliseconds schedule hs
  | jump moment => exact (h.idling []).jump moment schedule ⟨hs,htimely⟩
  | poll id => exact h.poll id schedule hs
  | kill pid => exact (h.interrupting hmakes).done schedule hs
  | suspend pid => exact (h.managing hmakes).done schedule hs
  | resume pid => exact (h.managing hmakes).done schedule hs
  | cleanupCompleted => exact (h.interrupting hmakes).done schedule hs
  | cleanupAll => exact (h.interrupting hmakes).done schedule hs

/-- What time does not change may see it go on at any moment. -/
theorem untimely (h : Sustained calls inv)
    (hclock : ∀ moment schedule, inv [] [] schedule → inv [] [] { schedule with now := max schedule.now moment })
    {happening : Happening σ} (hmakes : happening.Makes calls) :
    Leads (inv [] []) happening.act fun _ => inv [] [] := by
  intro schedule hs
  by_cases htimely : happening.Timely schedule
  · exact h.happening hmakes hs htimely
  · cases happening with
    | jump moment => exact (h.idling []).wake (hclock moment schedule hs) (wakeable_due _)
    | _ => exact absurd trivial htimely

end Sustained

/-- It goes on after any happenings then. -/
theorem Sustained.play_untimely {calls : {α : Type} → (Nat → Managing σ α) → Prop}
    {inv : List Job → List Nat → Schedule σ → Prop} (h : Sustained calls inv)
    (hclock : ∀ moment schedule, inv [] [] schedule → inv [] [] { schedule with now := max schedule.now moment })
    {schedule : Schedule σ} (hs : inv [] [] schedule) {happenings : List (Happening σ)}
    (hmakes : ∀ happening ∈ happenings, happening.Makes calls) : inv [] [] (schedule.play happenings) := by
  induction happenings generalizing schedule with
  | nil => exact hs
  | cons happening rest ih =>
    exact ih (h.untimely hclock (hmakes _ List.mem_cons_self) schedule hs) fun later hl => hmakes later (List.mem_cons_of_mem _ hl)

/-- Happenings that move the clock in time only. -/
def Punctual (schedule : Schedule σ) : List (Happening σ) → Prop
  | [] => True
  | happening :: rest => happening.Timely schedule ∧ Punctual (happening.act.run schedule).2 rest

theorem punctual_append {schedule : Schedule σ} {happenings more : List (Happening σ)} :
    schedule.Punctual (happenings ++ more) ↔ schedule.Punctual happenings ∧ (schedule.play happenings).Punctual more := by
  induction happenings generalizing schedule with
  | nil => simp [Punctual, play]
  | cons happening rest ih => rw [List.cons_append, Punctual, ih, Punctual, and_assoc]; rfl

/-- What the steps of a schedule keep holds after happenings in time. -/
theorem Sustained.play {calls : {α : Type} → (Nat → Managing σ α) → Prop} {inv : List Job → List Nat → Schedule σ → Prop}
    (h : Sustained calls inv) {schedule : Schedule σ} (hs : inv [] [] schedule) {happenings : List (Happening σ)}
    (hmakes : ∀ happening ∈ happenings, happening.Makes calls) (hpunctual : schedule.Punctual happenings) :
    inv [] [] (schedule.play happenings) := by
  induction happenings generalizing schedule with
  | nil => exact hs
  | cons happening rest ih =>
    exact ih (h.happening (hmakes _ List.mem_cons_self) hs hpunctual.1)
      (fun later hl => hmakes later (List.mem_cons_of_mem _ hl)) hpunctual.2

omit [Storage σ] in
theorem Happening.makes_outside {allowed : Bool → Prop} {happening : Happening σ} (h : happening.Leaves allowed) :
    happening.Makes (Outside allowed) := by
  cases happening with
  | elsewhere shell poisoned => exact .elsewhere shell h
  | create definition background => exact .create definition background
  | kill pid => exact .kill pid
  | suspend pid => exact .suspend pid
  | resume pid => exact .resume pid
  | cleanupCompleted => exact .cleanupCompleted
  | cleanupAll => exact .cleanupAll
  | _ => trivial

namespace CarriedIf
variable {allowed : Bool → Prop} {inv : List Job → List Nat → Schedule σ → Prop}

theorem poll (h : CarriedIf allowed inv) (id : Nat) : Leads (inv [] []) (Schedule.poll id) fun _ => inv [] [] :=
  h.sustained.poll id

/-- What every step carries on holds after all happenings. -/
theorem play_leaving (h : CarriedIf allowed inv) {schedule : Schedule σ} (hs : inv [] [] schedule)
    (happenings : List (Happening σ)) (hallowed : ∀ happening ∈ happenings, happening.Leaves allowed) :
    inv [] [] (schedule.play happenings) :=
  h.sustained.play_untimely (fun moment _ => h.clock moment) hs fun later hl => Happening.makes_outside (hallowed later hl)

end CarriedIf

theorem Carried.play {inv : List Job → List Nat → Schedule σ → Prop} (h : Carried inv) {schedule : Schedule σ}
    (hs : inv [] [] schedule) (happenings : List (Happening σ)) : inv [] [] (schedule.play happenings) :=
  h.play_leaving hs happenings fun happening _ => by cases happening <;> trivial

/-! ### What is known of the mirror -/

/-- What all events keep is known of a system that mirrors the schedule. -/
def Known (known : System σ → Prop) (front : List Job) (_pending : List Nat) (schedule : Schedule σ) : Prop :=
  ∃ s, Settled (front.map Job.number) schedule s ∧ known s

section
variable {known : System σ → Prop}

omit [Storage σ] in
theorem Known.numbered {front : List Job} {pending : List Nat} {schedule : Schedule σ} (h : Known known front pending schedule) :
    schedule.manager.Numbered := by
  obtain ⟨s,hs,-⟩ := h
  exact hs.mirrors.manager ▸ hs.mirrors.invariant.numbered

private theorem Follows.leads {front : List Nat} {act : Scheduling σ α} {Q : α → Schedule σ → System σ → Prop}
    (hknown : System.Kept known) (h : Follows (Settled front) act Q) :
    Leads (fun schedule => ∃ s, Settled front schedule s ∧ known s) act fun x schedule => ∃ s, Q x schedule s ∧ known s := by
  rintro schedule ⟨s,hs⟩
  obtain ⟨events,hq⟩ := h.keeping hknown (fun _ _ h => h.mirrors.invariant) schedule s hs
  exact ⟨_,hq⟩

theorem carried_known (hknown : System.Kept known) : Carried (Known known) where
  queue {front pending ready schedule} h _ :=
    Follows.leads hknown (follows_modify ({ · with ready }) (fun _ => rfl) (fun _ => rfl) fun _ => rfl) schedule h
  advance id := Follows.leads hknown (follows_advance id)
  wake ids := Follows.leads hknown (follows_modify _ (fun _ => rfl) (fun _ => rfl) fun _ => rfl)
  clock {front schedule} moment h := Follows.leads hknown (follows_clock moment) schedule h
  credit {front schedule} credit h :=
    Follows.leads hknown (follows_modify ({ · with credit }) (fun _ => rfl) (fun _ => rfl) fun _ => rfl) schedule h
  spawn number input := Follows.leads hknown (follows_spawn number input)
  managing hact := Follows.leads hknown (.settled (fun tasks => hact.mirrored _ tasks) fun tasks _ _ _ h hs => hs _ h)
  start number input := by
    refine Follows.leads hknown (.settled (fun tasks => follows_start number input) fun tasks result schedule s h hs => ?_)
    cases result with
    | error => exact hs _ h
    | ok job => exact hs (job.number :: _) h.2
  work job := by
    refine Follows.leads hknown (.settled (fun tasks => follows_work job) fun tasks progress schedule s h hs => ?_)
    cases progress with
    | inl => exact hs _ h.1
    | inr wait =>
      refine hs (wait.job.number :: _) ?_
      rw [h.1]
      exact h.2
  endWait wait := Follows.leads hknown (.settled (fun tasks => follows_endWait wait) fun tasks _ _ _ h hs => hs _ h.1)

end

/-- A schedule is mirrored at all times. -/
theorem carried_mirrored : Carried (σ := σ) (Known fun _ => True) := carried_known fun _ _ _ _ => trivial

omit [Storage σ] in
theorem known_new {known : System σ → Prop} (shell : Shell σ) (model : Model) (limit : Option Nat) (timers : Timers)
    (h : known (System.new (Manager.new shell model limit))) : Known known [] [] (new (Manager.new shell model limit) timers) := by
  refine ⟨System.new (Manager.new shell model limit),⟨rfl,?_,by simp [new]⟩,h⟩
  exact ⟨rfl,rfl,System.invariant_new shell model limit,List.nodup_nil,by simp [new, waits],by simp [System.new, Manager.new]⟩

end VirtualShell.Agent.Schedule
