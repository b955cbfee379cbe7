import Mathlib.Algebra.Order.BigOperators.Group.List
import Mathlib.Algebra.Order.Group.Nat
import Mathlib.Algebra.Ring.Nat
import Mathlib.Data.List.Nodup
import Mathlib.Data.Nat.Cast.Basic
import VirtualShell.Proofs.Agent.Queue

/-!
That time goes on. No time passes while tasks go on, and every turn brings one of them further or wakes one, so that a
schedule always gets to the moment for which the foreground waits.
-/
namespace VirtualShell.Agent

/-- Every timer fires when it is due. -/
def Timers.Exact (timers : Timers) : Prop := ∀ milliseconds, timers milliseconds = milliseconds

namespace Schedule
variable {σ α : Type} {schedule later : Schedule σ} {id : Nat} {pending : List Nat} {t alarm : Nat}

/-! ### The clock stands -/

/-- No time passes in an action. -/
def Instant (act : Scheduling σ α) : Prop := ∀ t, Leads (fun schedule => schedule.now = t) act fun _ schedule => schedule.now = t

theorem Manages.instant {act : Scheduling σ α} (h : Manages act) : Instant act := by
  intro t schedule hs
  obtain ⟨manager,hlater⟩ := h schedule schedule ⟨_,rfl⟩
  rw [hlater]
  exact hs

theorem instant_setStage (id : Nat) (stage : Stage) : Instant (σ := σ) (setStage id stage) := fun _ => .update fun _ h => h

variable [Storage σ]

private theorem instant_over (id : Nat) (wait : Wait) : Instant (σ := σ) (do setStage id (.done (.ok (← endWait wait)))) :=
  fun t => ((manages_endWait wait).instant t).bind fun _ => instant_setStage id _ t

/-- While a task goes on, the clock stands. -/
theorem instant_advance (id : Nat) : Instant (σ := σ) (advance id) := by
  intro t
  refine .get_bind fun now hn => ?_
  cases (now.task? id).map Task.stage with
  | none => exact .pure _ fun _ he => he ▸ hn
  | some stage =>
    cases stage with
    | done reply => exact .pure _ fun _ he => he ▸ hn
    | waiting wait => exact (instant_over id wait t).from_ hn
    | queued number input =>
      refine (((manages_start number input).instant t).from_ hn).bind fun result => ?_
      cases result with
      | error e => exact instant_setStage id _ t
      | ok job =>
        refine ((manages_work job).instant t).bind fun progress => ?_
        cases progress with
        | inl reply => exact instant_setStage id _ t
        | inr wait =>
          refine .get_bind fun later hl => .ite ((instant_over id wait t).from_ hl) ?_
          exact ((instant_setStage id _ t).from_ hl).bind fun _ => .update fun _ h => h

/-! ### Tasks in queues -/

omit [Storage σ] in
private theorem nodup_of_subperm {l l' : List Nat} (h : l.Subperm l') (hl : l'.Nodup) : l.Nodup := by
  obtain ⟨part,hperm,hpart⟩ := h
  exact hperm.nodup_iff.mp (hl.sublist hpart)

omit [Storage σ] in
/-- No task is in two queues, or twice in one. -/
structure Lively (pending : List Nat) (schedule : Schedule σ) : Prop where
  ids : schedule.tasks.map Task.id = List.range schedule.tasks.length
  nodup : (pending ++ (schedule.ready ++ schedule.sleeping)).Nodup
  known : ∀ id ∈ pending ++ (schedule.ready ++ schedule.sleeping), id < schedule.tasks.length

omit [Storage σ] in
/-- The same tasks are in the same queues, or fewer, in any order. -/
theorem Lively.of_subperm {pending' : List Nat} (h : Lively pending schedule)
    (htasks : later.tasks.map Task.id = schedule.tasks.map Task.id)
    (hqueues : (pending' ++ (later.ready ++ later.sleeping)).Subperm (pending ++ (schedule.ready ++ schedule.sleeping))) :
    Lively pending' later := by
  have hlength : later.tasks.length = schedule.tasks.length := by simpa using congrArg List.length htasks
  refine ⟨?_,nodup_of_subperm hqueues h.nodup,fun id hid => ?_⟩
  · rw [htasks, hlength, h.ids]
  · rw [hlength]
    exact h.known id (hqueues.subset hid)

omit [Storage σ] in
private theorem ids_withStage (id : Nat) (stage : Stage) (tasks : List Task) :
    (withStage id stage tasks).map Task.id = tasks.map Task.id := by
  rw [withStage, List.map_map]
  refine List.map_congr_left fun task _ => ?_
  rw [Function.comp_apply]
  split <;> rfl

omit [Storage σ] in
private theorem Lively.queue {ready : List Nat} (h : Lively [] schedule) (hperm : schedule.ready.Perm (pending ++ ready)) :
    Lively pending { schedule with ready } :=
  h.of_subperm rfl (by simpa using (hperm.symm.append_right _).subperm)

omit [Storage σ] in
private theorem Lively.advanced (h : Lively (id :: pending) schedule) (ha : Advanced id schedule later) : Lively pending later := by
  cases ha with
  | idle => exact h.of_subperm rfl (List.sublist_cons_self ..).subperm
  | done _ _ _ htasks hready hsleeping =>
    refine h.of_subperm (htasks ▸ ids_withStage ..) ?_
    rw [hready, hsleeping]
    exact (List.sublist_cons_self ..).subperm
  | asleep _ _ htasks hready hsleeping =>
    refine h.of_subperm (htasks ▸ ids_withStage ..) ?_
    rw [hready, hsleeping, ← List.append_assoc, ← List.append_assoc]
    exact (List.perm_append_singleton ..).subperm.trans (by rw [List.append_assoc]; exact List.Subperm.refl _)

omit [Storage σ] in
private theorem Lively.wake {ids : List Nat} (h : Lively [] schedule) (hids : ids.Subperm schedule.sleeping) :
    Lively [] { schedule with
      ready := schedule.ready ++ ids, sleeping := schedule.sleeping.filter fun id => !ids.contains id } := by
  have hsleeping : schedule.sleeping.Nodup := (List.nodup_append.mp (show (schedule.ready ++ schedule.sleeping).Nodup from h.nodup)).2.1
  have hmoved : (ids ++ schedule.sleeping.filter fun id => !ids.contains id).Subperm schedule.sleeping := by
    refine List.Nodup.subperm ?_ fun id hid => ?_
    · refine List.nodup_append.mpr ⟨nodup_of_subperm hids hsleeping,hsleeping.filter _,fun id hid other ho he => ?_⟩
      subst he
      simpa [hid] using (List.mem_filter.mp ho).2
    · rcases List.mem_append.mp hid with hid | hid
      · exact hids.subset hid
      · exact List.mem_of_mem_filter hid
  refine h.of_subperm rfl ?_
  simp only [List.nil_append, List.append_assoc]
  exact (List.subperm_append_left _).mpr hmoved

omit [Storage σ] in
private theorem Lively.spawn (h : Lively [] schedule) (number : Nat) (input : String) :
    Lively [] ((Schedule.spawn number input).run schedule).2 := by
  have hnew : schedule.tasks.length ∉ schedule.ready ++ schedule.sleeping := fun hid => Nat.lt_irrefl _ (h.known _ hid)
  have hperm : (schedule.ready ++ [schedule.tasks.length] ++ schedule.sleeping).Perm
      (schedule.tasks.length :: (schedule.ready ++ schedule.sleeping)) := by simp
  refine ⟨?_,?_,fun id hid => ?_⟩
  · change (schedule.tasks ++ [_]).map Task.id = List.range (schedule.tasks ++ [_]).length
    rw [List.map_append, h.ids, List.length_append, List.length_singleton, List.range_succ]
    rfl
  · exact hperm.nodup_iff.mpr (List.nodup_cons.mpr ⟨hnew,h.nodup⟩)
  · change id < (schedule.tasks ++ [_]).length
    rw [List.length_append, List.length_singleton]
    rcases List.mem_cons.mp (hperm.mem_iff.mp hid) with rfl | hid
    · exact Nat.lt_succ_self _
    · exact Nat.lt_succ_of_lt (h.known id hid)

theorem idling_lively : Idling (σ := σ) Lively where
  queue := Lively.queue
  advance id := fun schedule hs => hs.advanced (leads_advance id schedule schedule rfl)
  wake hs hwakeable := hs.wake hwakeable.sleep
  clock hs _ := ⟨hs.ids,hs.nodup,hs.known⟩
  credit _ hs := ⟨hs.ids,hs.nodup,hs.known⟩

/-- The queues stay as they should be. -/
theorem sustained_lively : Sustained (σ := σ) (fun _ => True) fun _ => Lively := by
  have hmanages {α : Type} {act : Scheduling σ α} (h : Manages act) : Leads (Lively []) act fun _ => Lively [] := by
    intro schedule hs
    obtain ⟨manager,he⟩ := h schedule schedule ⟨_,rfl⟩
    rw [he]
    exact ⟨hs.ids,hs.nodup,hs.known⟩
  exact {
    idling := fun _ => idling_lively
    spawn := fun number input _ hs => hs.spawn number input
    managing := fun _ _ hs => ⟨hs.ids,hs.nodup,hs.known⟩
    start := fun number input => hmanages (manages_start number input)
    work := fun job => hmanages (manages_work job)
    endWait := fun wait => hmanages (manages_endWait wait) }

/-! ### How much is left to do -/

omit [Storage σ] in
/-- How often a task in the queue can be gone on with: to its wait, out of it, and to its end. -/
def weight (schedule : Schedule σ) (id : Nat) : Nat :=
  match schedule.stage? id with
  | some (.queued _ _) => 3
  | _ => 1

omit [Storage σ] in
/-- How much the tasks can still do before everything is over. -/
def load (pending : List Nat) (schedule : Schedule σ) : Nat :=
  ((pending ++ schedule.ready).map schedule.weight).sum + 2 * schedule.sleeping.length

omit [Storage σ] in
theorem weight_pos (schedule : Schedule σ) (id : Nat) : 0 < schedule.weight id := by
  unfold weight
  split <;> omega

omit [Storage σ] in
theorem weight_le (schedule : Schedule σ) (id : Nat) : schedule.weight id ≤ 3 := by
  unfold weight
  split <;> omega

omit [Storage σ] in
private theorem weight_withStage {other : Nat} {stage : Stage} (hstage : ∀ number input, stage ≠ .queued number input)
    (h : later.tasks = withStage id stage schedule.tasks) : later.weight other ≤ schedule.weight other := by
  unfold weight
  rw [stage?_withStage h]
  cases hother : schedule.stage? other with
  | none => exact Nat.le_refl _
  | some old =>
    by_cases he : other = id
    · cases stage with
      | queued number input => exact absurd rfl (hstage number input)
      | _ =>
        have hpos := schedule.weight_pos other
        simp only [weight, hother] at hpos
        simp only [Option.map_some, he, if_true]
        exact hpos
    · simp [he]

omit [Storage σ] in
/-- Going on makes it less. -/
private theorem Advanced.load (ha : Advanced id schedule later) : load pending later + 1 ≤ Schedule.load (id :: pending) schedule := by
  have hid := schedule.weight_pos id
  have hsum (hweight : ∀ other, later.weight other ≤ schedule.weight other) :
      ((pending ++ schedule.ready).map later.weight).sum ≤ ((pending ++ schedule.ready).map schedule.weight).sum :=
    List.sum_le_sum fun other _ => hweight other
  simp only [Schedule.load, List.cons_append, List.map_cons, List.sum_cons, ha.ready]
  cases ha with
  | idle => omega
  | done _ _ _ htasks _ hsleeping =>
    have hle := hsum fun other => weight_withStage (by simp) htasks
    rw [hsleeping]
    omega
  | asleep wait hbefore htasks _ hsleeping =>
    have hle := hsum fun other => weight_withStage (by simp) htasks
    have hqueued : schedule.weight id = 3 := by simp [weight, hbefore]
    rw [hsleeping, List.length_append, List.length_singleton]
    omega

omit [Storage σ] in
/-- There are at most three things to do for each task. -/
theorem Lively.load_le (h : Lively [] schedule) : load [] schedule ≤ 3 * schedule.tasks.length := by
  have hlength : (schedule.ready ++ schedule.sleeping).length ≤ schedule.tasks.length := by
    have hsubset : schedule.ready ++ schedule.sleeping ⊆ List.range schedule.tasks.length :=
      fun id hid => List.mem_range.mpr (h.known id hid)
    have hle := (List.Nodup.subperm (show (schedule.ready ++ schedule.sleeping).Nodup from h.nodup) hsubset).length_le
    rwa [List.length_range] at hle
  have hsum : (schedule.ready.map schedule.weight).sum ≤ schedule.ready.length * 3 := by
    simpa using List.sum_le_card_nsmul (schedule.ready.map schedule.weight) 3
      (List.forall_mem_map.mpr fun id _ => schedule.weight_le id)
  rw [List.length_append] at hlength
  simp only [load, List.nil_append]
  omega

/-! ### The foreground gets to its moment -/

/-- Where the tasks stand between two turns, when there is little left to do and the moment has not come. -/
structure Awaiting (alarm bound : Nat) (schedule : Schedule σ) : Prop where
  lively : Lively [] schedule
  early : schedule.now ≤ alarm
  bound : load [] schedule ≤ bound

/-- The tasks that were taken out of the queue go on, each of them once. -/
private theorem leads_advanceAll (ids : List Nat) (bound : Nat) : Leads
    (fun schedule : Schedule σ => Lively ids schedule ∧ schedule.now = t ∧ load ids schedule ≤ bound)
    (ids.forM advance) fun _ schedule => Lively [] schedule ∧ schedule.now = t ∧ load [] schedule + ids.length ≤ bound := by
  induction ids generalizing bound with
  | nil => exact .pure _ fun _ h => h
  | cons id rest ih =>
    refine .mono (.bind (Q := fun _ schedule => Lively rest schedule ∧ schedule.now = t ∧ load rest schedule + 1 ≤ bound) ?_
      fun _ => ?_) (fun _ h => h) fun _ _ h => h
    · rintro schedule ⟨hlively,hnow,hload⟩
      have hadvanced := leads_advance id schedule schedule rfl
      have hless : load rest ((advance id).run schedule).2 + 1 ≤ load (id :: rest) schedule := hadvanced.load
      exact ⟨hlively.advanced hadvanced,instant_advance id t schedule hnow,by omega⟩
    · rintro schedule ⟨hlively,hnow,hload⟩
      obtain ⟨hlast,ht,hless⟩ := ih (bound - 1) schedule ⟨hlively,hnow,by omega⟩
      exact ⟨hlast,ht,by rw [List.length_cons]; omega⟩

/-- After a turn there is less left to do, if somebody could go on. -/
private theorem leads_drain (bound : Nat) : Leads (Awaiting (σ := σ) alarm bound) drain fun _ schedule =>
    Awaiting alarm bound schedule ∧ (schedule.ready = [] ∨ load [] schedule < bound) := by
  intro schedule hs
  let taken : Schedule σ := { schedule with ready := schedule.ready.drop turn }
  have hrun : (drain.run schedule).2 = (((schedule.ready.take turn).forM advance).run taken).2 := rfl
  have hperm : schedule.ready.Perm (schedule.ready.take turn ++ schedule.ready.drop turn) := by rw [List.take_append_drop]
  have hload : load (schedule.ready.take turn) taken = load [] schedule := by
    simp only [load, taken, List.take_append_drop, List.nil_append]
    rfl
  obtain ⟨hlively,hnow,hless⟩ := leads_advanceAll (schedule.ready.take turn) bound taken
    ⟨hs.lively.queue hperm,rfl,hload ▸ hs.bound⟩
  rw [← hrun] at hlively hnow hless
  refine ⟨⟨hlively,hnow ▸ hs.early,by omega⟩,?_⟩
  by_cases hready : schedule.ready = []
  · refine .inl ?_
    rw [hrun, hready]
    simp [taken, hready]
    rfl
  · have hsome : 0 < (schedule.ready.take turn).length := by
      rw [List.length_take]
      exact Nat.lt_min.mpr ⟨by decide,List.length_pos_iff.mpr hready⟩
    exact .inr (by omega)

omit [Storage σ] in
private theorem mem_due : id ∈ schedule.due ↔
    id ∈ schedule.sleeping ∧ ∃ wait, schedule.wait? id = some wait ∧ wait.until_ ≤ schedule.now := by
  simp [due, Option.any_eq_true]

omit [Storage σ] in
/-- Who waited for the moment is woken, which leaves less to do. -/
private theorem load_jump {moment : Nat} (hready : schedule.ready = []) (hmoment : moment ∈ schedule.moments) :
    load [] ((jump moment).run schedule).2 < load [] schedule := by
  let moved : Schedule σ := { schedule with now := max schedule.now moment }
  have hrun : ((jump moment).run schedule).2 = { moved with
    ready := schedule.ready ++ moved.due, sleeping := schedule.sleeping.filter fun id => !moved.due.contains id } := rfl
  obtain ⟨id,hid,hwait⟩ := List.mem_filterMap.mp hmoment
  obtain ⟨wait,hfound,huntil⟩ := Option.map_eq_some_iff.mp hwait
  have hdue : id ∈ moved.due := mem_due.mpr ⟨hid,wait,hfound,huntil ▸ Nat.le_max_right _ _⟩
  have hsome : 0 < moved.due.length := List.length_pos_of_mem hdue
  have hweights : (moved.due.map moved.weight).sum = moved.due.length := by
    rw [List.map_congr_left (g := fun _ => 1)]
    · simp
    · intro other ho
      obtain ⟨_,wait,hother,_⟩ := mem_due.mp ho
      simp [weight, wait?_eq_some.mp hother]
  have hsplit : moved.due.length + (schedule.sleeping.filter fun id => !moved.due.contains id).length = schedule.sleeping.length := by
    have hdues : (schedule.sleeping.filter fun id => moved.due.contains id) = moved.due :=
      List.filter_congr fun other ho => by
        rw [Bool.eq_iff_iff, List.contains_iff_mem]
        exact ⟨fun h => (List.mem_filter.mp h).2,fun h => List.mem_filter.mpr ⟨ho,h⟩⟩
    have hall := List.length_eq_length_filter_add (l := schedule.sleeping) fun id => moved.due.contains id
    rw [hdues] at hall
    exact hall.symm
  have hload : load [] ((jump moment).run schedule).2 =
      (moved.due.map moved.weight).sum + 2 * (schedule.sleeping.filter fun id => !moved.due.contains id).length := by
    rw [hrun, load, hready]
    rfl
  rw [hload, hweights, load, hready]
  simp only [List.append_nil, List.map_nil, List.sum_nil]
  omega

/-- Going on and waiting in turns gets to the alarm, if there are turns enough for what is left to do. -/
private theorem leads_idle (fuel : Nat) : Leads (fun schedule : Schedule σ => Awaiting alarm fuel schedule ∧ load [] schedule < fuel)
    (idle (some alarm) (fun _ => false) fuel) fun _ schedule => Lively [] schedule ∧ schedule.now = alarm := by
  induction fuel with
  | zero => exact fun _ h => absurd h.2 (Nat.not_lt_zero _)
  | succ fuel ih =>
    refine .bind ((leads_drain fuel).mono (fun _ h => ⟨h.1.lively,h.1.early,Nat.le_of_lt_succ h.2⟩) fun _ _ h => h) fun _ => ?_
    refine .get_bind fun now ⟨hn,hless⟩ => ?_
    simp only [Bool.false_eq_true, if_false]
    split
    · rename_i hready
      exact ih.from_ ⟨⟨hn.lively,hn.early,hn.bound⟩,hless.resolve_left (by simpa using hready)⟩
    · rename_i hready
      have hempty : now.ready = [] := by simpa using hready
      cases hnext : now.next? (some alarm) with
      | none => simp [next?] at hnext
      | some moment =>
        obtain ⟨hmem,hmin⟩ := List.min?_eq_some_iff.mp hnext
        have hle : moment ≤ alarm := hmin alarm List.mem_cons_self
        have hjump : Leads (fun schedule => schedule = now) (jump moment) fun _ later =>
            Lively [] later ∧ later.now = max now.now moment ∧ (moment ∈ now.moments → load [] later < load [] now) := by
          rintro _ rfl
          exact ⟨idling_lively.jump moment _ ⟨hn.lively,free_next hempty hnext⟩,rfl,load_jump hempty⟩
        refine hjump.bind fun _ => ?_
        have hearly := hn.early
        have hbound := hn.bound
        split
        · rename_i halarm
          have hge : alarm ≤ moment := by simpa using halarm
          exact .pure _ fun later ⟨hlively,hlater,_⟩ => ⟨hlively,by omega⟩
        · rename_i halarm
          have hlt : moment < alarm := by simpa using halarm
          -- It is not the alarm for which the clock was moved, so a task has waited for the moment.
          have hwaits : moment ∈ now.moments := (List.mem_cons.mp hmem).resolve_left (Nat.ne_of_lt hlt)
          refine ih.mono (fun later ⟨hlively,hlater,hload⟩ => ?_) fun _ _ h => h
          have hdone := hload hwaits
          exact ⟨⟨hlively,by omega,by omega⟩,by omega⟩

/-- A wait with an alarm lasts until the alarm. -/
theorem leads_pause : Leads (fun schedule : Schedule σ => Lively [] schedule ∧ schedule.now ≤ alarm)
    (pause (some alarm) fun _ => false) fun _ schedule => Lively [] schedule ∧ schedule.now = alarm := by
  refine .get_bind fun now ⟨hlively,hnow⟩ => ?_
  have hload := hlively.load_le
  refine ((leads_idle _).from_ ⟨⟨hlively,hnow,by omega⟩,by omega⟩).bind fun _ => ?_
  exact .update fun _ h => ⟨⟨h.1.ids,h.1.nodup,h.1.known⟩,h.2⟩

/-- A turn of the tasks takes no time. -/
private theorem leads_turn : Leads (fun schedule : Schedule σ => Lively [] schedule ∧ schedule.now = t) drain
    fun _ schedule => Lively [] schedule ∧ schedule.now = t := by
  rintro schedule ⟨hlively,rfl⟩
  obtain ⟨hlater,hnow,_⟩ := leads_advanceAll (schedule.ready.take turn) _ { schedule with ready := schedule.ready.drop turn }
    ⟨hlively.queue (by rw [List.take_append_drop]),rfl,Nat.le_refl _⟩
  exact ⟨hlater,hnow⟩

/-- Before a wait no time passes. -/
theorem leads_beforeWait : Leads (fun schedule : Schedule σ => Lively [] schedule ∧ schedule.now = t) beforeWait
    fun _ schedule => Lively [] schedule ∧ schedule.now = t := by
  refine .get_bind fun now hn => .ite ?_ (.pure _ fun _ he => he ▸ hn)
  exact (leads_turn.from_ hn).bind fun _ => .update fun _ h => ⟨⟨h.1.ids,h.1.nodup,h.1.known⟩,h.2⟩

/-- The timers of a schedule stay the same. -/
theorem carried_timers (timers : Timers) : Carried (σ := σ) fun _ _ schedule => schedule.timers = timers := by
  refine carried_queues ?_ ?_ ?_ ?_ ?_
  · exact fun _ _ _ _ _ _ htimers h => htimers.trans h
  · exact fun h _ => h
  · exact fun hadvanced h => hadvanced.timers.trans h
  · exact fun h => h
  · exact fun _ _ _ h => h

theorem timers_beforeWait (schedule : Schedule σ) : (beforeWait.run schedule).2.timers = schedule.timers :=
  ((carried_timers _).sustained.idling []).beforeWait schedule rfl

/-- The foreground sleeps for as long as it is meant to. -/
theorem leads_sleep {timers : Timers} (hexact : timers.Exact) {milliseconds : Nat} (hpos : 0 < milliseconds) :
    Leads (fun schedule : Schedule σ => (Lively [] schedule ∧ schedule.now = t) ∧ schedule.timers = timers) (sleep milliseconds)
      fun _ schedule => schedule.now = t + milliseconds := by
  have hbefore : Leads (fun schedule : Schedule σ => (Lively [] schedule ∧ schedule.now = t) ∧ schedule.timers = timers)
      beforeWait fun _ schedule => (Lively [] schedule ∧ schedule.now = t) ∧ schedule.timers = timers :=
    fun schedule hs => ⟨leads_beforeWait schedule hs.1,(timers_beforeWait schedule).trans hs.2⟩
  rw [sleep, if_neg (by simpa using Nat.ne_of_gt hpos)]
  refine hbefore.bind fun _ => .get_bind fun now ⟨⟨hlively,hnow⟩,htimers⟩ => ?_
  rw [hnow, htimers, hexact]
  exact (leads_pause.from_ ⟨hlively,hnow ▸ Nat.le_add_right _ _⟩).bind fun _ => .update fun _ h => h.2

end Schedule
end VirtualShell.Agent
