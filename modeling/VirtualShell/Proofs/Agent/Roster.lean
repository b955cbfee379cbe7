import VirtualShell.Proofs.Agent.Effects
import VirtualShell.Proofs.Agent.Cleanup

/-!
The job table after everything that can happen. It holds the jobs that were created and not removed, in the order in which
they were created, and under names that are never used again.
-/
namespace VirtualShell.Agent

namespace Job

/-- Every number has a name of its own. -/
theorem pid_eq_iff {job : Job} {number : Nat} : job.pid = s!"agent_{number}" ↔ job.number = number := by
  refine ⟨fun h => ?_,fun h => congrArg (fun number => s!"agent_{number}") h⟩
  change job.number = ({ job with number } : Job).number
  exact number_of_pid h

theorem Act.origin_on (act : Act) (number : Nat) (job : Job) : (act.on number job).origin = job.origin := by
  unfold Act.on
  split
  · exact Act.origin_apply act job
  · rfl

end Job

namespace Schedule
variable {σ : Type}

/-! ### Creations and removals -/

/-- What a happening creates a job with. -/
def Happening.creation? : Happening σ → Option (Definition × Bool)
  | create definition background => some (definition,background)
  | _ => none

/-- What jobs are created with, the first one first. -/
def creations (happenings : List (Happening σ)) : List (Definition × Bool) := happenings.filterMap Happening.creation?

/-- Whether a happening removes jobs in a state. -/
def Happening.removes : Happening σ → State → Bool
  | cleanupCompleted, state => state.isTerminal
  | cleanupAll, state => state != .pending
  | _, _ => false

/-- The numbers of the jobs that a happening removes. -/
def removedBy (happening : Happening σ) (schedule : Schedule σ) : List Nat :=
  (schedule.manager.jobs.filter fun job => happening.removes job.state).map Job.number

variable [Storage σ]

/-- The numbers of the jobs that happenings remove, in the states in which the jobs are when they come. -/
def removals (schedule : Schedule σ) : List (Happening σ) → List Nat
  | [] => []
  | happening :: rest => removedBy happening schedule ++ removals (happening.act.run schedule).2 rest

theorem removals_append (schedule : Schedule σ) (happenings more : List (Happening σ)) :
    schedule.removals (happenings ++ more) = schedule.removals happenings ++ (schedule.play happenings).removals more := by
  induction happenings generalizing schedule with
  | nil => rfl
  | cons happening rest ih =>
    rw [List.cons_append, removals, ih, removals, List.append_assoc]
    rfl

omit [Storage σ] in
/-- The table when jobs were created with this, and those with these numbers removed. -/
structure Roster (created : List (Definition × Bool)) (removed : List Nat) (schedule : Schedule σ) : Prop where
  numbered : schedule.manager.Numbered
  origins : schedule.manager.jobs.map Job.origin = created.zipIdx 1
  lists : ∀ job ∈ schedule.manager.jobs, schedule.manager.lists job = true ↔ job.number ∉ removed
  past : ∀ number ∈ removed, number ≤ created.length

variable {created : List (Definition × Bool)} {removed : List Nat} {schedule later : Schedule σ}

namespace Roster
omit [Storage σ]

theorem length (h : Roster created removed schedule) : schedule.manager.jobs.length = created.length := by
  simpa using congrArg List.length h.origins

theorem next (h : Roster created removed schedule) : schedule.manager.next = created.length + 1 := by
  rw [h.numbered.next, h.length]

/-- A job is among those that were created. -/
theorem number_le (h : Roster created removed schedule) {job : Job} (hj : job ∈ schedule.manager.jobs) :
    job.number ≤ created.length := by
  have hlt := h.numbered.number_lt hj
  rw [h.next] at hlt
  exact Nat.le_of_lt_succ hlt

/-- What a job was created with has its place among all that was. -/
theorem mem_jobs_iff (h : Roster created removed schedule) (number : Nat) :
    (∃ job ∈ schedule.manager.jobs, job.number = number) ↔ 1 ≤ number ∧ number ≤ created.length := by
  have hmem : number ∈ schedule.manager.jobs.map Job.number ↔ 1 ≤ number ∧ number ≤ created.length := by
    rw [h.numbered.numbers, h.length, List.mem_range'_1]
    omega
  rw [← hmem, List.mem_map]

/-- Neither jobs nor the table come to be others. -/
theorem of_same (h : Roster created removed schedule) (hnumbered : later.manager.Numbered)
    (horigins : later.manager.jobs.map Job.origin = schedule.manager.jobs.map Job.origin)
    (htable : later.manager.table = schedule.manager.table) : Roster created removed later := by
  refine ⟨hnumbered,horigins.trans h.origins,fun job hj => ?_,h.past⟩
  have hmem : job.origin ∈ schedule.manager.jobs.map Job.origin := horigins ▸ List.mem_map_of_mem hj
  obtain ⟨other,ho,hsame⟩ := List.mem_map.mp hmem
  have hnumber : job.number = other.number := congrArg Prod.snd hsame.symm
  rw [Manager.lists, htable, Job.pid, hnumber]
  exact h.lists other ho

/-- A job that comes to the table is a new one. -/
theorem create (h : Roster created removed schedule) (definition : Definition) (background : Bool)
    (hlater : later.manager = ((Manager.create definition background).run schedule.manager).2) :
    Roster (created ++ [(definition,background)]) removed later := by
  let job := Job.new schedule.manager.next definition background
  have hjobs : later.manager.jobs = schedule.manager.jobs ++ [job] := by rw [hlater]; rfl
  have hlists (other : Job) : later.manager.lists other = (decide (job.pid = other.pid) || schedule.manager.lists other) := by
    have htable : later.manager.table = Keyed.insert job.pid job.number schedule.manager.table := by rw [hlater]; rfl
    rw [Manager.lists, Manager.lists, htable, Keyed.contains, Keyed.contains, Keyed.find?_insert]
    split <;> simp [*]
  refine ⟨?_,?_,fun other ho => ?_,fun number hn => ?_⟩
  · rw [hlater]
    exact h.numbered.concat definition background
  · have horigin : job.origin = ((definition,background),1 + created.length) := by simp [job, Job.origin, Job.new, h.next, Nat.add_comm]
    rw [hjobs, List.map_append, h.origins, List.zipIdx_append, List.map_singleton, horigin]
    rfl
  · rw [hlists]
    rw [hjobs] at ho
    rcases List.mem_append.mp ho with ho | ho
    · have hne : job.pid ≠ other.pid := by
        intro hsame
        have hnumber : job.number = other.number := Job.number_of_pid hsame
        exact absurd (h.numbered.number_lt ho) (by rw [← hnumber]; exact lt_irrefl _)
      simpa [hne] using h.lists other ho
    · rw [List.mem_singleton.mp ho]
      refine iff_of_true (by simp) fun hremoved => ?_
      have hpast := h.past _ hremoved
      simp only [job, Job.new, h.next] at hpast
      omega
  · rw [List.length_append]
    exact Nat.le_add_right_of_le (h.past number hn)

/-- A cleanup takes jobs in some states out of the table. -/
theorem cleanup (h : Roster created removed schedule) (happening : Happening σ) {f : Job → Job} {swept : Manager σ}
    (hs : Manager.Sweeps happening.removes f schedule.manager swept) (horigin : ∀ job, (f job).origin = job.origin)
    (hlater : later.manager = swept) : Roster (created ++ []) (removed ++ removedBy happening schedule) later := by
  subst hlater
  rw [List.append_nil]
  refine ⟨hs.numbered,?_,fun other ho => ?_,fun number hn => ?_⟩
  · rw [hs.jobs, List.map_map]
    exact (List.map_congr_left fun job _ => horigin job).trans h.origins
  · rw [hs.jobs] at ho
    obtain ⟨job,hj,rfl⟩ := List.mem_map.mp ho
    have hremoved : job.number ∈ removedBy happening schedule ↔ happening.removes job.state = true := by
      refine ⟨fun hnumber => ?_,fun hr => List.mem_map_of_mem (List.mem_filter.mpr ⟨hj,hr⟩)⟩
      obtain ⟨other,ho,hsame⟩ := List.mem_map.mp hnumber
      obtain ⟨hmem,hr⟩ := List.mem_filter.mp ho
      exact h.numbered.eq_of_number hj hmem hsame ▸ hr
    rw [hs.number, hs.lists h.numbered hj, Bool.and_eq_true, h.lists job hj, List.mem_append, not_or, hremoved, Bool.not_eq_true']
    simp
  · rcases List.mem_append.mp hn with hn | hn
    · exact h.past number hn
    · obtain ⟨job,hj,rfl⟩ := List.mem_map.mp hn
      exact h.number_le (List.mem_of_mem_filter hj)

end Roster

/-! ### What happenings do to the table -/

/-- The jobs were created with this, and the table is this. -/
def Stays (origins : List ((Definition × Bool) × Nat)) (entries : Keyed Nat) (jobs : List Job) (table : Keyed Nat) : Prop :=
  jobs.map Job.origin = origins ∧ table = entries

theorem stays_on {origins : List ((Definition × Bool) × Nat)} {entries table : Keyed Nat} {jobs : List Job}
    (h : Stays origins entries jobs table) (number : Nat) (act : Job.Act) : Stays origins entries (jobs.map (act.on number)) table := by
  refine ⟨?_,h.2⟩
  rw [List.map_map]
  exact (List.map_congr_left fun job _ => Job.Act.origin_on act number job).trans h.1

/-- Whether a happening neither creates nor removes jobs. -/
def Happening.isPlain : Happening σ → Bool
  | create _ _ => false
  | cleanupCompleted => false
  | cleanupAll => false
  | _ => true

/-- Most happenings leave the table as it is, and all jobs what they were created as. -/
private theorem stays_plain {happening : Happening σ} (h : schedule.manager.Numbered) (hplain : happening.isPlain) :
    (happening.act.run schedule).2.manager.Numbered ∧
      Stays (schedule.manager.jobs.map Job.origin) schedule.manager.table (happening.act.run schedule).2.manager.jobs
        (happening.act.run schedule).2.manager.table := by
  let stays := Stays (schedule.manager.jobs.map Job.origin) schedule.manager.table
  have hsustained := sustained_table (σ := σ) (P := stays) fun number act _ _ _ hstays => stays_on hstays number act
  have hholding : ∃ moment, Holding stays moment schedule := ⟨_,rfl,h,rfl,rfl⟩
  have hactOn {pid : String} (act : Job.Act) : Manager.Upholds stays (Manager.actOn (σ := σ) pid act) :=
    .actOn fun job _ _ _ hstays => stays_on hstays job.number act
  have hmakes : happening.Makes fun act => ∀ now, Manager.Upholds stays (act now) := by
    cases happening with
    | elsewhere shell poisoned => exact fun _ => .elsewhere shell poisoned
    | kill pid => exact fun now => hactOn (.kill now)
    | suspend pid => exact fun _ => hactOn .suspend
    | resume pid => exact fun _ => hactOn .resume
    | create => cases hplain
    | cleanupCompleted => cases hplain
    | cleanupAll => cases hplain
    | _ => trivial
  obtain ⟨_,hlater⟩ := hsustained.untimely (fun _ _ ⟨_,hs⟩ => ⟨_,rfl,hs.numbered,hs.table⟩) hmakes schedule hholding
  exact ⟨hlater.numbered,hlater.table⟩

/-- What one happening makes of the table. -/
theorem Roster.happening (h : Roster created removed schedule) (happening : Happening σ) :
    Roster (created ++ happening.creation?.toList) (removed ++ removedBy happening schedule) (happening.act.run schedule).2 := by
  have hsame (hplain : happening.isPlain) : Roster created removed (happening.act.run schedule).2 := by
    obtain ⟨hnumbered,horigins,htable⟩ := stays_plain h.numbered hplain
    exact h.of_same hnumbered horigins htable
  cases happening with
  | create definition background =>
    have hnone : removedBy (.create definition background) schedule = [] := by simp [removedBy, Happening.removes]
    rw [hnone, List.append_nil]
    exact h.create definition background rfl
  | cleanupCompleted =>
    have hmanager := congrArg Prod.snd (Manager.run_cleanupCompleted h.numbered)
    refine h.cleanup .cleanupCompleted h.numbered.sweeps_cleared (fun job => ?_) hmanager
    split <;> rfl
  | cleanupAll =>
    have hmanager := congrArg Prod.snd (Manager.run_cleanupAll h.numbered schedule.now)
    refine h.cleanup .cleanupAll (h.numbered.sweeps_swept schedule.now) (fun job => ?_) hmanager
    split
    · exact Job.Act.origin_apply _ job
    · rfl
  | _ => simpa [removedBy, Happening.removes, Happening.creation?] using hsame rfl

/-- What all happenings make of it. -/
theorem Roster.play (h : Roster created removed schedule) (happenings : List (Happening σ)) :
    Roster (created ++ creations happenings) (removed ++ schedule.removals happenings) (schedule.play happenings) := by
  induction happenings generalizing schedule created removed with
  | nil =>
    change Roster (created ++ []) (removed ++ []) schedule
    rwa [List.append_nil, List.append_nil]
  | cons happening rest ih =>
    have hlater := ih (h.happening happening)
    have hcreated : creations (happening :: rest) = happening.creation?.toList ++ creations rest := by
      rw [creations, List.filterMap_cons]
      cases happening.creation? <;> rfl
    rw [hcreated, removals, ← List.append_assoc, ← List.append_assoc]
    exact hlater

/-! ### The law of the table -/

/-- What a table is that was made by creations and removals. -/
structure Lawful (created : List (Definition × Bool)) (removed : List Nat) (schedule : Schedule σ) : Prop where
  /-- The jobs are what was created, numbered from 1 on. -/
  origins : schedule.manager.jobs.map Job.origin = created.zipIdx 1
  /-- The next job has the next number in its name, and no two jobs have the same name. -/
  next : ∀ definition background,
    ((Manager.create definition background).run schedule.manager).1.pid = s!"agent_{created.length + 1}"
  distinct : (schedule.manager.jobs.map Job.pid).Nodup
  /-- As long as the counter does not run over, 64 bits are enough for it. -/
  fits : created.length < 2 ^ 64 → ∀ job ∈ schedule.manager.jobs, (UInt64.ofNat job.number).toNat = job.number
  /-- The table has the names of the jobs that were not removed, and no other ones. -/
  entries : ∀ pid number, Keyed.find? pid schedule.manager.table = some number ↔
    pid = s!"agent_{number}" ∧ 1 ≤ number ∧ number ≤ created.length ∧ number ∉ removed
  /-- The list has the jobs that were not removed, in the order of creation: by name the tenth would come before the second. -/
  kept : schedule.manager.listed = schedule.manager.jobs.filter fun job => job.number ∉ removed
  listed : schedule.manager.listed.map Job.pid =
    ((List.range' 1 created.length).filter fun number => number ∉ removed).map fun number => s!"agent_{number}"
  /-- The order in which the table gives its entries makes no difference. -/
  sorted : ∀ numbers : List Nat, numbers.Perm (schedule.manager.table.map Prod.snd) →
    schedule.manager.inOrder numbers = schedule.manager.listed
  /-- What is found under a name is the job of that name, unless it was removed. -/
  found : ∀ pid job, schedule.manager.find? pid = some job ↔
    job ∈ schedule.manager.jobs ∧ job.pid = pid ∧ job.number ∉ removed

namespace Roster
omit [Storage σ]

theorem map_number (h : Roster created removed schedule) : schedule.manager.jobs.map Job.number = List.range' 1 created.length := by
  rw [h.numbered.numbers, h.length]

theorem nodup_pids (h : Roster created removed schedule) : (schedule.manager.jobs.map Job.pid).Nodup := by
  have hjobs : schedule.manager.jobs.Nodup := .of_map Job.number (h.map_number ▸ List.nodup_range')
  exact (List.nodup_map_iff_inj_on hjobs).mpr fun job hj other ho hsame => h.numbered.eq_of_number ho hj (Job.pid_eq_iff.mp hsame)

theorem find?_table_iff (h : Roster created removed schedule) {pid : String} {number : Nat} :
    Keyed.find? pid schedule.manager.table = some number ↔
      pid = s!"agent_{number}" ∧ 1 ≤ number ∧ number ≤ created.length ∧ number ∉ removed := by
  rw [h.numbered.find?_table_iff]
  constructor
  · rintro ⟨job,hj,rfl,rfl,hlists⟩
    obtain ⟨hfirst,hlast⟩ := (h.mem_jobs_iff job.number).mp ⟨job,hj,rfl⟩
    exact ⟨rfl,hfirst,hlast,(h.lists job hj).mp hlists⟩
  · rintro ⟨rfl,hfirst,hlast,hremoved⟩
    obtain ⟨job,hj,rfl⟩ := (h.mem_jobs_iff number).mpr ⟨hfirst,hlast⟩
    exact ⟨job,hj,rfl,rfl,(h.lists job hj).mpr hremoved⟩

theorem listed_eq (h : Roster created removed schedule) :
    schedule.manager.listed = schedule.manager.jobs.filter fun job => job.number ∉ removed := by
  rw [h.numbered.listed_eq]
  refine List.filter_congr fun job hj => ?_
  rw [Bool.eq_iff_iff, decide_eq_true_iff]
  exact h.lists job hj

theorem listed_pids (h : Roster created removed schedule) : schedule.manager.listed.map Job.pid =
    ((List.range' 1 created.length).filter fun number => number ∉ removed).map fun number => s!"agent_{number}" := by
  rw [h.listed_eq, ← h.map_number, List.filter_map, List.map_map]
  rfl

theorem lawful (h : Roster created removed schedule) : Lawful created removed schedule where
  origins := h.origins
  next definition background := by
    rw [← h.next]
    rfl
  distinct := h.nodup_pids
  fits hlength job hj := by
    rw [UInt64.toNat_ofNat', Nat.mod_eq_of_lt]
    exact lt_of_le_of_lt (h.number_le hj) hlength
  entries _ _ := h.find?_table_iff
  kept := h.listed_eq
  listed := h.listed_pids
  sorted numbers hperm := by rw [h.numbered.inOrder_eq hperm, h.numbered.listed_eq]
  found pid job := by
    rw [h.numbered.find?_iff]
    exact and_congr_right fun hj => and_congr_right fun _ => h.lists job hj

end Roster

/--
Whatever happens, the jobs are numbered as they were created, and names are not used again. The table lists what was created
and not removed, in order; a job is found under its name until it is removed, and nothing is found there ever after. What has
ended leaves the table in a cleanup of it, in whatever order its names are gone through, is counted, and everything else stays
as it was.
-/
theorem table_law (shell : Shell σ) (model : Model) (limit : Option Nat) (timers : Timers) (happenings : List (Happening σ)) :
    let start := new (Manager.new shell model limit) timers
    let s := start.play happenings
    let cleaned := (interrupting fun _ => Manager.cleanupCompleted).run s
    Lawful (creations happenings) (start.removals happenings) s ∧
      (∀ number ∈ start.removals happenings, ∀ more, (s.play more).manager.find? s!"agent_{number}" = none) ∧
      (∀ pids : List String, pids.Perm s.manager.table.keys →
        ((pids.forM Manager.drop).run s.manager).2 = cleaned.2.manager) ∧
      cleaned.2.manager.listed = (s.manager.listed.filter fun job => !job.state.isTerminal) ∧
      cleaned.1 = s.manager.listed.countP fun job => job.state.isTerminal := by
  intro start s cleaned
  have hnew : Roster [] [] start := ⟨Manager.numbered_new shell model limit,rfl,by simp [start, new, Manager.new],by simp⟩
  have hroster (happenings : List (Happening σ)) :
      Roster (creations happenings) (start.removals happenings) (start.play happenings) := by
    simpa using hnew.play happenings
  have hnumbered := (hroster happenings).numbered
  have hmanager : cleaned.2.manager = s.manager.cleared := congrArg Prod.snd (Manager.run_cleanupCompleted hnumbered)
  refine ⟨(hroster happenings).lawful,fun number hremoved more => ?_,fun pids hperm => ?_,?_,?_⟩
  · have hplay : s.play more = start.play (happenings ++ more) := (List.foldl_append ..).symm
    rw [hplay]
    refine Option.eq_none_iff_forall_ne_some.mpr fun job hfound => ?_
    obtain ⟨_,hpid,hnot⟩ := ((hroster (happenings ++ more)).lawful.found _ job).mp hfound
    rw [removals_append, Job.pid_eq_iff.mp hpid] at hnot
    exact hnot (List.mem_append_left _ hremoved)
  · rw [hmanager, Manager.run_drops_all hnumbered fun pid hpid => hperm.mem_iff.mpr hpid]
  · rw [hmanager, Manager.listed_cleared hnumbered]
  · exact congrArg Prod.fst (Manager.run_cleanupCompleted hnumbered)

/-- Of three jobs the first is killed and removed before the third is created. A cleanup may go through the names backwards. -/
theorem two_left_of_three :
    let shell : Shell Provider := ⟨⟨⟨.plain (.tree .empty),"/",0⟩,[],[],true,"",[]⟩,[]⟩
    let model : Model := fun _ _ _ => ⟨some 100,.text "done"⟩
    let start := new (Manager.new shell model none)
    let happenings := [.create .standard true,.create .standard true,.spawn 1 "go on",.poll 0,.kill "agent_1",.cleanupCompleted,
      .create .standard true]
    let s := start.play happenings
    start.removals happenings = [1] ∧ s.manager.listed.map Job.pid = ["agent_2", "agent_3"] ∧
      (∀ more, (s.play more).manager.find? "agent_1" = none) ∧ ["agent_3", "agent_2"].Perm s.manager.table.keys ∧
      ((["agent_3", "agent_2"].forM Manager.drop).run s.manager).2 =
        ((interrupting fun _ => Manager.cleanupCompleted).run s).2.manager := by
  intro shell model start happenings s
  have hremovals : start.removals happenings = [1] := by decide +kernel
  have hkeys : s.manager.table.keys = ["agent_2", "agent_3"] := by decide +kernel
  have hperm : ["agent_3", "agent_2"].Perm s.manager.table.keys := hkeys ▸ .swap _ _ _
  have hnames : s!"agent_{1}" = "agent_1" ∧ (((List.range' 1 (creations happenings).length).filter fun number => number ∉ [1]).map
      fun number => s!"agent_{number}") = ["agent_2", "agent_3"] := by decide +kernel
  -- From here on nothing is to be played, so that facts about these happenings only need to be put together.
  clear_value happenings
  obtain ⟨hlawful,hgone,hdrops,-⟩ := table_law shell model none waitFor happenings
  have hnone := hgone 1 (by rw [hremovals]; exact List.mem_singleton_self 1)
  rw [hnames.1] at hnone
  have hlisted := hlawful.listed
  rw [hremovals, hnames.2] at hlisted
  exact ⟨hremovals,hlisted,hnone,hperm,hdrops _ hperm⟩

end Schedule
end VirtualShell.Agent
