import VirtualShell.Proofs.Agent.Table

/-!
The table is listed and cleaned up. The list has the jobs of the table in the order of their creation, though the table
itself has no order. In a cleanup of everything what is active is ended by force, what has ended leaves the table, and only
pending jobs stay there, with their work given up.
-/
namespace VirtualShell.Agent

/-! ### Acts on many jobs -/

/-- What an act on the jobs with some numbers makes of some job. -/
def Job.Act.among (numbers : List Nat) (act : Act) (job : Job) : Job :=
  if job.number ∈ numbers ∧ act.fits job.state then act.apply job else job

/-- One act after the other is done to different jobs. -/
theorem Job.Act.among_on {number : Nat} {numbers : List Nat} (hnew : number ∉ numbers) (act : Act) (job : Job) :
    act.among numbers (act.on number job) = act.among (number :: numbers) job := by
  by_cases hnumber : job.number = number
  · have hnot : job.number ∉ numbers := hnumber ▸ hnew
    rw [Act.among, Act.number_on, if_neg (fun h => hnot h.1), Act.on, Act.among]
    simp [hnumber]
  · rw [Act.on, if_neg (fun h => hnumber h.1), Act.among, Act.among]
    simp [hnumber]

/-- A job is pending, active, or has ended. -/
theorem State.cases (state : State) : state = .pending ∨ state.isActive ∨ state.isTerminal := by
  cases state <;> simp [isActive, isTerminal]

namespace Job
variable {now : Nat} {job : Job}

/-- What a cleanup of everything at a moment makes of a job of the table: its work is given up. -/
def swept (now : Nat) (job : Job) : Job := (Act.giveUp now).apply job

@[simp] theorem number_swept (now : Nat) (job : Job) : (job.swept now).number = job.number := Act.number_apply _ _

theorem swept_pending (hpending : job.state = .pending) : job.swept now = { job with cancelled := true } := by
  simp [swept, Act.apply, hpending, State.isActive]

theorem swept_active (hactive : job.state.isActive) : job.swept now = job.terminate now := by
  simp [swept, Act.apply, hactive]

/-- It is given up if that fits, and what has ended then is given up when it leaves the table. -/
theorem swept_eq (now : Nat) (job : Job) :
    let given := if (Act.giveUp now).fits job.state then (Act.giveUp now).apply job else job
    (if given.state.isTerminal then { given with cancelled := true } else given) = job.swept now := by
  rcases State.cases job.state with hpending | hactive | hterminal
  · simp [swept_pending hpending, Act.fits, Act.apply, hpending, State.isActive, State.isTerminal]
  · simp [swept_active hactive, Act.fits, Act.apply, hactive, terminate, State.isTerminal]
  · have hactive : job.state.isActive = false := by cases hs : job.state <;> simp_all [State.isActive, State.isTerminal]
    have hpending : job.state ≠ .pending := by
      intro hs
      simp [hs, State.isTerminal] at hterminal
    simp [swept, Act.fits, Act.apply, hactive, hpending, hterminal]

/-- What is given up ends, unless it was not begun. -/
theorem isTerminal_giveUp (now : Nat) (job : Job) :
    (if (Act.giveUp now).fits job.state then (Act.giveUp now).apply job else job).state.isTerminal =
      (job.state != .pending) := by
  cases hs : job.state <;> simp [Act.fits, Act.apply, State.isActive, State.isTerminal, terminate, hs]

theorem isActive_swept (now : Nat) (job : Job) : ¬(job.swept now).state.isActive := by
  rw [swept, Act.apply]
  split
  · exact Bool.false_ne_true
  · assumption

end Job

namespace Manager
variable {σ : Type} {m : Manager σ} {job : Job} {kind : State → Bool} {pid : String}

/-! ### The list -/

theorem Numbered.rising_jobs (h : m.Numbered) : m.jobs.Pairwise fun a b => a.number < b.number := by
  rw [← List.pairwise_map, h.numbers]
  exact List.pairwise_lt_range'

theorem Numbered.nodup_jobs (h : m.Numbered) : m.jobs.Nodup :=
  h.rising_jobs.imp fun {a b} (hlt : a.number < b.number) heq => hlt.ne (congrArg Job.number heq)

/-- The numbers of the table are those of the jobs in the table. -/
theorem Numbered.mem_table_iff (h : m.Numbered) {number : Nat} :
    number ∈ m.table.map Prod.snd ↔ ∃ job ∈ m.jobs, job.number = number ∧ m.lists job := by
  rw [List.mem_map]
  constructor
  · rintro ⟨⟨pid,_⟩,hentry,rfl⟩
    obtain ⟨job,hj,hnumber,_,hlists⟩ := h.find?_table_iff.mp (h.rising.find?_iff.mpr hentry)
    exact ⟨job,hj,hnumber,hlists⟩
  · rintro ⟨job,hj,rfl,hlists⟩
    exact ⟨(job.pid,job.number),h.rising.find?_iff.mp (h.find?_table_iff.mpr ⟨job,hj,rfl,rfl,hlists⟩),rfl⟩

/-- No number is in the table under two names. -/
theorem Numbered.nodup_table (h : m.Numbered) : (m.table.map Prod.snd).Nodup := by
  refine List.Nodup.map_on (fun entry he other ho hsame => Prod.ext ?_ hsame) h.rising.nodup
  obtain ⟨job,hj,hnumber,hpid,_⟩ := h.find?_table_iff.mp (h.rising.find?_iff.mpr he)
  obtain ⟨last,hl,hlast,hname,_⟩ := h.find?_table_iff.mp (h.rising.find?_iff.mpr ho)
  rw [← hpid, ← hname, h.eq_of_number hj hl (hlast.trans (hsame.symm.trans hnumber.symm))]

/-- The jobs with the numbers of the table are the jobs in the table. -/
theorem Numbered.perm_jobs (h : m.Numbered) {numbers : List Nat} (hperm : numbers.Perm (m.table.map Prod.snd)) :
    (numbers.filterMap m.job?).Perm (m.jobs.filter m.lists) := by
  refine (List.perm_ext_iff_of_nodup ?_ (h.nodup_jobs.filter _)).mpr fun job => ?_
  · refine List.Nodup.filterMap (fun number other job hn ho => ?_) (hperm.nodup_iff.mpr h.nodup_table)
    exact (mem_of_job? hn).2.symm.trans (mem_of_job? ho).2
  rw [List.mem_filterMap, List.mem_filter]
  constructor
  · rintro ⟨number,hn,hfound⟩
    obtain ⟨other,ho,hnumber,hlists⟩ := h.mem_table_iff.mp (hperm.mem_iff.mp hn)
    obtain ⟨hj,hjob⟩ := mem_of_job? hfound
    rw [h.eq_of_number ho hj (hjob.trans hnumber.symm)]
    exact ⟨ho,hlists⟩
  · rintro ⟨hj,hlists⟩
    exact ⟨job.number,hperm.mem_iff.mpr (h.mem_table_iff.mpr ⟨job,hj,rfl,hlists⟩),h.job?_number hj⟩

/-- Whatever order the numbers of the table come in, they are those of the jobs in the table, in the order of creation. -/
theorem Numbered.inOrder_eq (h : m.Numbered) {numbers : List Nat} (hperm : numbers.Perm (m.table.map Prod.snd)) :
    m.inOrder numbers = m.jobs.filter m.lists := by
  have hsame : (m.inOrder numbers).Perm (m.jobs.filter m.lists) := (List.mergeSort_perm _ _).trans (h.perm_jobs hperm)
  have hsorted : (m.inOrder numbers).Pairwise fun a b => a.number ≤ b.number := by
    refine (List.pairwise_mergeSort ?_ ?_ _).imp of_decide_eq_true
    · exact fun a b c => by simpa using Nat.le_trans
    · exact fun a b => by simpa using Nat.le_total a.number b.number
  -- The same jobs in rising order of their numbers are the same list.
  refine List.Perm.eq_of_pairwise (fun a b ha hb hab hba => ?_) hsorted ((h.rising_jobs.imp Nat.le_of_lt).filter _) hsame
  exact h.eq_of_number (List.mem_of_mem_filter hb) (List.mem_of_mem_filter (hsame.mem_iff.mp ha)) (Nat.le_antisymm hab hba)

theorem Numbered.listed_eq (h : m.Numbered) : m.listed = m.jobs.filter m.lists := h.inOrder_eq (.refl _)

theorem Numbered.mem_listed (h : m.Numbered) : job ∈ m.listed ↔ job ∈ m.jobs ∧ m.lists job := by
  rw [h.listed_eq, List.mem_filter]

/-- The list leaves nothing out. -/
theorem Numbered.length_listed (h : m.Numbered) : m.listed.length = m.table.length := by
  have hall : ∀ number ∈ m.table.map Prod.snd, (m.job? number).isSome := by
    intro number hn
    obtain ⟨job,hj,rfl,_⟩ := h.mem_table_iff.mp hn
    rw [h.job?_number hj]
    rfl
  rw [listed, inOrder, List.length_mergeSort, List.filterMap_length_eq_length.mpr hall, List.length_map]

/-! ### What leaves the table -/

/-- Whether a name of the table is that of a job in a state of some kind. -/
def has (m : Manager σ) (kind : State → Bool) (pid : String) : Bool := (m.find? pid).any fun job => kind job.state

theorem has_iff : m.has kind pid ↔ ∃ job, m.find? pid = some job ∧ kind job.state := by
  cases hfound : m.find? pid <;> simp [has, hfound]

theorem Numbered.has_pid (h : m.Numbered) (hj : job ∈ m.jobs) : m.has kind job.pid = (m.lists job && kind job.state) := by
  by_cases hlists : m.lists job
  · rw [has, h.find?_pid hj hlists, hlists]
    rfl
  · have hnone : m.find? job.pid = none := by
      refine Option.eq_none_iff_forall_ne_some.mpr fun other hfound => hlists ?_
      obtain ⟨_,hpid,hother⟩ := h.find?_iff.mp hfound
      rwa [lists, ← hpid]
    simp [has, hnone, hlists]

/-- The manager when some names have been taken out of the table, and what is left of their work given up. -/
def dropping (m : Manager σ) (gone : String → Bool) : Manager σ := { m with
  jobs := m.jobs.map fun job => if gone job.pid then { job with cancelled := true } else job
  table := m.table.filter fun entry => !gone entry.1 }

/-- The manager when everything that has ended was taken out of the table. -/
def cleared (m : Manager σ) : Manager σ := m.dropping (m.has State.isTerminal)

/-- When a job has left the table, nothing is found under its name. -/
theorem has_drop (h : m.Numbered) (number : Nat) (pid other : String) :
    ({ m with jobs := m.jobs.map (Job.Act.clear.on number), table := Keyed.erase pid m.table } : Manager σ).has
      State.isTerminal other = (m.has State.isTerminal other && other != pid) := by
  have hstate (job : Job) : (Job.Act.clear.on number job).state = job.state := by
    unfold Job.Act.on
    split <;> rfl
  rw [has, find?, h.rising.find?_erase]
  split
  · rename_i hsame
    simp [hsame]
  · rename_i hne
    have hname : (other != pid) = true := bne_iff_ne.mpr (Ne.symm hne)
    rw [hname, Bool.and_true, has, find?]
    cases Keyed.find? other m.table with
    | none => rfl
    | some n =>
      change Option.any _ (Manager.job? _ n) = Option.any _ (m.job? n)
      rw [job?_map (m := m) rfl (Job.Act.number_on number .clear), Option.any_map]
      simp only [hstate]

/-- After the first of some names has left the table with its job, the others leave it as they would have before. -/
theorem dropping_drop (h : m.Numbered) (hfound : m.find? pid = some job) (hends : job.state.isTerminal) (pids : List String) :
    let m' : Manager σ := { m with jobs := m.jobs.map (Job.Act.clear.on job.number), table := Keyed.erase pid m.table }
    (m'.dropping fun name => pids.contains name && m'.has State.isTerminal name) =
      m.dropping fun name => (pid :: pids).contains name && m.has State.isTerminal name := by
  obtain ⟨hj,rfl⟩ := h.mem_of_find? hfound
  have hhas : m.has State.isTerminal job.pid := has_iff.mpr ⟨job,hfound,hends⟩
  simp only [dropping, has_drop h]
  congr 1
  · rw [List.map_map]
    refine List.map_congr_left fun other ho => ?_
    by_cases hself : other = job
    · subst hself
      simp [Job.Act.on, Job.Act.fits, Job.Act.apply, hends, hhas]
    · have hnumber : other.number ≠ job.number := fun hn => hself (h.eq_of_number hj ho hn)
      have hpid : other.pid ≠ job.pid := fun hp => hnumber (Job.number_of_pid hp)
      simp [Job.Act.on, hnumber, hpid]
  · rw [h.rising.erase_eq, List.filter_filter]
    refine List.filter_congr fun entry _ => ?_
    by_cases hname : entry.1 = job.pid
    · simp [hname, hhas]
    · simp [bne_iff_ne.mpr hname, hname]

/-- One name after the other is taken out of the table, if its job has ended. -/
theorem run_drops (h : m.Numbered) (pids : List String) :
    (pids.forM drop).run m = ((),m.dropping fun pid => pids.contains pid && m.has State.isTerminal pid) := by
  induction pids generalizing m with
  | nil =>
    have hsame : (m.dropping fun pid => ([] : List String).contains pid && m.has State.isTerminal pid) = m := by simp [dropping]
    rw [hsame]
    rfl
  | cons pid rest ih =>
    have hrun : ((pid :: rest).forM drop).run m = (rest.forM drop).run ((drop pid).run m).2 := rfl
    rw [hrun, ih (h.drop pid)]
    congr 1
    by_cases hkept : ∀ job, m.find? pid = some job → ¬job.state.isTerminal
    · have hnot : m.has State.isTerminal pid = false := by simpa [← Bool.not_eq_true, has_iff] using hkept
      rw [run_drop_kept h hkept]
      congr 1
      funext name
      by_cases hname : name = pid
      · simp [hname, hnot]
      · simp [hname]
    · obtain ⟨job,hfound,hends⟩ : ∃ job, m.find? pid = some job ∧ job.state.isTerminal := by simpa using hkept
      rw [run_drop h hfound hends]
      exact dropping_drop h hfound hends rest

/-- It makes no difference in which order all names are gone through. -/
theorem run_drops_all (h : m.Numbered) {pids : List String} (hall : ∀ pid ∈ m.table.keys, pid ∈ pids) :
    (pids.forM drop).run m = ((),m.cleared) := by
  rw [run_drops h, cleared]
  congr 2
  funext pid
  cases hhas : m.has State.isTerminal pid with
  | false => rw [Bool.and_false]
  | true =>
    obtain ⟨job,hfound,_⟩ := has_iff.mp hhas
    obtain ⟨number,hnumber,_⟩ := Option.bind_eq_some_iff.mp hfound
    have hname : pid ∈ m.table.keys := Keyed.find?_isSome_iff.mp (by rw [hnumber]; rfl)
    simp [hall pid hname]

/-! ### Cleanups -/

/-- What a cleanup makes of a manager: the jobs in states of some kind leave the table, and no job gets another number. -/
structure Sweeps (kind : State → Bool) (f : Job → Job) (m later : Manager σ) : Prop where
  numbered : later.Numbered
  jobs : later.jobs = m.jobs.map f
  number : ∀ job, (f job).number = job.number
  table : later.table = m.table.filter fun entry => !m.has kind entry.1

namespace Sweeps
variable {f : Job → Job} {later : Manager σ}

theorem lists (hs : Sweeps kind f m later) (h : m.Numbered) (hj : job ∈ m.jobs) :
    later.lists (f job) = (m.lists job && !kind job.state) := by
  have hpid : (f job).pid = job.pid := by rw [Job.pid, Job.pid, hs.number]
  rw [Manager.lists, hpid, hs.table, Keyed.contains, Keyed.find?_filter (fun pid => !m.has kind pid), h.has_pid hj]
  cases hlists : m.lists job with
  | false =>
    have hnone : Keyed.find? job.pid m.table = none := by simpa [Manager.lists, Keyed.contains] using hlists
    simp [hnone]
  | true =>
    have hfound : (Keyed.find? job.pid m.table).isSome := hlists
    cases kind job.state <;> simp [hfound]

/-- The others are left, in their order. -/
theorem listed (hs : Sweeps kind f m later) (h : m.Numbered) :
    later.listed = (m.listed.filter fun job => !kind job.state).map f := by
  rw [hs.numbered.listed_eq, h.listed_eq, hs.jobs, List.filter_map, List.filter_filter]
  refine congrArg _ (List.filter_congr fun job hj => ?_)
  rw [Function.comp_apply, hs.lists h hj, Bool.and_comm]

/-- The table is shorter by those that have left. -/
theorem count (hs : Sweeps kind f m later) (h : m.Numbered) :
    m.table.length - later.table.length = m.listed.countP fun job => kind job.state := by
  have hlength : m.listed.length = m.listed.countP (fun job => kind job.state) + later.listed.length := by
    rw [hs.listed h, List.length_map, ← List.countP_eq_length_filter]
    exact (List.length_eq_countP_add_countP fun job : Job => kind job.state).trans (congrArg _ (List.countP_congr fun _ _ => by simp))
  rw [← h.length_listed, ← hs.numbered.length_listed, hlength, Nat.add_sub_cancel]

end Sweeps

theorem Numbered.drops (h : m.Numbered) (pids : List String) : ((pids.forM Manager.drop).run m).2.Numbered := by
  induction pids generalizing m with
  | nil => exact h
  | cons pid rest ih => exact ih (h.drop pid)

theorem Numbered.sweeps_cleared (h : m.Numbered) : Sweeps State.isTerminal
    (fun job => if m.has State.isTerminal job.pid then { job with cancelled := true } else job) m m.cleared where
  numbered := by
    have hdrops := h.drops m.table.keys
    rwa [run_drops_all h fun _ hpid => hpid] at hdrops
  jobs := rfl
  number job := by split <;> rfl
  table := rfl

/-- What has not ended stays in the table as it is. -/
theorem listed_cleared (h : m.Numbered) : m.cleared.listed = m.listed.filter fun job => !job.state.isTerminal := by
  rw [h.sweeps_cleared.listed h]
  refine (List.map_congr_left fun job hj => ?_).trans (List.map_id _)
  obtain ⟨hlisted,hstays⟩ := List.mem_filter.mp hj
  have hends : job.state.isTerminal = false := by simpa using hstays
  rw [h.has_pid (h.mem_listed.mp hlisted).1, hends, Bool.and_false]
  rfl

/-- What has ended leaves the table, and is counted. -/
theorem run_cleanupCompleted (h : m.Numbered) :
    cleanupCompleted.run m = (m.listed.countP fun job => job.state.isTerminal,m.cleared) := by
  have hdrops : (m.table.keys.forM drop).run m = pure ((),m.cleared) := run_drops_all h fun _ hpid => hpid
  rw [← h.sweeps_cleared.count h]
  simp only [cleanupCompleted, StateT.run_bind, StateT.run_get, pure_bind, hdrops]
  rfl

/-- An act on some jobs of the table is done to each of them whose state fits, and those are counted. -/
theorem run_actOnAll (h : m.Numbered) (act : Job.Act) {jobs : List Job} (hjobs : ∀ job ∈ jobs, job ∈ m.jobs)
    (hnodup : (jobs.map Job.number).Nodup) : (actOnAll act jobs).run m = (jobs.countP fun job => act.fits job.state,
      { m with jobs := m.jobs.map (act.among (jobs.map Job.number)) }) := by
  induction jobs generalizing m with
  | nil =>
    have hsame : m.jobs.map (act.among []) = m.jobs :=
      (List.map_congr_left fun job _ => by simp [Job.Act.among]).trans (List.map_id _)
    rw [List.map_nil, hsame]
    rfl
  | cons job rest ih =>
    obtain ⟨hnew,hrest⟩ := List.nodup_cons.mp hnodup
    have hfound := h.job?_number (hjobs job List.mem_cons_self)
    let later : Manager σ := { m with jobs := m.jobs.map (act.on job.number) }
    -- The others have other numbers, so the first act leaves them as they are.
    have hthere : ∀ other ∈ rest, other ∈ later.jobs := by
      intro other ho
      refine List.mem_map.mpr ⟨other,hjobs other (List.mem_cons_of_mem _ ho),?_⟩
      have hne : other.number ≠ job.number := fun he => hnew (he ▸ List.mem_map_of_mem ho)
      simp [Job.Act.on, hne]
    have hfirst : (Manager.act job.number act).run m = pure (act.fits job.state,later) := by
      rw [run_act h, hfound]
      rfl
    have hlast : (actOnAll act rest).run later = pure (rest.countP fun job => act.fits job.state,
        { later with jobs := later.jobs.map (act.among (rest.map Job.number)) }) := ih (h.on _ _) hthere hrest
    have hmap : later.jobs.map (act.among (rest.map Job.number)) = m.jobs.map (act.among ((job :: rest).map Job.number)) := by
      rw [List.map_map]
      exact List.map_congr_left fun other _ => Job.Act.among_on hnew act other
    simp only [actOnAll, StateT.run_bind, hfirst, hlast, pure_bind, hmap, List.countP_cons]
    rw [Nat.add_comm]
    rfl

/-- What an act on all jobs of the table makes of some job. -/
def onListed (m : Manager σ) (act : Job.Act) (job : Job) : Job :=
  if m.lists job then if act.fits job.state then act.apply job else job else job

@[simp] theorem number_onListed (m : Manager σ) (act : Job.Act) (job : Job) : (m.onListed act job).number = job.number := by
  unfold onListed
  split
  · split <;> simp
  · rfl

theorem Numbered.onListed (h : m.Numbered) (act : Job.Act) :
    ({ m with jobs := m.jobs.map (m.onListed act) } : Manager σ).Numbered := by
  refine h.map (number_onListed m act) fun job _ hterminal => ?_
  unfold Manager.onListed
  split
  · split
    · exact Job.Act.terminal_apply hterminal ‹_›
    · exact hterminal
  · exact hterminal

theorem run_actOnListed (h : m.Numbered) (act : Job.Act) : (actOnAll act m.listed).run m =
    (m.listed.countP fun job => act.fits job.state, { m with jobs := m.jobs.map (m.onListed act) }) := by
  have hnodup : (m.listed.map Job.number).Nodup := by
    rw [h.listed_eq]
    refine List.Nodup.sublist (List.filter_sublist.map Job.number) ?_
    rw [h.numbers]
    exact List.nodup_range'
  have hmap : m.jobs.map (act.among (m.listed.map Job.number)) = m.jobs.map (m.onListed act) := by
    refine List.map_congr_left fun job hj => ?_
    have hlisted : job.number ∈ m.listed.map Job.number ↔ m.lists job := by
      constructor
      · intro hnumber
        obtain ⟨other,ho,hsame⟩ := List.mem_map.mp hnumber
        obtain ⟨hmem,hother⟩ := h.mem_listed.mp ho
        exact h.eq_of_number hj hmem hsame ▸ hother
      · exact fun hlists => List.mem_map_of_mem (h.mem_listed.mpr ⟨hj,hlists⟩)
    simp only [Job.Act.among, onListed, hlisted, ite_and]
  rw [run_actOnAll h act (fun job hj => (h.mem_listed.mp hj).1) hnodup, hmap]

/-- The manager when everything was cleaned up. -/
def swept (now : Nat) (m : Manager σ) : Manager σ := { m with
  jobs := m.jobs.map fun job => if m.lists job then job.swept now else job
  table := m.table.filter fun entry => !m.has (· != .pending) entry.1 }

theorem find?_map (later : Manager σ) {f : Job → Job} (hjobs : later.jobs = m.jobs.map f) (htable : later.table = m.table)
    (hnumber : ∀ job, (f job).number = job.number) (pid : String) : later.find? pid = (m.find? pid).map f := by
  rw [find?, htable, find?, Option.map_bind]
  exact congrArg _ (funext fun number => job?_map hjobs hnumber number)

/-- What is given up ends, unless it was not begun, and leaves the table then. -/
private theorem cleared_given (h : m.Numbered) {now : Nat} {given : Manager σ}
    (hgiven : given = { m with jobs := m.jobs.map (m.onListed (.giveUp now)) }) : given.cleared = m.swept now := by
  have hfind := find?_map (m := m) given (by rw [hgiven]) (by rw [hgiven]) (number_onListed m (.giveUp now))
  have hhas : given.has State.isTerminal = m.has (· != .pending) := by
    funext pid
    rw [has, has, hfind, Option.any_map]
    cases hfound : m.find? pid with
    | none => rfl
    | some job =>
      obtain ⟨_,_,hlists⟩ := h.find?_iff.mp hfound
      simp [onListed, hlists, Job.isTerminal_giveUp now job]
  rw [cleared, hhas, hgiven, dropping, swept, List.map_map]
  congr 1
  refine List.map_congr_left fun job hj => ?_
  have hpid : (m.onListed (.giveUp now) job).pid = job.pid := by simp [Job.pid]
  rw [Function.comp_apply, hpid, h.has_pid hj, onListed]
  by_cases hlists : m.lists job
  · simp only [hlists, Bool.true_and, if_true]
    rw [← Job.isTerminal_giveUp now job]
    exact Job.swept_eq now job
  · simp [hlists]

theorem Numbered.sweeps_swept (h : m.Numbered) (now : Nat) :
    Sweeps (· != .pending) (fun job => if m.lists job then job.swept now else job) m (m.swept now) where
  numbered := by
    rw [← cleared_given h rfl]
    exact (h.onListed (.giveUp now)).sweeps_cleared.numbered
  jobs := rfl
  number job := by split <;> simp
  table := rfl

/-- A cleanup takes all jobs out of the table but the pending ones, and counts those it has taken out. -/
theorem run_cleanupAll (h : m.Numbered) (now : Nat) :
    (cleanupAll now).run m = (m.listed.countP fun job => job.state != .pending,m.swept now) := by
  let given : Manager σ := { m with jobs := m.jobs.map (m.onListed (.giveUp now)) }
  have hgiven : given.Numbered := h.onListed (.giveUp now)
  have hfirst : (actOnAll (.giveUp now) m.listed).run m = pure (_,given) := run_actOnListed h (.giveUp now)
  have hrun : (cleanupAll now).run m = cleanupCompleted.run given := by
    simp only [cleanupAll, StateT.run_bind, StateT.run_get, pure_bind, hfirst]
  rw [hrun, run_cleanupCompleted hgiven, ← hgiven.sweeps_cleared.count hgiven, cleared_given h rfl]
  exact congrArg (·,m.swept now) ((h.sweeps_swept now).count h)

/-- Of the table before a cleanup the pending jobs are left, and their work is given up. -/
theorem listed_swept (h : m.Numbered) (now : Nat) : (m.swept now).listed =
    (m.listed.filter fun job => job.state == .pending).map fun job => { job with cancelled := true } := by
  have hkeep : (fun job : Job => !(job.state != .pending)) = fun job => job.state == .pending := by simp [bne]
  rw [(h.sweeps_swept now).listed h, hkeep]
  refine List.map_congr_left fun job hj => ?_
  obtain ⟨hlisted,hpending⟩ := List.mem_filter.mp hj
  rw [if_pos (h.mem_listed.mp hlisted).2]
  exact Job.swept_pending (by simpa using hpending)

/-- Nothing is active after a cleanup, since what is not in the table has ended. -/
theorem not_active_swept (h : m.Numbered) (now : Nat) : ∀ job ∈ (m.swept now).jobs, ¬job.state.isActive := by
  refine List.forall_mem_map.mpr fun job hj => ?_
  split
  · exact job.isActive_swept now
  · rename_i hlists
    have hterminal : job.state.isTerminal := by
      by_contra hstate
      exact hlists (h.lists_of hj hstate)
    cases hs : job.state <;> simp_all [State.isActive, State.isTerminal]

end Manager
end VirtualShell.Agent
