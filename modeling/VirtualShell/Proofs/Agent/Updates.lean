import VirtualShell.Agent.Schedule
import VirtualShell.Proofs.Agent.Remembering
import VirtualShell.Proofs.Storage.Provider

/-!
Memory that is kept from run to run. Every completed run adds itself to what it found when it looked up. So the count
that is stored is that of all completed runs just in case none of them was completed while another went on.
-/
namespace VirtualShell.Agent.System
open Storing Viewed
variable {σ : Type} [Storage σ] {s : System σ} {events : List (Event σ)} {name : String} {n : Nat}

/-! ### Moments -/

/-- The system before the event at a position. -/
def moment (s : System σ) (events : List (Event σ)) (n : Nat) : System σ := s.after (events.take n)

theorem moment_succ {event : Event σ} (h : events[n]? = some event) :
    s.moment events (n + 1) = (s.moment events n).step event := by
  rw [moment, after, List.take_add_one, h, List.foldl_append]
  rfl

theorem moment_length (s : System σ) (events : List (Event σ)) : s.moment events events.length = s.after events := by
  rw [moment, List.take_length]

theorem Invariant.moment (h : s.Invariant) (events : List (Event σ)) (n : Nat) : (s.moment events n).Invariant :=
  h.after _

/-- At a position, a call that has begun its job looks up what the agent remembers. -/
def LooksUp (s : System σ) (events : List (Event σ)) (i k : Nat) : Prop :=
  ∃ memory number input, events[k]? = some (.remember i memory) ∧ (s.moment events k).calls[i]? = some ⟨number,input,.begun⟩

/-- At a position, a call completes the run of an agent with the name, and saves what that remembers. -/
def Saves (name : String) (s : System σ) (events : List (Event σ)) (i n : Nat) : Prop :=
  ∃ outcome done, events[n]? = some (.finish i outcome) ∧ (s.moment events n).saved? name (.finish i outcome) = some done

/-! ### What is known of a moment -/

variable [LawfulNodes σ]

/-- What holds at every moment: above all, the job of a call that asks the model has what was stored when the call looked up. -/
structure Known (name : String) (s : System σ) (events : List (Event σ)) (n : Nat) : Prop where
  sound : Sound (s.moment events n).manager.shell.session.fs
  legible : Legible ((s.moment events n).stored name)
  past : ∀ i k, k < n → s.LooksUp events i k → i < (s.moment events n).calls.length ∧
    ∀ call, (s.moment events n).calls[i]? = some call → call.stage ≠ .begun
  lookup : ∀ i job, (s.moment events n).asking? i = some job → ∃ k < n, s.LooksUp events i k
  found : ∀ i job, (s.moment events n).asking? i = some job → job.keeps name →
    Legible job.memory ∧ ∀ k < n, s.LooksUp events i k → job.memory = (s.moment events k).stored name

namespace Known

private theorem zero (hcalls : s.calls = []) (hsound : Sound s.manager.shell.session.fs) (hnone : s.stored name = []) :
    Known name s events 0 := by
  have hzero : s.moment events 0 = s := rfl
  have hasking (i : Nat) : s.asking? i = none := by simp [asking?, hcalls]
  refine ⟨hsound,?_,fun i k hk => absurd hk (Nat.not_lt_zero k),fun i job hjob => ?_,fun i job hjob => ?_⟩
  · rw [hzero, hnone]
    exact legible_nil
  · rw [hzero, hasking] at hjob
    cases hjob
  · rw [hzero, hasking] at hjob
    cases hjob

variable (hk : Known name s events n) {event : Event σ}
include hk

/-- What is saved is legible, and not empty. -/
private theorem saved (done : Job) (h : (s.moment events n).saved? name event = some done) :
    Legible done.memory ∧ done.memory ≠ [] := by
  obtain ⟨i,_,job,text,_,hasking,hkeeps,hmemory⟩ := memory_of_saved h
  rw [hmemory]
  exact ⟨(hk.found i job hasking hkeeps).1.recordRun _ _,recordRun_ne_nil _ _ _⟩

/-- An event saves something, which is stored then, or leaves what is stored. -/
private theorem stored_succ (h : s.Invariant) (hevent : events[n]? = some event)
    (hfaithful : Faithful name (s.moment events n) event) :
    (s.moment events (n + 1)).stored name =
      match (s.moment events n).saved? name event with
      | some done => done.memory
      | none => (s.moment events n).stored name := by
  rw [moment_succ hevent]
  split
  · rename_i done hsaved
    obtain ⟨hlegible,hne⟩ := hk.saved done hsaved
    exact (h.moment events n).stored_step hk.sound hsaved (hfaithful.accepted hsaved) hlegible hne
  · rename_i hsaved
    exact (h.moment events n).spared hk.sound hfaithful hsaved

/-- A call that has looked up does so no more. -/
private theorem past_succ (h : s.Invariant) (hevent : events[n]? = some event) (i k : Nat) (hlt : k < n + 1)
    (hl : s.LooksUp events i k) : i < (s.moment events (n + 1)).calls.length ∧
      ∀ call, (s.moment events (n + 1)).calls[i]? = some call → call.stage ≠ .begun := by
  have hchange := change_step (h.moment events n).numbered event
  rw [moment_succ hevent]
  obtain hlt | rfl := Nat.lt_succ_iff_lt_or_eq.mp hlt
  · obtain ⟨hi,hpast⟩ := hk.past i k hlt hl
    refine ⟨hi.trans_le hchange.length_calls,fun call hcall hstage => ?_⟩
    exact hpast call (hchange.begun_call hi hstage hcall) hstage
  · obtain ⟨memory,number,input,hlook,hbegun⟩ := hl
    obtain rfl := Option.some.inj (hevent.symm.trans hlook)
    obtain ⟨hi,_⟩ := List.getElem?_eq_some_iff.mp hbegun
    refine ⟨hi.trans_le hchange.length_calls,fun call hcall => ?_⟩
    rw [step_remember_begun (h.moment events k).numbered hbegun, List.getElem?_set_self hi] at hcall
    rw [← Option.some.inj hcall]
    simp

private theorem succ (h : s.Invariant) (hevent : events[n]? = some event)
    (hfaithful : Faithful name (s.moment events n) event) : Known name s events (n + 1) := by
  have hinvariant := h.moment events n
  have hstored := hk.stored_succ h hevent hfaithful
  have hasking (i : Nat) (later : Job) (hl : (s.moment events (n + 1)).asking? i = some later) :=
    hinvariant.asking?_step event (moment_succ hevent ▸ hl)
  refine ⟨?_,?_,hk.past_succ h hevent,fun i later hl => ?_,fun i later hl hkeeps => ?_⟩
  · rw [moment_succ hevent]
    exact hinvariant.sound_step hk.sound hfaithful
  · rw [hstored]
    split
    · rename_i done hsaved
      exact (hk.saved done hsaved).1
    · exact hk.legible
  · obtain ⟨job,_,⟨hjob,_⟩ | ⟨number,input,hbegun,_,rfl⟩⟩ := hasking i later hl
    · obtain ⟨k,hlt,hlook⟩ := hk.lookup i job hjob
      exact ⟨k,by omega,hlook⟩
    · exact ⟨n,by omega,_,number,input,hevent,hbegun⟩
  · obtain ⟨job,hdefinition,⟨hjob,hmemory⟩ | ⟨number,input,hbegun,hjob,rfl⟩⟩ := hasking i later hl
    · rw [Job.keeps, hdefinition] at hkeeps
      obtain ⟨hlegible,hfound⟩ := hk.found i job hjob hkeeps
      rw [hmemory]
      refine ⟨hlegible,fun k hlt hlook => ?_⟩
      obtain hlt | rfl := Nat.lt_succ_iff_lt_or_eq.mp hlt
      · exact hfound k hlt hlook
      · obtain ⟨_,_,_,_,hbegun⟩ := hlook
        obtain ⟨_,_,hcall,_⟩ := asking?_eq_some.mp hjob
        cases hbegun.symm.trans hcall
    · rw [Job.keeps, hdefinition] at hkeeps
      have hmemory := hfaithful number input job hbegun hjob hkeeps
      refine ⟨hmemory ▸ hk.legible,fun k hlt hlook => ?_⟩
      obtain hlt | rfl := Nat.lt_succ_iff_lt_or_eq.mp hlt
      · exact absurd rfl ((hk.past i k hlt hlook).2 _ hbegun)
      · exact hmemory

end Known

/-! ### Counting -/

/-- A sequence of events from a system of which all moments are known. -/
private structure History (name : String) (s : System σ) (events : List (Event σ)) : Prop where
  invariant : s.Invariant
  known : ∀ n ≤ events.length, Known name s events n
  faithful : ∀ n event, events[n]? = some event → Faithful name (s.moment events n) event

private theorem history (h : s.Invariant) (hzero : Known name s events 0)
    (hfaithful : ∀ n event, events[n]? = some event → Faithful name (s.moment events n) event) : History name s events := by
  refine ⟨h,fun n hn => ?_,hfaithful⟩
  induction n with
  | zero => exact hzero
  | succ n ih =>
    have hevent : events[n]? = some events[n] := List.getElem?_eq_getElem (by omega)
    exact (ih (by omega)).succ h hevent (hfaithful n _ hevent)

/-- How many runs are stored at a moment. -/
private def runsAt (name : String) (s : System σ) (events : List (Event σ)) (n : Nat) : UInt64 :=
  runsOf ((s.moment events n).stored name)

omit [LawfulNodes σ] in
/-- How many runs were completed by a moment. -/
private def countAt (name : String) (s : System σ) (events : List (Event σ)) (n : Nat) : Nat :=
  (s.moment events n).completed name

omit [LawfulNodes σ] in
private theorem lt_length_of_saves {i : Nat} (h : Saves name s events i n) : n < events.length := by
  obtain ⟨_,_,hevent,_⟩ := h
  exact (List.getElem?_eq_some_iff.mp hevent).1

namespace History
variable (h : History name s events) {i k : Nat}
include h

/-- An event saves a run and counts it, or leaves what is stored and what is counted. -/
private theorem succ_cases (hn : n < events.length) :
    (∃ i, Saves name s events i n ∧ countAt name s events (n + 1) = countAt name s events n + 1) ∨
    (∀ i, ¬Saves name s events i n) ∧ runsAt name s events (n + 1) = runsAt name s events n ∧
      countAt name s events (n + 1) = countAt name s events n := by
  have hevent : events[n]? = some events[n] := List.getElem?_eq_getElem hn
  have hcount := (h.invariant.moment events n).completed_step name events[n]
  have hstored := (h.known n hn.le).stored_succ h.invariant hevent (h.faithful n _ hevent)
  rw [← moment_succ hevent] at hcount
  cases hsaved : (s.moment events n).saved? name events[n] with
  | some done =>
    obtain ⟨i,outcome,_,hfinish,_⟩ := saved?_eq_some hsaved
    refine .inl ⟨i,⟨outcome,done,hfinish ▸ hevent,hfinish ▸ hsaved⟩,?_⟩
    simpa [hsaved, countAt] using hcount
  | none =>
    refine .inr ⟨?_,?_,?_⟩
    · rintro i ⟨outcome,done,hfinish,hdone⟩
      rw [Option.some.inj (hevent.symm.trans hfinish), hdone] at hsaved
      cases hsaved
    · rw [runsAt, hstored, hsaved, runsAt]
    · simpa [hsaved, countAt] using hcount

private theorem count_mono {m : Nat} (hkm : k ≤ m) (hm : m ≤ events.length) :
    countAt name s events k ≤ countAt name s events m := by
  induction m, hkm using Nat.le_induction with
  | base => exact le_rfl
  | succ m hkm ih =>
    have hle := ih (by omega)
    obtain ⟨_,_,hcount⟩ | ⟨_,_,hcount⟩ := h.succ_cases (n := m) (by omega) <;> omega

/-- Who saves has looked up before. -/
private theorem exists_lookup (hs : Saves name s events i n) : ∃ k < n, LooksUp s events i k := by
  obtain ⟨outcome,done,hevent,hsaved⟩ := hs
  obtain ⟨j,_,job,_,hfinish,hasking,_⟩ := memory_of_saved hsaved
  obtain ⟨rfl,_⟩ := Event.finish.inj hfinish
  exact (h.known n (lt_length_of_saves ⟨outcome,done,hevent,hsaved⟩).le).lookup i job hasking

/-- A call looks up once. -/
private theorem lookup_unique {m : Nat} (hk : LooksUp s events i k) (hm : LooksUp s events i m) : k = m := by
  have hnot {k m : Nat} (hk : LooksUp s events i k) (hm : LooksUp s events i m) : ¬k < m := by
    intro hlt
    obtain ⟨_,_,_,hevent,hbegun⟩ := hm
    have hlength := (List.getElem?_eq_some_iff.mp hevent).1
    exact ((h.known m hlength.le).past i k hlt hk).2 _ hbegun rfl
  have hkm := hnot hk hm
  have hmk := hnot hm hk
  omega

/-- A completed run adds itself to what it found. -/
private theorem runs_succ (hl : LooksUp s events i k) (hs : Saves name s events i n) :
    k < n ∧ runsAt name s events (n + 1) = runsAt name s events k + 1 := by
  obtain ⟨m,hmn,hm⟩ := h.exists_lookup hs
  obtain rfl := h.lookup_unique hm hl
  refine ⟨hmn,?_⟩
  have hlength := lt_length_of_saves hs
  obtain ⟨outcome,done,hevent,hsaved⟩ := hs
  have hstored := (h.known n hlength.le).stored_succ h.invariant hevent (h.faithful n _ hevent)
  obtain ⟨j,_,job,text,hfinish,hasking,hkeeps,hmemory⟩ := memory_of_saved hsaved
  obtain ⟨rfl,_⟩ := Event.finish.inj hfinish
  have hfound := ((h.known n hlength.le).found i job hasking hkeeps).2 m hmn hm
  rw [runsAt, hstored, hsaved]
  dsimp only
  rw [hmemory, runsOf_recordRun, hfound, runsAt]

end History

/-- Nobody completes a run while another one, that is completed itself, goes on. -/
def Apart (name : String) (s : System σ) (events : List (Event σ)) : Prop :=
  ∀ i k n, LooksUp s events i k → Saves name s events i n →
    (s.moment events k).completed name = (s.moment events n).completed name

omit [LawfulNodes σ] in
/-- The runs that end before a moment are apart. -/
private def ApartUntil (name : String) (s : System σ) (events : List (Event σ)) (n : Nat) : Prop :=
  ∀ i k m, m < n → LooksUp s events i k → Saves name s events i m → countAt name s events k = countAt name s events m

/-- What the stored count has to do with the number of completed runs. -/
private structure Tallied (name : String) (s : System σ) (events : List (Event σ)) (n : Nat) : Prop where
  le : (runsAt name s events n).toNat ≤ countAt name s events n
  apart : (runsAt name s events n).toNat = countAt name s events n → ApartUntil name s events n
  exact : ApartUntil name s events n → runsAt name s events n = .ofNat (countAt name s events n)

private theorem toNat_succ_le (n : UInt64) : (n + 1).toNat ≤ n.toNat + 1 := by
  rw [UInt64.toNat_add]
  exact Nat.mod_le _ _

namespace History
variable (h : History name s events)
include h

/-- The count after a save is right only if the one that was found was, and no other run was completed since. -/
private theorem apart_succ {i k : Nat} (hn : n < events.length) (hl : LooksUp s events i k) (hs : Saves name s events i n)
    (hcount : countAt name s events (n + 1) = countAt name s events n + 1) (hk : Tallied name s events k)
    (heq : (runsAt name s events (n + 1)).toNat = countAt name s events (n + 1)) :
    countAt name s events k = countAt name s events n ∧ ApartUntil name s events k := by
  obtain ⟨hkn,hruns⟩ := h.runs_succ hl hs
  have hle := toNat_succ_le (runsAt name s events k)
  have hmono := h.count_mono hkn.le hn.le
  have htally := hk.le
  rw [hruns] at heq
  exact ⟨by omega,hk.apart (by omega)⟩

private theorem tallied_save {i : Nat} (hn : n < events.length) (hs : Saves name s events i n)
    (hcount : countAt name s events (n + 1) = countAt name s events n + 1)
    (hbefore : ∀ k < n, Tallied name s events k) : Tallied name s events (n + 1) := by
  obtain ⟨k,hkn,hl⟩ := h.exists_lookup hs
  obtain ⟨_,hruns⟩ := h.runs_succ hl hs
  have hk := hbefore k hkn
  have hmono := h.count_mono hkn.le hn.le
  refine ⟨?_,fun heq j m last hlast hlook hsaves => ?_,fun hapart => ?_⟩
  · have hle := toNat_succ_le (runsAt name s events k)
    have htally := hk.le
    rw [hruns]
    omega
  · obtain ⟨hsame,hapart⟩ := h.apart_succ hn hl hs hcount hk heq
    obtain hlast | rfl := Nat.lt_succ_iff_lt_or_eq.mp hlast
    · by_cases hearlier : last < k
      · exact hapart j m last hearlier hlook hsaves
      · -- No run is completed from the lookup on.
        have hlower := h.count_mono (Nat.not_lt.mp hearlier) (hlast.le.trans hn.le)
        have hupper := h.count_mono (show last + 1 ≤ n from hlast) hn.le
        obtain ⟨_,_,hone⟩ | ⟨hno,_⟩ := h.succ_cases (hlast.trans hn)
        · omega
        · exact absurd hsaves (hno j)
    · obtain ⟨_,_,hevent,_⟩ := hs
      obtain ⟨_,_,hother,_⟩ := hsaves
      obtain ⟨rfl,_⟩ := Event.finish.inj (Option.some.inj (hevent.symm.trans hother))
      rw [h.lookup_unique hlook hl]
      exact hsame
  · have hsame := hapart i k n n.lt_succ_self hl hs
    have hexact := hk.exact fun j m last hlast => hapart j m last (by omega)
    rw [hruns, hexact, hcount, hsame, UInt64.ofNat_add]
    rfl

private theorem tallied (hempty : s.stored name = []) (hnone : s.completed name = 0) (hn : n ≤ events.length) :
    Tallied name s events n := by
  induction n using Nat.strongRecOn with
  | ind n ih =>
    cases n with
    | zero =>
      have hruns : runsAt name s events 0 = 0 := by
        change runsOf (s.stored name) = 0
        rw [hempty]
        rfl
      have hcount : countAt name s events 0 = 0 := hnone
      exact ⟨by simp [hruns],fun _ _ _ _ hlt => absurd hlt (Nat.not_lt_zero _),fun _ => by rw [hruns, hcount]; rfl⟩
    | succ n =>
      obtain ⟨i,hs,hcount⟩ | ⟨hno,hruns,hcount⟩ := h.succ_cases (Nat.lt_of_succ_le hn)
      · exact h.tallied_save (Nat.lt_of_succ_le hn) hs hcount fun k hk => ih k (by omega) (by omega)
      · have hsame : ApartUntil name s events (n + 1) ↔ ApartUntil name s events n := by
          refine ⟨fun hapart i k m hm => hapart i k m (by omega),fun hapart i k m hm hl hs => ?_⟩
          obtain hm | rfl := Nat.lt_succ_iff_lt_or_eq.mp hm
          · exact hapart i k m hm hl hs
          · exact absurd hs (hno i)
        obtain ⟨hle,hapart,hexact⟩ := ih n (by omega) (by omega)
        exact ⟨by rwa [hruns, hcount],by rwa [hruns, hcount, hsame],by rwa [hruns, hcount, hsame]⟩

end History

omit [LawfulNodes σ] in
/-- Where there is no file, there is nothing to remember. -/
private theorem stored_new {shell : Shell σ}
    (hnone : (shell.onFiles (FileSystem.read (Manager.memoryPath name))).1 = .ok none) (model : Model) (limit : Option Nat) :
    (new (Manager.new shell model limit)).stored name = [] := by
  have hread : ((new (Manager.new shell model limit)).manager.shell.onFiles
      (FileSystem.read (Manager.memoryPath name))).1 = .ok none := hnone
  rw [stored, Manager.loadMemory_eq, hread]
  rfl

/--
Every run that is completed has looked up before, and what it saves tells of one more run than what it found then. So
the count that is stored is never above the number of completed runs, and it is that number just in case no run was
completed between the lookup and the end of another.
-/
theorem stored_runs {shell : Shell σ} (hshell : Sound shell.session.fs)
    (hnone : (shell.onFiles (FileSystem.read (Manager.memoryPath name))).1 = .ok none) (model : Model) (limit : Option Nat)
    (hfaithful : ∀ n event, events[n]? = some event →
      Faithful name ((new (Manager.new shell model limit)).moment events n) event) :
    let s := new (Manager.new shell model limit)
    let runs (n : Nat) := runsOf ((s.moment events n).stored name)
    let last := s.after events
    (∀ i n, Saves name s events i n → ∃ k < n, LooksUp s events i k) ∧
    (∀ i k n, LooksUp s events i k → Saves name s events i n → runs (n + 1) = runs k + 1) ∧
    (runsOf (last.stored name)).toNat ≤ last.completed name ∧
    (last.completed name < 2 ^ 64 → ((runsOf (last.stored name)).toNat = last.completed name ↔ Apart name s events)) := by
  intro s runs last
  have hempty : s.stored name = [] := stored_new hnone model limit
  have hhistory : History name s events :=
    history (invariant_new shell model limit) (.zero rfl hshell hempty) hfaithful
  obtain ⟨hle,hapart,hexact⟩ := hhistory.tallied hempty rfl le_rfl
  rw [runsAt, countAt, moment_length] at hle hapart hexact
  have hall : ApartUntil name s events events.length ↔ Apart name s events :=
    ⟨fun h i k n hl hs => h i k n (lt_length_of_saves hs) hl hs,fun h i k n _ => h i k n⟩
  rw [hall] at hapart hexact
  refine ⟨fun i n hs => hhistory.exists_lookup hs,fun i k n hl hs => (hhistory.runs_succ hl hs).2,hle,fun hfits => ⟨hapart,fun h => ?_⟩⟩
  rw [hexact h]
  exact UInt64.toNat_ofNat_of_lt' hfits

/-! ### Two runs -/

private theorem faithful_cons {event : Event σ} (h : Faithful name s event)
    (hrest : ∀ n next, events[n]? = some next → Faithful name ((s.step event).moment events n) next) :
    ∀ n next, (event :: events)[n]? = some next → Faithful name (s.moment (event :: events) n) next := by
  intro n next hnext
  cases n with
  | zero =>
    obtain rfl := Option.some.inj hnext
    exact h
  | succ n => exact hrest n next hnext

private theorem faithful_nil : ∀ n next, ([] : List (Event σ))[n]? = some next → Faithful name (s.moment [] n) next := by
  simp

private theorem faithful_append {later : List (Event σ)}
    (h : ∀ n next, events[n]? = some next → Faithful name (s.moment events n) next)
    (hlater : ∀ n next, later[n]? = some next → Faithful name ((s.after events).moment later n) next) :
    ∀ n next, (events ++ later)[n]? = some next → Faithful name (s.moment (events ++ later) n) next := by
  induction events generalizing s with
  | nil => exact hlater
  | cons event events ih => exact faithful_cons (h 0 event rfl) (ih (fun n next hn => h (n + 1) next hn) hlater)

/-- A lookup that finds nothing. -/
private theorem faithful_remember {i : Nat} (h : (s.stored name).isEmpty) : Faithful name s (.remember i []) :=
  fun _ _ _ _ _ _ => (List.isEmpty_iff.mp h).symm

/-- A run that is completed and saved, as can be computed. -/
private theorem faithful_finish {i : Nat} {outcome : Job.Outcome} (h : (s.saved? name (.finish i outcome)).any fun done =>
    !s.manager.poisoned && decide ((s.manager.shell.onFiles (Manager.keep name done.memory)).1 = .ok true)) :
    Faithful name s (.finish i outcome) := by
  cases hsaved : s.saved? name (.finish i outcome) with
  | none =>
    rw [hsaved] at h
    cases h
  | some done =>
    rw [hsaved, Option.any_some, Bool.and_eq_true, Bool.not_eq_true', decide_eq_true_eq] at h
    intro other last hother _
    obtain ⟨rfl,rfl⟩ := saved?_unique hsaved hother
    exact ⟨rfl,h.1,h.2⟩

/-- One run after the other. -/
theorem apart_of_two :
    let store := ((Storage.setUp 0).on (Provider.tree .empty)).2
    let shell : Shell Provider := ⟨⟨⟨.plain store,"/",0⟩,[],[],true,"",[]⟩,[]⟩
    let agent : Definition := { Definition.standard with name := "bot", memory := .persistent }
    let s := new (Manager.new shell (Mock.model 100) none)
    let before : List (Event Provider) := [.create agent false,.create agent true,.run 1 "a",.remember 0 [],
      .finish 0 (.completed "one"),.run 2 "b"]
    let events := before ++ [.remember 1 ((s.after before).stored "bot"),.finish 1 (.completed "two")]
    let last := s.after events
    Sound shell.session.fs ∧ (shell.onFiles (FileSystem.read (Manager.memoryPath "bot"))).1 = .ok none ∧
      (∀ n event, events[n]? = some event → Faithful "bot" (s.moment events n) event) ∧
      last.completed "bot" = 2 ∧ runsOf (last.stored "bot") = 2 ∧ Apart "bot" s events := by
  intro store shell agent s before events last
  have hshell : Sound shell.session.fs := Provider.Ready.tree.sound_setUp 0
  have hnone : (shell.onFiles (FileSystem.read (Manager.memoryPath "bot"))).1 = .ok none := by decide +kernel
  have hbefore : ∀ n event, before[n]? = some event → Faithful "bot" (s.moment before n) event :=
    faithful_cons trivial (faithful_cons trivial (faithful_cons trivial (faithful_cons (faithful_remember (by decide +kernel))
      (faithful_cons (faithful_finish (by decide +kernel)) (faithful_cons trivial faithful_nil)))))
  have hfaithful : ∀ n event, events[n]? = some event → Faithful "bot" (s.moment events n) event :=
    faithful_append hbefore (faithful_cons (fun _ _ _ _ _ _ => rfl)
      (faithful_cons (faithful_finish (by decide +kernel)) faithful_nil))
  obtain ⟨hcompleted,hruns⟩ : last.completed "bot" = 2 ∧ runsOf (last.stored "bot") = 2 := by decide +kernel
  obtain ⟨-,-,-,hiff⟩ := stored_runs hshell hnone (Mock.model 100) none hfaithful
  have hfits : last.completed "bot" < 2 ^ 64 := by
    rw [hcompleted]
    decide
  have heq : (runsOf (last.stored "bot")).toNat = last.completed "bot" := by
    rw [hruns, hcompleted]
    rfl
  exact ⟨hshell,hnone,hfaithful,hcompleted,hruns,(hiff hfits).mp heq⟩

/-- Two runs that look up before either of them is completed: all saves are accepted, and one run is lost. -/
theorem lost_of_two :
    let store := ((Storage.setUp 0).on (Provider.tree .empty)).2
    let shell : Shell Provider := ⟨⟨⟨.plain store,"/",0⟩,[],[],true,"",[]⟩,[]⟩
    let agent : Definition := { Definition.standard with name := "bot", memory := .persistent }
    let s := new (Manager.new shell (Mock.model 100) none)
    let events : List (Event Provider) := [.create agent true,.create agent true,.run 1 "a",.remember 0 [],.run 2 "b",
      .remember 1 [],.finish 0 (.completed "one"),.finish 1 (.completed "two")]
    let last := s.after events
    (shell.onFiles (FileSystem.read (Manager.memoryPath "bot"))).1 = .ok none ∧
      (∀ n event, events[n]? = some event → Faithful "bot" (s.moment events n) event) ∧
      last.completed "bot" = 2 ∧ runsOf (last.stored "bot") = 1 := by
  intro store shell agent s events last
  refine ⟨by decide +kernel,?_,by decide +kernel⟩
  exact faithful_cons trivial (faithful_cons trivial (faithful_cons trivial (faithful_cons (faithful_remember (by decide +kernel))
    (faithful_cons trivial (faithful_cons (faithful_remember (by decide +kernel)) (faithful_cons (faithful_finish (by decide +kernel))
      (faithful_cons (faithful_finish (by decide +kernel)) faithful_nil)))))))

/-- In the background, too, both runs begin before the model answers one of them. -/
example :
    let shell : Shell Provider := ⟨⟨⟨.plain ((Storage.setUp 0).on (Provider.tree .empty)).2,"/",0⟩,[],[],true,"",[]⟩,[]⟩
    let agent : Definition := { Definition.standard with name := "bot", memory := .persistent }
    let act : Scheduling Provider Unit := do
      let _ ← Schedule.managing fun _ => Manager.create agent true
      let _ ← Schedule.managing fun _ => Manager.create agent true
      let _ ← Schedule.spawn 1 "a"
      let _ ← Schedule.spawn 2 "b"
      Schedule.sleep 200
    let m := (act.run (Schedule.new (.new shell (Mock.model 100) none))).2.manager
    m.jobs.map Job.state = [.completed, .completed] ∧ runsOf ((Manager.loadMemory "bot").run m).1 = 1 := by
  decide +kernel

end VirtualShell.Agent.System
