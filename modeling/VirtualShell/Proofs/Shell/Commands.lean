import VirtualShell.Proofs.FileSystem.Actions
import VirtualShell.Proofs.Keyed
import VirtualShell.Shell.Basic

/-!
What commands can do to a session. They work on the file system and set variables; only `cd` goes elsewhere, only
`exit` ends the session, and none cleans up or touches the history.
-/
namespace VirtualShell

open FileSystem (Action)

variable {σ α β : Type} [Storage σ]

namespace FileSystem

theorem after_append (fs : FileSystem σ) (events later : List (Timestamp × Action)) :
    fs.after (events ++ later) = (fs.after events).after later := List.foldl_append

/-- What comes of a composed action could have been done by single actions of some kind. -/
def Does (may : Action → Prop) (act : Filing σ α) : Prop :=
  ∀ fs : FileSystem σ, ∃ events, (∀ event ∈ events, may event.2) ∧ (act.on fs).2 = fs.after events

namespace Does
variable {may : Action → Prop} {act : Filing σ α} {next : α → Filing σ β}

theorem pure (x : α) : Does may (Pure.pure x : Filing σ α) := fun _ => ⟨[],by simp,rfl⟩

theorem action (action : Action) (hrun : action.run = discard act) (hmay : may action) : Does may act := by
  refine fun fs => ⟨[(fs.clock,action)],by simpa using hmay,?_⟩
  change (act.on fs).2 = (action.run.on fs).2
  rw [hrun]
  exact (congrArg Prod.snd (Storing.on_map (fun _ => ()) act fs)).symm

theorem bind (h : Does may act) (hnext : ∀ x, Does may (next x)) : Does may (act >>= next) := by
  intro fs
  obtain ⟨events,hevents,hact⟩ := h fs
  cases he : act.on fs with
  | mk result fs' =>
    rw [he] at hact
    obtain rfl : fs' = fs.after events := hact
    cases result with
    | error e => exact ⟨events,hevents,by rw [Storing.on_bind_error he]⟩
    | ok x =>
      obtain ⟨later,hlater,hlast⟩ := hnext x (fs.after events)
      refine ⟨events ++ later,fun event he => (List.mem_append.mp he).elim (hevents event) (hlater event),?_⟩
      rw [Storing.on_bind_ok he, hlast, after_append]

end Does
end FileSystem

/-- The actions on the file system that a command may do. -/
def Command.May (name : String) (action : Action) : Prop :=
  action ≠ .cleanup ∧ (name ≠ "cd" → ∀ path, action ≠ .cd path)

/-- What a command of some name may make of a session. -/
structure Session.Worked (name : String) (s s' : Session σ) : Prop where
  files : ∃ events : List (Timestamp × Action), (∀ event ∈ events, Command.May name event.2) ∧ s'.fs = s.fs.after events
  environ : ∀ key, Keyed.contains key s.environ → Keyed.contains key s'.environ
  history : s'.history = s.history
  running : name ≠ "exit" → s'.running = s.running

namespace Session
variable {name : String} {s s' s'' : Session σ}

theorem Worked.refl (name : String) (s : Session σ) : Worked name s s :=
  ⟨⟨[],by simp,rfl⟩,fun _ h => h,rfl,fun _ => rfl⟩

theorem Worked.trans (h : Worked name s s') (h' : Worked name s' s'') : Worked name s s'' := by
  obtain ⟨events,hevents,hfs⟩ := h.files
  obtain ⟨events',hevents',hfs'⟩ := h'.files
  refine ⟨⟨events ++ events',?_,?_⟩,fun key hk => h'.environ key (h.environ key hk),h'.history.trans h.history,
    fun hne => (h'.running hne).trans (h.running hne)⟩
  · intro event he
    exact (List.mem_append.mp he).elim (hevents event) (hevents' event)
  · rw [hfs', hfs, FileSystem.after_append]

theorem Worked.filed {act : Filing σ α} (h : FileSystem.Does (Command.May name) act) (s : Session σ) :
    Worked name s { s with fs := (act.on s.fs).2 } :=
  ⟨h s.fs,fun _ h => h,rfl,fun _ => rfl⟩

/-- Setting a variable loses none. -/
theorem Worked.assigned (name key value : String) (s : Session σ) :
    Worked name s { s with environ := Keyed.insert key value s.environ } := by
  refine ⟨⟨[],by simp,rfl⟩,fun other h => ?_,rfl,fun _ => rfl⟩
  rw [Keyed.contains, Keyed.find?_insert]
  split
  · rfl
  · exact h

end Session

namespace Running
variable {name : String} {act : Running σ α} {next : α → Running σ β}

omit [Storage σ] in
theorem run_bind (act : Running σ α) (next : α → Running σ β) (s : Session σ) :
    (act >>= next).run.run s = match act.run.run s with
      | (.ok x, s') => (next x).run.run s'
      | (.error e, s') => (.error e, s') := by
  simp only [ExceptT.run_bind, StateT.run_bind]
  rcases act.run.run s with ⟨_ | _, _⟩ <;> rfl

omit [Storage σ] in
theorem run_onFiles (act : Filing σ α) (s : Session σ) : (onFiles act).run.run s =
    ((act.on s.fs).1.mapError .storage,{ s with fs := (act.on s.fs).2 }) := by
  have hattempt : (Running.attempt act).run.run s = (.ok (act.on s.fs).1,{ s with fs := (act.on s.fs).2 }) := rfl
  rw [onFiles, run_bind, hattempt]
  cases (act.on s.fs).1 <;> rfl

/-- The action does only what a command of that name may do. -/
def Works (name : String) (act : Running σ α) : Prop := ∀ s : Session σ, Session.Worked name s (act.run.run s).2

namespace Works

theorem pure (x : α) : Works name (Pure.pure x : Running σ α) := fun s => .refl name s

theorem throw (e : CommandError) : Works name (MonadExcept.throw e : Running σ α) := fun s => .refl name s

theorem fail (reason : String) : Works name (Running.fail reason : Running σ α) := throw _

theorem get : Works name (MonadState.get : Running σ (Session σ)) := fun s => .refl name s

theorem bind (h : Works name act) (hnext : ∀ x, Works name (next x)) : Works name (act >>= next) := by
  intro s
  have hact := h s
  rw [run_bind]
  split
  · rename_i x s' he
    rw [he] at hact
    exact hact.trans (hnext x s')
  · rename_i e s' he
    rwa [he] at hact

theorem ite {p : Prop} [Decidable p] {other : Running σ α} (h : Works name act) (ho : Works name other) :
    Works name (if p then act else other) := by
  split
  · exact h
  · exact ho

/-- What follows a check does so if the check is passed. -/
theorem check {p : Prop} [Decidable p] {reason : String} {rest : PUnit → Running σ β} (h : ∀ u, Works name (rest u)) :
    Works name (if p then Running.fail reason >>= rest else rest ⟨⟩) :=
  .ite ((fail reason).bind h) (h _)

theorem forM {act : α → Running σ PUnit} (h : ∀ x, Works name (act x)) (xs : List α) : Works name (xs.forM act) := by
  induction xs with
  | nil => exact .pure _
  | cons x xs ih => exact (h x).bind fun _ => ih

theorem mapM {act : α → Running σ β} (h : ∀ x, Works name (act x)) (xs : List α) : Works name (xs.mapM act) := by
  induction xs with
  | nil => exact .pure _
  | cons x xs ih =>
    rw [List.mapM_cons]
    exact (h x).bind fun _ => ih.bind fun _ => .pure _

theorem attempt {act : Filing σ α} (action : Action) (hrun : action.run = discard act) (hmay : Command.May name action) :
    Works name (attempt act) := fun s => .filed (.action action hrun hmay) s

theorem onFiles {act : Filing σ α} (action : Action) (hrun : action.run = discard act) (hmay : Command.May name action) :
    Works name (onFiles act) := by
  refine (attempt action hrun hmay).bind fun result => ?_
  cases result with
  | ok x => exact .pure x
  | error e => exact .throw _

theorem setVariable (key value : String) : Works name (σ := σ) (Running.setVariable key value) :=
  fun s => .assigned name key value s

theorem variableOr (key absent : String) : Works name (σ := σ) (Running.variableOr key absent) :=
  .bind .get fun _ => .pure _

end Works
end Running

namespace Arguments
open Running

theorem works_read (name command : String) (allowed : List Char) (arguments : List String) :
    Works name (σ := σ) (read command allowed arguments) := by
  unfold read
  dsimp only
  split
  · exact .fail _
  · exact .pure _

end Arguments

namespace Command
open Running

/-- What neither cleans up nor goes elsewhere every command may do. -/
theorem May.of_quiet {name : String} {action : Action} (h : action ≠ .cleanup ∧ ∀ path, action ≠ .cd path) :
    May name action := ⟨h.1,fun _ => h.2⟩

/-- The directory that `cd` is to go to. -/
def cdTarget : List String → Running σ String
  | [] => variableOr "HOME" "/"
  | [dir] => Pure.pure dir
  | _ => fail "cd: too many arguments"

/-- Goes to a directory, or tells why that cannot be done. -/
def goTo (target : String) : Running σ String := do
  if ← onFiles (FileSystem.cd target) then return ""
  let reason := if ← onFiles (FileSystem.exists_ target) then "Not a directory"
    else "No such file or directory"
  fail s!"cd: {target}: {reason}"

theorem cd_run (arguments : List String) : (cd (σ := σ)).run arguments = cdTarget arguments >>= goTo := by
  match arguments with
  | [] => rfl
  | [dir] => rfl
  | _ :: _ :: _ => rfl

theorem works_cdTarget (name : String) (arguments : List String) : Works name (σ := σ) (cdTarget arguments) := by
  match arguments with
  | [] => exact .variableOr _ _
  | [dir] => exact .pure dir
  | _ :: _ :: _ => exact .fail _

theorem works_whyNot (name target : String) : Works name (σ := σ) (do
    let reason := if ← onFiles (FileSystem.exists_ target) then "Not a directory" else "No such file or directory"
    fail (α := String) s!"cd: {target}: {reason}") :=
  (Works.onFiles (.exists_ target) rfl (.of_quiet (by simp))).bind fun _ => .fail _

theorem works_cd (arguments : List String) : Works "cd" (σ := σ) (cd.run arguments) := by
  rw [cd_run]
  refine (works_cdTarget _ _).bind fun target => ?_
  refine (Works.onFiles (.cd target) rfl ⟨by simp,fun hne => absurd rfl hne⟩).bind fun _ => .ite (.pure _) ?_
  exact works_whyNot _ _

theorem works_pwd (arguments : List String) : Works "pwd" (σ := σ) (pwd.run arguments) := .bind .get fun _ => .pure _

theorem works_longLine (name mode : String) (size : Nat) (entry : String) : Works name (σ := σ) (longLine mode size entry) :=
  (Works.variableOr _ _).bind fun _ => .pure _

theorem works_longEntry (name dir entry : String) : Works name (σ := σ) (longEntry dir entry) := by
  refine (Works.onFiles (.info (Path.join dir entry)) rfl (.of_quiet (by simp))).bind fun found => ?_
  cases found with
  | none => exact works_longLine _ _ _ _
  | some node => exact .ite (works_longLine _ _ _ _) (works_longLine _ _ _ _)

theorem works_ls (arguments : List String) : Works "ls" (σ := σ) (ls.run arguments) := by
  refine (Arguments.works_read _ _ _ _).bind fun parsed => .bind .get fun session => ?_
  let full := session.fs.resolve (parsed.operands.head?.getD ".")
  refine (Works.onFiles (.info full) rfl (.of_quiet (by simp))).bind fun found => ?_
  cases found with
  | none => exact .fail _
  | some node =>
    refine .ite ?_ ?_
    · exact .ite (works_longEntry _ _ _) (.pure _)
    · refine (Works.onFiles (.ls full) rfl (.of_quiet (by simp))).bind fun names => .ite (.pure _) ?_
      refine (Works.mapM (fun name => ?_) _).bind fun _ => .pure _
      exact .ite (works_longLine _ _ _ _) (works_longEntry _ _ _)

theorem works_readSearch (name : String) (search : Search) (arguments : List String) :
    Works name (σ := σ) (readSearch search arguments) := by
  fun_induction readSearch (σ := σ) search arguments with
  | case1 => exact .pure _
  | case2 => exact .fail _
  | case3 _ _ _ ih => exact ih
  | case4 => exact .fail _
  | case5 _ _ _ _ _ _ _ ih => exact ih
  | case6 => exact .fail _

theorem works_find (arguments : List String) : Works "find" (σ := σ) (find.run arguments) := by
  refine (works_readSearch _ _ _).bind fun search => ?_
  have hisDir : Works "find" (σ := σ) (onFiles (FileSystem.isDir (search.start.getD "."))) :=
    .onFiles (.isDir _) rfl (.of_quiet (by simp))
  refine hisDir.bind fun _ => .check fun _ => ?_
  cases hpattern : search.pattern with
  | none => exact (Works.onFiles (.find (search.start.getD ".") true) rfl (.of_quiet (by simp))).bind fun _ => .pure _
  | some pattern =>
    refine (Works.attempt (.search (search.start.getD ".") pattern true) rfl (.of_quiet (by simp))).bind fun result => ?_
    rcases result with e | found
    · cases e <;> exact (Works.throw _).bind fun _ => .pure _
    · exact .pure _

theorem works_mkdir (arguments : List String) : Works "mkdir" (σ := σ) (mkdir.run arguments) := by
  refine (Arguments.works_read _ _ _ _).bind fun parsed => .check fun _ => Works.bind ?_ fun _ => .pure _
  refine .forM (fun dir => .bind ?_ fun _ => .ite (.fail _) (.pure _)) _
  split
  · exact .onFiles (.mkdirAll dir) rfl (.of_quiet (by simp))
  · exact .onFiles (.mkdir dir) rfl (.of_quiet (by simp))

theorem works_touch (arguments : List String) : Works "touch" (σ := σ) (touch.run arguments) := by
  refine .check fun _ => .bind (.forM (fun file => ?_) _) fun _ => .pure _
  exact (Works.onFiles (.touch file) rfl (.of_quiet (by simp))).bind fun _ => .ite (.fail _) (.pure _)

theorem works_removeOne (name : String) (recursive force : Bool) (target : String) :
    Works name (σ := σ) (removeOne recursive force target) := by
  refine (Works.onFiles (.info target) rfl (.of_quiet (by simp))).bind fun found => ?_
  cases found with
  | none => exact .ite (.fail _) (.pure _)
  | some node =>
    refine .check fun _ => .bind ?_ fun _ => .ite (.fail _) (.pure _)
    split
    · exact .onFiles (.rmRecursive target) rfl (.of_quiet (by simp))
    · exact .onFiles (.rm target) rfl (.of_quiet (by simp))

theorem works_rm (arguments : List String) : Works "rm" (σ := σ) (rm.run arguments) :=
  (Arguments.works_read _ _ _ _).bind fun _ => .check fun _ =>
    (Works.forM (works_removeOne _ _ _) _).bind fun _ => .pure _

theorem works_removeDir (name dir : String) : Works name (σ := σ) (removeDir dir) := by
  refine (Works.onFiles (.info dir) rfl (.of_quiet (by simp))).bind fun found => ?_
  cases found with
  | none => exact .pure _
  | some node =>
    refine .ite (.pure _) ((Works.onFiles (.ls dir) rfl (.of_quiet (by simp))).bind fun _ => .ite (.pure _) ?_)
    exact (Works.onFiles (.rmdir dir) rfl (.of_quiet (by simp))).bind fun _ => .ite (.pure _) (.pure _)

theorem works_rmdir (arguments : List String) : Works "rmdir" (σ := σ) (rmdir.run arguments) := by
  refine .check fun _ => .bind (.forM (fun dir => ?_) _) fun _ => .pure _
  refine (works_removeDir _ dir).bind fun trouble => ?_
  cases trouble with
  | none => exact .pure _
  | some reason => exact .fail _

theorem works_sourcesAndTarget (name command : String) (arguments : List String) :
    Works name (σ := σ) (sourcesAndTarget command arguments) := by
  refine (Arguments.works_read _ _ _ _).bind fun parsed => ?_
  cases hlast : parsed.operands.getLast? with
  | none => exact .fail _
  | some target =>
    have hsources (sources : List String) : Works name (σ := σ) (sources.forM fun source => do
        if !(← onFiles (FileSystem.exists_ source)) then
          fail s!"{command}: cannot stat '{source}': No such file or directory") :=
      .forM (fun source =>
        (Works.onFiles (.exists_ source) rfl (.of_quiet (by simp))).bind fun _ => .ite (.fail _) (.pure _)) _
    refine .check fun _ => .ite ?_ ((hsources _).bind fun _ => .pure _)
    refine (Works.onFiles (.isDir target) rfl (.of_quiet (by simp))).bind fun _ => ?_
    exact .check fun _ => (hsources _).bind fun _ => .pure _

theorem works_transfer {name command verb : String} {one : String → String → Filing σ Bool}
    {many : List String → String → Filing σ Bool} (hone : ∀ src dst, Works name (onFiles (one src dst)))
    (hmany : ∀ sources dst, Works name (onFiles (many sources dst))) (arguments : List String) :
    Works name (transfer command verb one many arguments) := by
  refine (works_sourcesAndTarget _ _ _).bind fun (sources,target) => Works.bind ?_ fun _ => .check fun _ => .pure _
  split
  · exact hone _ _
  · exact hmany _ _

theorem works_cp (arguments : List String) : Works "cp" (σ := σ) (cp.run arguments) :=
  works_transfer (fun src dst => .onFiles (.cp src dst) rfl (.of_quiet (by simp)))
    (fun sources dst => .onFiles (.cpMany sources dst) rfl (.of_quiet (by simp))) arguments

theorem works_mv (arguments : List String) : Works "mv" (σ := σ) (mv.run arguments) :=
  works_transfer (fun src dst => .onFiles (.mv src dst) rfl (.of_quiet (by simp)))
    (fun sources dst => .onFiles (.mvMany sources dst) rfl (.of_quiet (by simp))) arguments

theorem works_cat (arguments : List String) : Works "cat" (σ := σ) (cat.run arguments) := by
  refine .check fun _ => .bind (.mapM (fun file => ?_) _) fun _ => .pure _
  refine (Works.onFiles (.read file) rfl (.of_quiet (by simp))).bind fun found => ?_
  cases found with
  | some content => exact .pure content
  | none =>
    exact (Works.onFiles (.isDir file) rfl (.of_quiet (by simp))).bind fun _ => .ite (.fail _) (.fail _)

theorem works_echo (arguments : List String) : Works "echo" (σ := σ) (echo.run arguments) := .pure _

theorem works_env (arguments : List String) : Works "env" (σ := σ) (env.run arguments) := .bind .get fun _ => .pure _

theorem works_setVariables (name : String) (arguments : List String) : Works name (σ := σ) (setVariables arguments) := by
  induction arguments with
  | nil => exact .pure _
  | cons argument rest ih =>
    unfold setVariables
    split
    split
    · exact ih
    · exact .fail _
    · exact (Works.setVariable _ _).bind fun _ => ih

theorem works_export (arguments : List String) : Works "export" (σ := σ) (export_.run arguments) :=
  (works_setVariables _ arguments).bind fun _ => .pure _

theorem works_history (arguments : List String) : Works "history" (σ := σ) (history.run arguments) :=
  .bind .get fun _ => .pure _

theorem works_help (arguments : List String) : Works "help" (σ := σ) (help.run arguments) := by
  refine .bind .get fun session => ?_
  cases arguments with
  | nil => exact .pure _
  | cons topic rest =>
    dsimp only
    split
    · exact .pure _
    · exact .fail _

theorem works_quota (arguments : List String) : Works "quota" (σ := σ) (quota.run arguments) :=
  (Arguments.works_read _ _ _ _).bind fun _ => (Works.onFiles .stats rfl (.of_quiet (by simp))).bind fun _ =>
    .bind .get fun _ => .pure _

theorem works_exit (arguments : List String) : Works "exit" (σ := σ) (exit.run arguments) :=
  fun _ => ⟨⟨[],by simp,rfl⟩,fun _ h => h,rfl,fun hne => absurd rfl hne⟩

/-- Whatever the commands of the shell are given, they do what their names allow. -/
theorem works_builtin {name : String} {command : Command σ} (h : Keyed.find? name Shell.builtin = some command)
    (arguments : List String) : Works name (command.run arguments) := by
  have hall : ∀ command ∈ ([cd,pwd,ls,mkdir,touch,cat,rm,rmdir,cp,mv,find,echo,env,export_,history,help,quota,exit] :
      List (Command σ)), ∀ arguments, Works command.name (command.run arguments) := by
    simp only [List.forall_mem_cons, List.not_mem_nil, IsEmpty.forall_iff, implies_true, and_true]
    exact ⟨works_cd,works_pwd,works_ls,works_mkdir,works_touch,works_cat,works_rm,works_rmdir,works_cp,works_mv,
      works_find,works_echo,works_env,works_export,works_history,works_help,works_quota,works_exit⟩
  obtain ⟨known,hknown,he⟩ := List.mem_map.mp (Keyed.mem_of_mem_ofList (Keyed.mem_of_find? h))
  obtain ⟨rfl,rfl⟩ := Prod.mk.inj he
  exact hall known hknown arguments

end Command
end VirtualShell
