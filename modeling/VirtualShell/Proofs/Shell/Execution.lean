import VirtualShell.Proofs.FileSystem.WorkingDirectory
import VirtualShell.Proofs.Shell.Commands
import VirtualShell.Proofs.Shell.Lines

/-!
What a line does to a session. No more comes of it than of one builtin command, `PWD` set after `cd`, and the output
written to a file; and the working directory changes only when `cd` says so.
-/
namespace VirtualShell

open FileSystem (Action)

variable {σ : Type} [Storage σ]

theorem Session.Worked.cwd {name : String} {s s' : Session σ} (h : Worked name s s') (hne : name ≠ "cd") :
    s'.fs.cwd = s.fs.cwd := by
  obtain ⟨events,hevents,hfs⟩ := h.files
  rw [hfs]
  exact FileSystem.cwd_after events fun event he => (hevents event he).2 hne

namespace Command
open Running

/-- A `cd` that reports no success stays where it was. -/
theorem cwd_of_cd (arguments : List String) (s : Session σ) (h : ∀ output, ((cd.run arguments).run.run s).1 ≠ .ok output) :
    ((cd.run arguments).run.run s).2.fs.cwd = s.fs.cwd := by
  have htarget := (works_cdTarget "pwd" arguments s).cwd (by decide)
  rw [cd_run, run_bind] at h ⊢
  rcases hrun : (cdTarget arguments).run.run s with ⟨e | target, s'⟩
  · rw [hrun] at htarget
    exact htarget
  · rw [hrun] at htarget h
    have hgo := FileSystem.cwd_of_cd s'.fs target
    simp only [goTo, run_bind, run_onFiles] at h ⊢
    rw [← htarget]
    rcases hcd : (FileSystem.cd target).on s'.fs with ⟨e | done, fs⟩
    · rw [hcd] at hgo
      exact hgo (by simp)
    · rw [hcd] at hgo h
      cases done with
      | true => exact absurd rfl (h "")
      | false =>
        exact ((works_whyNot "pwd" target { s' with fs }).cwd (by decide)).trans (hgo (by simp))

end Command

namespace Shell

/-! ### Lines -/

/-- The command that a line runs, with its arguments; none if there is no command or its redirection is refused. -/
def dispatched? (line : String) : Option (String × List String) :=
  (parse (Text.trimmed line)).bind fun (name, arguments) =>
    (splitRedirect arguments).toOption.map fun (arguments, _) => (name, arguments)

/-- The line runs a command of that name. -/
def Runs (name line : String) : Prop := ∃ arguments, dispatched? line = some (name, arguments)

/-- What the command of a line reports, before its output goes to a file. -/
def report? (shell : Shell σ) (line : String) : Option (Except CommandError String) := do
  let (name, arguments) ← dispatched? line
  let command ← Keyed.find? name shell.commands
  let session := { shell.session with history := shell.session.history ++ [Text.trimmed line] }
  return ((command.run arguments).run.run session).1

/-- What the history keeps of some lines. -/
def entries (lines : List String) : List String := (lines.map Text.trimmed).filter fun line => line ≠ ""

/-- The session in which the command of a line runs. -/
def noted (line : String) (shell : Shell σ) : Session σ :=
  { shell.session with history := shell.session.history ++ entries [line] }

/-- What a line may make of a shell. -/
structure Entered (line : String) (shell shell' : Shell σ) : Prop where
  commands : shell'.commands = shell.commands
  history : shell'.session.history = shell.session.history ++ entries [line]
  running : shell'.session.running = false ↔ shell.session.running = false ∨ Runs "exit" line
  environ : ∀ key, Keyed.contains key shell.session.environ → Keyed.contains key shell'.session.environ
  files : ∃ events : List (Timestamp × Action), (∀ event ∈ events, event.2 ≠ .cleanup) ∧
    shell'.session.fs = shell.session.fs.after events
  cwd : shell'.session.fs.cwd ≠ shell.session.fs.cwd → Runs "cd" line ∧ ∃ output, shell.report? line = some (.ok output)
  pwd : Runs "cd" line → shell'.lookUp "PWD" = some shell'.session.fs.cwd

theorem parse_eq_none_iff (line : String) : parse (Text.trimmed line) = none ↔ Text.trimmed line = "" := by
  rw [Text.trimmed_eq_empty_iff, parse, Text.wordsOf_trimmed]
  cases Text.wordsOf line <;> simp

/-- Sending output to a file works on the file system only. -/
theorem redirect_files (name output : String) (aim : Redirect) (s : Session σ) :
    ∃ events : List (Timestamp × Action), (∀ event ∈ events, Command.May "" event.2) ∧
      (redirect name output aim s).2 = { s with fs := s.fs.after events } := by
  have hdoes : FileSystem.Does (Command.May "") (if aim.append then FileSystem.append aim.target (asLines output)
      else FileSystem.write aim.target (asLines output) : Filing σ Bool) := by
    split
    · exact .action (.append aim.target (asLines output)) rfl (.of_quiet (by simp))
    · exact .action (.write aim.target (asLines output)) rfl (.of_quiet (by simp))
  obtain ⟨events,hevents,hfs⟩ := hdoes s.fs
  exact ⟨events,hevents,congrArg (fun fs => { s with fs }) hfs⟩

/-- After a command whose redirection is understood `PWD` may be set, and the output be sent to a file. -/
theorem runCommand_ok (name : String) {command : Command σ} {arguments given : List String} {aim : Option Redirect}
    {s done : Session σ} {result : Except CommandError String} (hsplit : splitRedirect arguments = .ok (given,aim))
    (hrun : (command.run given).run.run s = (result,done)) :
    ∃ events : List (Timestamp × Action), (∀ event ∈ events, Command.May "" event.2) ∧
      (runCommand command name arguments s).2 =
        { (if name == "cd" then syncPwd done else done) with fs := done.fs.after events } := by
  have hfs : (if name == "cd" then syncPwd done else done).fs = done.fs := by split <;> rfl
  simp only [runCommand, hsplit, hrun]
  rcases result with e | output
  · exact ⟨[],by simp,by rw [← hfs]; rfl⟩
  · cases aim with
    | none => exact ⟨[],by simp,by rw [← hfs]; rfl⟩
    | some aim =>
      obtain ⟨events,hevents,hredirect⟩ := redirect_files name output aim (if name == "cd" then syncPwd done else done)
      exact ⟨events,hevents,by rw [← hfs]; exact hredirect⟩

theorem find?_exit : Keyed.find? "exit" (builtin : Keyed (Command σ)) = some .exit := by
  simp [builtin, tableOf, Keyed.ofList, Keyed.find?_insert, Command.exit]

theorem find?_cd : Keyed.find? "cd" (builtin : Keyed (Command σ)) = some .cd := by
  simp [builtin, tableOf, Keyed.ofList, Keyed.find?_insert, Command.cd, Command.pwd, Command.ls, Command.mkdir,
    Command.touch, Command.cat, Command.rm, Command.rmdir, Command.cp, Command.mv, Command.find, Command.echo, Command.env,
    Command.export_, Command.history, Command.help, Command.quota, Command.exit]

/-- A line that runs no command changes nothing but the history. -/
theorem Entered.idle {line : String} {shell shell' : Shell σ} (hexit : ¬Runs "exit" line) (hcd : ¬Runs "cd" line)
    (hcommands : shell'.commands = shell.commands)
    (hsession : shell'.session = { shell.session with history := shell.session.history ++ entries [line] }) :
    Entered line shell shell' := by
  refine ⟨hcommands,by rw [hsession],?_,fun key h => by rwa [hsession],⟨[],by simp,by rw [hsession]; rfl⟩,?_,
    fun h => absurd h hcd⟩
  · rw [hsession]
    simp [hexit]
  · rw [hsession]
    exact fun h => absurd rfl h

theorem runs_iff {line name other : String} {given : List String} (h : dispatched? line = some (name,given)) :
    Runs other line ↔ other = name := by
  simp [Runs, h, eq_comm]

/-- A line that runs a builtin command does what that does. -/
theorem Entered.ran {line name : String} {given : List String} {command : Command σ} {shell shell' : Shell σ}
    {result : Except CommandError String} {done : Session σ} {events : List (Timestamp × Action)}
    (hdispatched : dispatched? line = some (name,given)) (hcommands : shell'.commands = shell.commands)
    (hbuiltin : shell.commands = builtin) (hfound : Keyed.find? name shell.commands = some command)
    (hrun : (command.run given).run.run (shell.noted line) = (result,done)) (hreport : shell.report? line = some result) (hevents : ∀ event ∈ events, Command.May "" event.2)
    (hsession : shell'.session = { (if name == "cd" then syncPwd done else done) with fs := done.fs.after events }) :
    Entered line shell shell' := by
  have hworked := Command.works_builtin (hbuiltin ▸ hfound) given (shell.noted line)
  rw [hrun] at hworked
  have hhistory : shell'.session.history = done.history := by rw [hsession]; split <;> rfl
  have hrunning : shell'.session.running = done.running := by rw [hsession]; split <;> rfl
  have hfiles : shell'.session.fs = done.fs.after events := by rw [hsession]
  have hcwd : (done.fs.after events).cwd = done.fs.cwd :=
    FileSystem.cwd_after events fun event he => (hevents event he).2 (by decide)
  refine ⟨hcommands,hhistory.trans hworked.history,?_,fun key h => ?_,?_,fun hmoved => ?_,fun hcd => ?_⟩
  · rw [hrunning, runs_iff hdispatched]
    by_cases hname : "exit" = name
    · subst hname
      rw [hbuiltin, find?_exit] at hfound
      obtain rfl := Option.some.inj hfound
      exact iff_of_true (congrArg (fun ran => ran.2.running) hrun.symm) (.inr rfl)
    · rw [hworked.running (Ne.symm hname)]
      simp [noted, hname]
  · have hdone := hworked.environ key h
    rw [hsession]
    split
    · rw [Keyed.contains]
      change (Keyed.find? key (Keyed.insert "PWD" done.fs.cwd done.environ)).isSome
      rw [Keyed.find?_insert]
      split
      · rfl
      · exact hdone
    · exact hdone
  · obtain ⟨earlier,hearlier,hdone⟩ := hworked.files
    refine ⟨earlier ++ events,fun event he => ?_,?_⟩
    · exact (List.mem_append.mp he).elim (fun h => (hearlier event h).1) fun h => (hevents event h).1
    · rw [hfiles, hdone, FileSystem.after_append]
      rfl
  · rw [hfiles, hcwd] at hmoved
    by_cases hname : name = "cd"
    · subst hname
      refine ⟨(runs_iff hdispatched).mpr rfl,?_⟩
      rw [hbuiltin, find?_cd] at hfound
      obtain rfl := Option.some.inj hfound
      by_contra hfailed
      refine hmoved ?_
      have hstays := Command.cwd_of_cd given (shell.noted line)
      rw [hrun] at hstays
      refine hstays fun output he => hfailed ⟨output,?_⟩
      rw [hreport, ← he]
    · exact absurd (hworked.cwd hname) hmoved
  · obtain rfl := (runs_iff hdispatched).mp hcd
    rw [lookUp, hfiles, hcwd, hsession]
    exact (Keyed.find?_insert _ _ _ _).trans (if_pos rfl)

theorem parse_exit : parse "exit" = some ("exit",[]) := by
  have hwords : Text.wordsOf "exit" = ["exit"] := by
    rw [Text.wordsOf, Text.words_word (by decide)]
    rfl
  rw [parse, hwords]

omit [Storage σ] in
theorem report?_eq {line name : String} {given : List String} {command : Command σ} {shell : Shell σ}
    (hdispatched : dispatched? line = some (name,given)) (hfound : Keyed.find? name shell.commands = some command)
    (hentries : entries [line] = [Text.trimmed line]) :
    shell.report? line = some ((command.run given).run.run (shell.noted line)).1 := by
  simp only [report?, noted, hdispatched, hfound, Option.bind_eq_bind, Option.bind_some, hentries]
  rfl

theorem dispatched?_eq_none {line name reason : String} {arguments : List String}
    (hparse : parse (Text.trimmed line) = some (name,arguments)) (hsplit : splitRedirect arguments = .error reason) :
    dispatched? line = none := by
  rw [dispatched?, hparse, Option.bind_some]
  simp only [hsplit]
  rfl

theorem dispatched?_eq_some {line name : String} {arguments given : List String} {aim : Option Redirect}
    (hparse : parse (Text.trimmed line) = some (name,arguments)) (hsplit : splitRedirect arguments = .ok (given,aim)) :
    dispatched? line = some (name,given) := by
  rw [dispatched?, hparse, Option.bind_some]
  simp only [hsplit]
  rfl

/-- What is not in the table is not run. -/
theorem not_runs {line name other : String} {arguments : List String} {known : Command σ}
    (hparse : parse (Text.trimmed line) = some (name,arguments)) (hunknown : Keyed.find? name (builtin : Keyed (Command σ)) = none)
    (hknown : Keyed.find? other builtin = some known) : ¬Runs other line := by
  rintro ⟨given,hdispatched⟩
  cases hsplit : splitRedirect arguments with
  | error reason => simp [dispatched?_eq_none hparse hsplit] at hdispatched
  | ok split =>
    rw [dispatched?_eq_some hparse hsplit] at hdispatched
    obtain ⟨rfl,_⟩ := Prod.mk.inj (Option.some.inj hdispatched)
    simp [hunknown] at hknown

/-- The line that ends the session is not looked up, but it comes to what the command in the table does. -/
theorem entered_exit {shell : Shell σ} (hbuiltin : shell.commands = builtin) {line : String} (hline : Text.trimmed line = "exit") :
    Entered line shell { shell with session := { shell.noted line with running := false } } := by
  have hdispatched : dispatched? line = some ("exit",[]) := by
    rw [dispatched?, hline, parse_exit]
    rfl
  have hfound : Keyed.find? "exit" shell.commands = some Command.exit := by rw [hbuiltin, find?_exit]
  have hentries : entries [line] = [Text.trimmed line] := by simp [entries, hline]
  exact .ran hdispatched rfl hbuiltin hfound rfl (report?_eq hdispatched hfound hentries) (List.forall_mem_nil _) rfl

theorem entered_found {shell : Shell σ} (hbuiltin : shell.commands = builtin) {line name : String} {arguments : List String}
    {command : Command σ} (hparse : parse (Text.trimmed line) = some (name,arguments))
    (hfound : Keyed.find? name shell.commands = some command) (hentries : entries [line] = [Text.trimmed line]) :
    Entered line shell { shell with session := (runCommand command name arguments (shell.noted line)).2 } := by
  cases hsplit : splitRedirect arguments with
  | error reason =>
    have hnone := dispatched?_eq_none hparse hsplit
    refine .idle (by simp [Runs, hnone]) (by simp [Runs, hnone]) rfl ?_
    simp only [runCommand, hsplit, noted]
  | ok split =>
    obtain ⟨given,aim⟩ := split
    have hdispatched := dispatched?_eq_some hparse hsplit
    rcases hrun : (command.run given).run.run (shell.noted line) with ⟨result,done⟩
    have hreport := report?_eq hdispatched hfound hentries
    rw [hrun] at hreport
    obtain ⟨events,hevents,hsession⟩ := runCommand_ok name hsplit hrun
    exact .ran hdispatched rfl hbuiltin hfound hrun hreport hevents hsession

/-- Whatever is entered, no more comes of it than of one builtin command. -/
theorem entered {shell : Shell σ} (hbuiltin : shell.commands = builtin) (line : String) :
    Entered line shell (shell.execute line).2 := by
  cases hparse : parse (Text.trimmed line) with
  | none =>
    have hnone : dispatched? line = none := by rw [dispatched?, hparse]; rfl
    have hentries : entries [line] = [] := by simp [entries, (parse_eq_none_iff line).mp hparse]
    have hsame : (shell.execute line).2 = shell := by simp only [execute, hparse]
    rw [hsame]
    exact .idle (by simp [Runs, hnone]) (by simp [Runs, hnone]) rfl (by rw [hentries, List.append_nil])
  | some parsed =>
    obtain ⟨name,arguments⟩ := parsed
    have hentry : Text.trimmed line ≠ "" := fun he => by simp [(parse_eq_none_iff line).mpr he] at hparse
    have hentries : entries [line] = [Text.trimmed line] := by simp [entries, hentry]
    simp only [execute, hparse, ← hentries]
    split
    · rename_i hline
      exact entered_exit hbuiltin (by simpa [hentries] using hline)
    · cases hfound : Keyed.find? name shell.commands with
      | none =>
        rw [hbuiltin] at hfound
        exact .idle (not_runs hparse hfound find?_exit) (not_runs hparse hfound find?_cd) rfl rfl
      | some command => exact entered_found hbuiltin hparse hfound hentries

end Shell
end VirtualShell
