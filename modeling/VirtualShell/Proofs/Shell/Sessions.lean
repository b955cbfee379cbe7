import VirtualShell.Proofs.Shell.Execution

/-!
Sessions of the shell over a store that does not fail, from their opening on. Whatever is entered, the history tells it,
variables stay set, and the working directory is one that exists.
-/
namespace VirtualShell

open Storing Viewed
open FileSystem (Action)

/-- What answers goes on with an answer. -/
theorem ok_of_bind {ε α β : Type} {act : Except ε α} {next : α → Except ε β} {b : β} (h : act >>= next = .ok b) :
    ∃ a, act = .ok a ∧ next a = .ok b := by
  cases act with
  | error e => cases h
  | ok a => exact ⟨a,rfl,h⟩

theorem ok_of_map {ε α β : Type} {act : Except ε α} {f : α → β} {b : β} (h : act.map f = .ok b) :
    ∃ a, act = .ok a ∧ f a = b := by
  cases act with
  | error e => cases h
  | ok a => exact ⟨a,rfl,Except.ok.inj h⟩

namespace Registry

/-- The registry makes stores of which no call fails. -/
def IsReady (registry : Registry) : Prop :=
  ∀ name constructor args store, Keyed.find? name registry.constructors = some constructor →
    constructor args = .ok store → store.Ready

/-- The stores of the usual names do not fail if the databases do not. -/
theorem isReady_builtin {databases : Databases} (h : ∀ name table, databases name = .ok table → Provider.Ready (.table table)) :
    (builtin databases).IsReady := by
  intro name constructor args store hfound hstore
  simp only [builtin, register, empty, Keyed.find?_insert] at hfound
  split at hfound
  · obtain rfl := Option.some.inj hfound
    obtain ⟨bucket,_,hstore⟩ := ok_of_bind hstore
    obtain ⟨keyPrefix,_,hstore⟩ := ok_of_bind hstore
    exact Except.ok.inj hstore ▸ .objects bucket keyPrefix
  · split at hfound
    · obtain rfl := Option.some.inj hfound
      obtain ⟨file,_,hstore⟩ := ok_of_bind hstore
      obtain ⟨table,htable,hstore⟩ := ok_of_bind hstore
      exact Except.ok.inj hstore ▸ h file table htable
    · split at hfound
      · obtain rfl := Option.some.inj hfound
        exact Except.ok.inj hstore ▸ .tree
      · cases hfound

/-- A store made by such a registry can be used. -/
theorem IsReady.create {registry : Registry} (h : registry.IsReady) {now : Timestamp} {name : String} {args : ProviderArgs}
    {store : Provider} (hcreate : registry.create now name args = .ok store) : store.Ready := by
  unfold Registry.create at hcreate
  split at hcreate
  · cases hcreate
  · rename_i constructor hfound
    obtain ⟨made,hmade,hcreate⟩ := ok_of_bind hcreate
    obtain ⟨_,_,hcreate⟩ := ok_of_bind hcreate
    obtain rfl := Except.ok.inj hcreate
    exact .used ((h name constructor args made hfound hmade).sound_setUp now)

end Registry

namespace Shell
variable {σ : Type} [Storage σ]

theorem does_ensureHome (name home : String) : FileSystem.Does (σ := σ) (Command.May name) (ensureHome home) := by
  refine (FileSystem.Does.action (.info home) rfl (.of_quiet (by simp))).bind fun found => ?_
  cases found with
  | none => exact (FileSystem.Does.action (.mkdirAll home) rfl (.of_quiet (by simp))).bind fun _ => .pure _
  | some node => exact .pure _

/-- The session of a shell that is being opened. -/
def bare (fs : FileSystem σ) (commands : Keyed (Command σ)) : Session σ :=
  ⟨fs,defaultEnvironment fs.cwd,[],true,Config.defaultHostname,commands.map fun (name, command) => (name, command.usage)⟩

theorem open_worked {fs : FileSystem σ} {commands : Keyed (Command σ)} {shell : Shell σ} (h : open_ fs commands = .ok shell) :
    shell.commands = commands ∧ (bare fs commands).Worked "cd" shell.session := by
  have hopen : ((onFiles (ensureHome Config.defaultHome) ⟨bare fs commands,commands⟩).1.map fun _ =>
    (onFiles (ensureHome Config.defaultHome) ⟨bare fs commands,commands⟩).2) = .ok shell := h
  obtain ⟨_,_,rfl⟩ := ok_of_map hopen
  exact ⟨rfl,.filed (does_ensureHome "cd" Config.defaultHome) (bare fs commands)⟩

theorem enterHome_worked {home : String} {shell shell' : Shell σ} (h : enterHome home shell = .ok shell') :
    shell'.commands = shell.commands ∧ shell.session.Worked "cd" shell'.session := by
  let act : Filing σ Bool := do
    ensureHome home
    FileSystem.cd home
  have hdoes : FileSystem.Does (Command.May "cd") act :=
    (does_ensureHome "cd" home).bind fun _ => .action (.cd home) rfl ⟨by simp,fun hne => absurd rfl hne⟩
  have henter : ((shell.onFiles act).1.map fun entered => if entered then
      { (shell.onFiles act).2 with session := syncPwd (shell.onFiles act).2.session } else (shell.onFiles act).2) =
    .ok shell' := h
  obtain ⟨entered,_,rfl⟩ := ok_of_map henter
  have hworked := Session.Worked.filed hdoes shell.session
  cases entered with
  | true => exact ⟨rfl,hworked.trans (.assigned "cd" "PWD" _ _)⟩
  | false => exact ⟨rfl,hworked⟩

/-- Variables are set one after the other. -/
theorem assign_worked (assigned : List (String × String)) (shell : Shell σ) :
    let shell' := assigned.foldl (fun shell (name, value) => shell.assign name value) shell
    shell'.commands = shell.commands ∧ shell.session.Worked "cd" shell'.session := by
  induction assigned generalizing shell with
  | nil => exact ⟨rfl,.refl _ _⟩
  | cons pair assigned ih =>
    obtain ⟨hcommands,hworked⟩ := ih (shell.assign pair.1 pair.2)
    exact ⟨hcommands,.trans (.assigned "cd" pair.1 pair.2 shell.session) hworked⟩

end Shell

/-! ### Opening -/

namespace FileSystem

/-- A file system over a store that does not fail, which stands at its root as one does that was just opened. -/
def Fresh (fs : FileSystem Provider) : Prop := Reached Provider.Ready fs ∧ fs.cwd = "/"

theorem Fresh.opened {now : Timestamp} {store : Provider} {fs : FileSystem Provider} (hstore : store.Ready)
    (h : open_ now store = .ok fs) : Fresh fs := ⟨.opened hstore h,cwd_of_open h⟩

theorem Fresh.policed {fs : FileSystem Provider} (h : Fresh fs) (policy : Policy) : Fresh ((applyPolicy policy).on fs).2 :=
  ⟨h.1.policed policy,(cwd_applyPolicy policy fs).trans h.2⟩

end FileSystem

namespace Shell
variable {σ : Type}

/-- The file system of a configuration is fresh. -/
theorem fresh_configuredFiles {registry : Registry} (hregistry : registry.IsReady) {now : Timestamp} {config : Config}
    {fs : FileSystem Provider} (h : configuredFiles registry now config = .ok fs) : fs.Fresh := by
  unfold configuredFiles at h
  obtain ⟨store,hstore,h⟩ := ok_of_bind h
  obtain ⟨opened,hopen,h⟩ := ok_of_bind h
  have hfresh := FileSystem.Fresh.opened (hregistry.create hstore) hopen
  split at h
  · exact Except.ok.inj h ▸ hfresh
  · rename_i security _
    obtain ⟨_,_,rfl⟩ := ok_of_map h
    exact hfresh.policed security.policy

/-- The shells with the builtin commands that a session begins with. -/
inductive Opened : Shell Provider → Prop
  | fresh {fs : FileSystem Provider} {shell : Shell Provider} : fs.Fresh → open_ fs builtin = .ok shell → Opened shell
  | configured {registry : Registry} {now : Timestamp} {config : Config} {shell : Shell Provider} : registry.IsReady →
      ofConfig registry now config = .ok shell → Opened shell

/-- The variables that are always set. -/
def standardNames : List String := ["HOME","PATH","USER","SHELL","PWD","TERM"]

/-- What holds of a shell after some lines. -/
structure Holds (lines : List String) (shell : Shell Provider) : Prop where
  commands : shell.commands = builtin
  history : shell.session.history = entries lines
  running : shell.session.running = false ↔ ∃ line ∈ lines, Runs "exit" line
  standard : ∀ name ∈ standardNames, (shell.lookUp name).isSome
  reached : FileSystem.Reached Provider.Ready shell.session.fs
  stands : FileSystem.Standing shell.session.fs.cwd shell.session.fs.mount.store

private theorem sound_setUp (now : Timestamp) (store : Provider) (h : store.Ready) : Sound ((Storage.setUp now).on store).2 :=
  h.sound_setUp now

/-- Whatever is done but cleaning up spares the working directory. -/
private theorem standing_events {fs : FileSystem Provider} (hreached : FileSystem.Reached Provider.Ready fs)
    (hstands : FileSystem.Standing fs.cwd fs.mount.store) {events : List (Timestamp × Action)}
    (hevents : ∀ event ∈ events, event.2 ≠ .cleanup) :
    FileSystem.Standing (fs.after events).cwd (fs.after events).mount.store :=
  FileSystem.standing_after hreached sound_setUp hstands events fun earlier now later he =>
    absurd rfl (hevents (now,.cleanup) (by simp [he]))

theorem standard_bare (fs : FileSystem σ) (commands : Keyed (Command σ)) :
    ∀ name ∈ standardNames, Keyed.contains name (bare fs commands).environ := by
  simp [standardNames, bare, defaultEnvironment, Keyed.ofList, Keyed.contains, Keyed.find?_insert]

/-- Working on the session of a shell that is being opened begins one in which all holds. -/
theorem holds_of_worked {fs : FileSystem Provider} (hfresh : fs.Fresh) {shell : Shell Provider}
    (hcommands : shell.commands = builtin) (hworked : (bare fs builtin).Worked "cd" shell.session) : Holds [] shell := by
  obtain ⟨events,hevents,hfs⟩ := hworked.files
  have hstands : FileSystem.Standing fs.cwd fs.mount.store := by
    refine (FileSystem.cwd_of_reached hfresh.1 sound_setUp).2.resolve_right ?_
    rintro ⟨more,_,hmore⟩
    rw [hfresh.2, Path.segments_root] at hmore
    cases hmore
  refine ⟨hcommands,hworked.history,?_,fun name hname => hworked.environ name (standard_bare _ _ name hname),?_,?_⟩
  · rw [hworked.running (by decide)]
    simp [bare]
  · rw [hfs]
    exact hfresh.1.after
  · rw [hfs]
    exact standing_events hfresh.1 hstands fun event he => (hevents event he).1

theorem Opened.holds {shell : Shell Provider} (h : Opened shell) : Holds [] shell := by
  cases h with
  | fresh hfresh hopen =>
    obtain ⟨hcommands,hworked⟩ := open_worked hopen
    exact holds_of_worked hfresh hcommands hworked
  | @configured registry now config shell hregistry hconfigured =>
    obtain ⟨fs,hfs,hconfigured⟩ := ok_of_bind hconfigured
    obtain ⟨opened,hopen,henter⟩ := ok_of_bind hconfigured
    obtain ⟨hcommands,hworked⟩ := open_worked hopen
    let named : Shell Provider := { opened with session := { opened.session with hostname := config.hostname } }
    have hnamed : (bare fs builtin).Worked "cd" named.session :=
      ⟨hworked.files,hworked.environ,hworked.history,hworked.running⟩
    let home := named.session.fs.resolve config.home
    obtain ⟨hassigned,hset⟩ := assign_worked (("HOME",home) :: config.environment) named
    obtain ⟨hentered,hhome⟩ := enterHome_worked henter
    exact holds_of_worked (fresh_configuredFiles hregistry hfs) (hentered.trans (hassigned.trans hcommands))
      ((hnamed.trans hset).trans hhome)

theorem Holds.execute {lines : List String} {shell : Shell Provider} (h : Holds lines shell) (line : String) :
    Holds (lines ++ [line]) (shell.execute line).2 := by
  have hentered := entered h.commands line
  obtain ⟨events,hevents,hfs⟩ := hentered.files
  refine ⟨hentered.commands.trans h.commands,?_,?_,fun name hname => hentered.environ name (h.standard name hname),?_,?_⟩
  · rw [hentered.history, h.history, entries, entries, entries, List.map_append, List.filter_append]
  · rw [hentered.running, h.running]
    simp [or_and_right, exists_or]
  · rw [hfs]
    exact h.reached.after
  · rw [hfs]
    exact standing_events h.reached h.stands hevents

theorem Holds.after {lines : List String} {shell : Shell Provider} (h : Holds lines shell) (more : List String) :
    Holds (lines ++ more) (shell.after more) := by
  induction more generalizing lines shell with
  | nil => rwa [List.append_nil]
  | cons line more ih =>
    have hrest := ih (h.execute line)
    rwa [List.append_assoc] at hrest

/--
After whatever lines, the history is those lines trimmed, without blank ones; the session runs unless one of the lines
was an `exit` with a redirection that is understood; the standard variables are set, and the working directory is a
directory. No further line takes a variable away, and the working directory changes only where a line runs a `cd` that
reports success; after a line that runs `cd`, `PWD` is the working directory.
-/
theorem session_holds {shell : Shell Provider} (h : Opened shell) (lines : List String) :
    let s := shell.after lines
    s.session.history = entries lines ∧ (s.session.running = false ↔ ∃ line ∈ lines, Runs "exit" line) ∧
    (∀ name ∈ standardNames, (s.lookUp name).isSome) ∧ s.session.fs.Stands ∧
    ∀ line, let s' := (s.execute line).2
      (∀ name, (s.lookUp name).isSome → (s'.lookUp name).isSome) ∧
      (s'.session.fs.cwd ≠ s.session.fs.cwd → Runs "cd" line ∧ ∃ output, s.report? line = some (.ok output)) ∧
      (Runs "cd" line → s'.lookUp "PWD" = some s'.session.fs.cwd) := by
  intro s
  have hs : Holds lines s := h.holds.after lines
  refine ⟨hs.history,hs.running,hs.standard,(FileSystem.stands_iff hs.stands.1).mpr hs.stands,fun line => ?_⟩
  have hentered := entered hs.commands line
  exact ⟨hentered.environ,hentered.cwd,hentered.pwd⟩

/-- A session under a policy that goes to a directory, tries to remove and to move it, and leaves in the end. -/
theorem session_leaves :
    let registry := Registry.builtin fun name => .ok ⟨name,false,none⟩
    let config : Config := { Config.standard with
      environment := [("LANG","C")], security := some ⟨.testing,.none⟩ }
    let lines := ["mkdir -p /tmp/a/b","  ","cd /tmp/a/b > /tmp/log","rm -r /tmp/a","mv /tmp /home","exit >"," exit > bye "]
    ∃ shell, ofConfig registry 0 config = .ok shell ∧ Opened shell ∧
      let s := shell.after lines
      s.session.history = entries lines ∧ s.session.running = false ∧ s.session.fs.cwd = "/tmp/a/b" ∧ s.session.fs.Stands := by
  intro registry config lines
  have hready : registry.IsReady := Registry.isReady_builtin fun name table h => Except.ok.inj h ▸ .table name
  have hcwd : (ofConfig registry 0 config).toOption.map (fun shell => (shell.after lines).session.fs.cwd) =
      some "/tmp/a/b" := by decide +kernel
  cases hshell : ofConfig registry 0 config with
  | error e => simp [hshell, Except.toOption] at hcwd
  | ok shell =>
    have hopened : Opened shell := .configured hready hshell
    obtain ⟨hhistory,hrunning,-,hstands,-⟩ := session_holds hopened lines
    refine ⟨shell,rfl,hopened,hhistory,hrunning.mpr ?_,by simpa [hshell, Except.toOption] using hcwd,hstands⟩
    exact ⟨" exit > bye ",by simp [lines],[],by decide +kernel⟩

end Shell
end VirtualShell
