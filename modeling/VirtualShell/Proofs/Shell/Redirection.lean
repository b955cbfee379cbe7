import VirtualShell.Proofs.FileSystem.Overwriting
import VirtualShell.Proofs.Shell.Sessions

/-!
Text that a line sends to a file comes back from there. The shell parts the line into words, takes the redirection out and
adds a line break to what is printed; the file system writes it or leaves everything as it was.
-/
namespace VirtualShell
open Storing Legible

namespace Shell
variable {σ : Type} [Storage σ]

/-- The builtin commands have their names, whatever other commands there are. -/
def HasBuiltins (shell : Shell σ) : Prop :=
  ∀ name command, Keyed.find? name builtin = some command → Keyed.find? name shell.commands = some command

theorem find?_echo : Keyed.find? "echo" (builtin : Keyed (Command σ)) = some .echo := by
  simp [builtin, tableOf, Keyed.ofList, Keyed.find?_insert, Command.echo, Command.env, Command.export_, Command.history,
    Command.help, Command.quota, Command.exit]

theorem find?_cat : Keyed.find? "cat" (builtin : Keyed (Command σ)) = some .cat := by
  simp [builtin, tableOf, Keyed.ofList, Keyed.find?_insert, Command.cat, Command.rm, Command.rmdir, Command.cp, Command.mv,
    Command.find, Command.echo, Command.env, Command.export_, Command.history, Command.help, Command.quota, Command.exit]

/-! ### Lines with a redirection -/

/-- A word that is not taken for a redirection. -/
def IsToken (token : String) : Prop := Text.IsWord token.toList ∧ isArrow token = false

instance (token : String) : Decidable (IsToken token) := inferInstanceAs (Decidable (_ ∧ _))

/-- The sign that sends output to a file, and the file, in one word or in two. -/
def aimed (append attached : Bool) (target : String) : List String :=
  let arrow := if append then ">>" else ">"
  if attached then [arrow ++ target] else [arrow,target]

/-- The lines of a file that some words are printed as. -/
def printed (tokens : List String) : String := if tokens = [] then "" else " ".intercalate tokens ++ "\n"

variable {tokens arguments : List String} {target name line : String} {append attached : Bool}

theorem IsToken.exists_cons (h : IsToken target) : ∃ c rest, target.toList = c :: rest ∧ c ≠ '>' := by
  obtain ⟨⟨hne,_⟩,harrow⟩ := h
  obtain ⟨c,rest,hcons⟩ := List.exists_cons_of_ne_nil hne
  refine ⟨c,rest,hcons,?_⟩
  rintro rfl
  simp [isArrow, hcons] at harrow

theorem isWord_aimed (h : IsToken target) : ∀ word ∈ aimed append attached target, Text.IsWord word.toList := by
  have hcons {c : Char} {word : List Char} (hc : Text.isBlank c = false) (hword : Text.IsWord word) : Text.IsWord (c :: word) :=
    ⟨List.cons_ne_nil _ _,List.forall_mem_cons.mpr ⟨hc,hword.2⟩⟩
  have hsign : Text.IsWord ['>'] := by decide
  have hgreater : Text.isBlank '>' = false := by decide
  cases append <;> cases attached
  · exact List.forall_mem_cons.mpr ⟨hsign,List.forall_mem_singleton.mpr h.1⟩
  · exact List.forall_mem_singleton.mpr (String.toList_append ▸ hcons hgreater h.1)
  · exact List.forall_mem_cons.mpr ⟨hcons hgreater hsign,List.forall_mem_singleton.mpr h.1⟩
  · exact List.forall_mem_singleton.mpr (String.toList_append ▸ hcons hgreater (hcons hgreater h.1))

/-- The first redirection is taken out, and what stands before it is left to the command. -/
theorem splitRedirect_aimed (htokens : ∀ token ∈ tokens, isArrow token = false) (htarget : IsToken target) :
    splitRedirect (tokens ++ aimed append attached target) = .ok (tokens,some ⟨target,append⟩) := by
  obtain ⟨c,rest,hcons,hc⟩ := htarget.exists_cons
  have hbefore : (aimed append attached target).takeWhile (fun argument => !isArrow argument) = [] := by
    cases append <;> cases attached <;> simp [aimed, isArrow]
  have htake : (tokens ++ aimed append attached target).takeWhile (fun argument => !isArrow argument) = tokens := by
    rw [List.takeWhile_append_of_pos fun token htoken => by simp [htokens token htoken], hbefore, List.append_nil]
  have htext : String.ofList (c :: rest) = target := by rw [← hcons, String.ofList_toList]
  rw [splitRedirect, htake, List.drop_left]
  cases append <;> cases attached <;> simp [aimed, hcons, hc, htext, htarget.2]

theorem splitRedirect_plain (h : ∀ argument ∈ arguments, isArrow argument = false) : splitRedirect arguments = .ok (arguments,none) := by
  have htake : arguments.takeWhile (fun argument => !isArrow argument) = arguments :=
    List.takeWhile_eq_self_iff.mpr fun argument hargument => by simp [h argument hargument]
  rw [splitRedirect, htake, List.drop_length]

/-- The last word stands at the end. -/
private theorem intercalate_concat (list : List (List Char)) (word : List Char) :
    ∃ before, [' '].intercalate (list ++ [word]) = before ++ word := by
  induction list with
  | nil => exact ⟨[],List.intercalate_singleton⟩
  | cons first list ih =>
    obtain ⟨before,hbefore⟩ := ih
    obtain ⟨next,others,hnext⟩ := List.exists_cons_of_ne_nil (List.append_ne_nil_of_right_ne_nil list (List.cons_ne_nil word []))
    refine ⟨first ++ [' '] ++ before,?_⟩
    rw [List.cons_append, hnext, List.intercalate_cons_cons, ← hnext, hbefore, List.append_assoc (first ++ [' '])]

/-- Words end in no line break of their own. -/
theorem asLines_intercalate (h : ∀ token ∈ tokens, IsToken token) : asLines (" ".intercalate tokens) = printed tokens := by
  rcases List.eq_nil_or_concat tokens with rfl | ⟨init,last,rfl⟩
  · rfl
  · rw [List.concat_eq_append] at h ⊢
    obtain ⟨⟨hne,hword⟩,_⟩ := h last (by simp)
    obtain ⟨front,c,hlast⟩ := (List.eq_nil_or_concat last.toList).resolve_left hne
    rw [List.concat_eq_append] at hlast
    have hbreak : Text.isBlank '\n' = true := by decide
    have hc : c ≠ '\n' := by
      rintro rfl
      rw [hword '\n' (by simp [hlast])] at hbreak
      cases hbreak
    obtain ⟨before,hbefore⟩ := intercalate_concat (init.map String.toList) last.toList
    have htext : (" ".intercalate (init ++ [last])).toList = before ++ front ++ [c] := by
      rw [String.toList_intercalate, List.map_append, List.map_singleton]
      simpa [hlast] using hbefore
    have hempty : (" ".intercalate (init ++ [last])).isEmpty = false := by
      rw [← Bool.not_eq_true, String.isEmpty_iff, ← String.toList_eq_nil_iff, htext]
      simp
    have hend : ((" ".intercalate (init ++ [last])).toList.getLast? == some '\n') = false := by
      rw [htext, List.getLast?_concat]
      simpa using hc
    have hsome : init ++ [last] ≠ [] := by simp
    rw [printed, if_neg hsome, asLines, hempty, hend]
    rfl

/-! ### Commands on lines -/

/-- A line runs the command of its first word. -/
theorem execute_eq {shell : Shell σ} {command : Command σ} (hwords : Text.wordsOf line = name :: arguments) (hname : name ≠ "exit")
    (hfound : Keyed.find? name shell.commands = some command) :
    let session := { shell.session with history := shell.session.history ++ [Text.trimmed line] }
    shell.execute line = ((runCommand command name arguments session).1,
      { shell with session := (runCommand command name arguments session).2 }) := by
  have hexit : (Text.trimmed line == "exit") = false := by
    rw [← Bool.not_eq_true, beq_iff_eq]
    intro hline
    have hword : Text.wordsOf "exit" = ["exit"] := by decide +kernel
    have hsame := congrArg Text.wordsOf hline
    rw [Text.wordsOf_trimmed, hwords, hword] at hsame
    exact hname (List.cons.inj hsame).1
  have hparse : parse (Text.trimmed line) = some (name,arguments) := by rw [parse, Text.wordsOf_trimmed, hwords]
  intro session
  rw [execute]
  simp only [hparse, hexit, hfound, Bool.false_eq_true, if_false]
  rfl

/-- How a redirection writes to its file. -/
def put (append : Bool) (target content : String) : Filing σ Bool :=
  if append then FileSystem.append target content else FileSystem.write target content

theorem redirect_eq (name output target : String) (append : Bool) (session : Session σ) :
    let outcome := (put append target (asLines output)).on session.fs
    (redirect name output ⟨target,append⟩ session).2 = { session with fs := outcome.2 } ∧
      ((redirect name output ⟨target,append⟩ session).1 = "" ↔ outcome.1 = .ok true) := by
  have hlong {text more : String} (h : text ≠ "" ∨ more ≠ "") : text ++ more ≠ "" := by
    rw [ne_eq, String.append_eq_empty_iff]
    exact fun hboth => h.elim (fun hne => hne hboth.1) fun hne => hne hboth.2
  have hrun : (if append then FileSystem.append target (asLines output) else FileSystem.write target (asLines output) :
    Filing σ Bool).run.run session.fs = (put append target (asLines output)).on session.fs := rfl
  unfold redirect
  dsimp only
  rw [hrun]
  obtain ⟨e | _ | _,files⟩ := (put append target (asLines output)).on session.fs
  · exact ⟨rfl,fun h => absurd h (hlong (.inl (by decide))),nofun⟩
  · exact ⟨rfl,fun h => absurd h (hlong (.inr (by decide))),nofun⟩
  · exact ⟨rfl,fun _ => rfl,fun _ => rfl⟩

/-- A file that is there is printed as it is. -/
theorem run_cat {session : Session σ} {content : String} {fs : FileSystem σ}
    (h : (FileSystem.read target).on session.fs = (.ok (some content),fs)) :
    (Command.cat.run [target]).run.run session = (.ok content,{ session with fs }) := by
  have hfile : (Running.onFiles (FileSystem.read target)).run.run session = (.ok (some content),{ session with fs }) := by
    rw [Running.run_onFiles, h]
    rfl
  have hjoin : String.join [content] = content := by simp [String.join]
  simp only [Command.cat, List.isEmpty_cons, Bool.false_eq_true, if_false, List.mapM_cons, List.mapM_nil, Running.run_bind, hfile]
  exact congrArg (fun text => (Except.ok text,{ session with fs })) hjoin

section
variable {shell : Shell Provider}

/-- What is written to a file is settled by the write that the redirection makes. -/
theorem put_yields (append : Bool) (target content : String) {fs : FileSystem Provider} (hs : Intact fs) :
    (put append target content).Yields fs (FileSystem.Written fs target
      ((if append then ((shown fs).content? (Path.segments (fs.resolve target))).getD "" else "") ++ content)) := by
  cases append with
  | true => exact FileSystem.append_written id hs target content
  | false =>
    rw [if_neg Bool.false_ne_true, String.empty_append]
    exact FileSystem.write_written id hs target content

/-- The words go to the file, and the answer tells whether they could. -/
theorem execute_redirected (hbuiltin : shell.HasBuiltins) (htokens : ∀ token ∈ tokens, IsToken token) (htarget : IsToken target)
    (hline : Text.wordsOf line = "echo" :: (tokens ++ aimed append attached target)) :
    let outcome := (put append target (printed tokens)).on shell.session.fs
    ((shell.execute line).1 = "" ↔ outcome.1 = .ok true) ∧ (shell.execute line).2.session.fs = outcome.2 := by
  have hsplit : splitRedirect (tokens ++ aimed append attached target) = .ok (tokens,some ⟨target,append⟩) :=
    splitRedirect_aimed (fun token htoken => (htokens token htoken).2) htarget
  rw [execute_eq hline (by decide) (hbuiltin _ _ find?_echo)]
  let session := { shell.session with history := shell.session.history ++ [Text.trimmed line] }
  have hrun : runCommand .echo "echo" (tokens ++ aimed append attached target) session =
      redirect "echo" (" ".intercalate tokens) ⟨target,append⟩ session := by
    rw [runCommand, hsplit]
    rfl
  obtain ⟨hsession,hshown⟩ := redirect_eq "echo" (" ".intercalate tokens) target append session
  rw [asLines_intercalate htokens, ← hrun] at hsession hshown
  exact ⟨hshown,congrArg Session.fs hsession⟩

/-- A file that can be read is what `cat` answers. -/
theorem execute_cat (hbuiltin : shell.HasBuiltins) (htarget : IsToken target) {content : String} {fs : FileSystem Provider}
    (h : (FileSystem.read target).on shell.session.fs = (.ok (some content),fs)) : (shell.execute ("cat " ++ target)).1 = content := by
  have hwords : Text.wordsOf ("cat " ++ target) = ["cat",target] := by
    have hboth : ∀ word ∈ ["cat",target], Text.IsWord word.toList :=
      List.forall_mem_cons.mpr ⟨by decide,List.forall_mem_singleton.mpr htarget.1⟩
    exact Text.wordsOf_intercalate hboth
  rw [execute_eq hwords (by decide) (hbuiltin _ _ find?_cat)]
  let session := { shell.session with history := shell.session.history ++ [Text.trimmed ("cat " ++ target)] }
  have hread : (Command.cat.run [target]).run.run session = (.ok content,{ session with fs }) := run_cat h
  change (runCommand .cat "cat" [target] session).1 = content
  rw [runCommand, splitRedirect_plain (List.forall_mem_singleton.mpr htarget.2)]
  simp only [hread]

/--
Redirected text comes back. A line of words that sends what `echo` prints to a file answers with the empty text exactly when
the file could be written, and then `cat` answers with the words and a line break, after what the file held before if it was
added to; otherwise no reader finds anything changed.
-/
theorem redirected_text_comes_back (hbuiltin : shell.HasBuiltins)
    (hreached : FileSystem.Reached Provider.Ready shell.session.fs) (htokens : ∀ token ∈ tokens, IsToken token)
    (htarget : IsToken target) (append attached : Bool) :
    let fs := shell.session.fs
    let words := "echo" :: (tokens ++ aimed append attached target)
    Text.wordsOf (" ".intercalate words) = words ∧ ∀ line, Text.wordsOf line = words →
      let shown := (shell.execute line).1
      let shell' := (shell.execute line).2
      let outcome := (put append target (printed tokens)).on fs
      (shown = "" ↔ outcome.1 = .ok true) ∧ shell'.session.fs = outcome.2 ∧
        ∃ old, ((FileSystem.read target).on fs).1 = .ok old ∧
          (shown = "" → (shell'.execute ("cat " ++ target)).1 = (if append then old.getD "" else "") ++ printed tokens) ∧
          (shown ≠ "" → ∀ path, shell'.session.fs.sight path = fs.sight path) := by
  intro fs words
  have hs : Intact fs := hreached.intact
  refine ⟨Text.wordsOf_intercalate ?_,fun line hline => ?_⟩
  · refine List.forall_mem_cons.mpr ⟨by decide,fun word hword => ?_⟩
    exact (List.mem_append.mp hword).elim (fun h => (htokens word h).1) (isWord_aimed htarget word)
  intro shown shell' outcome
  obtain ⟨hshown,hfiles⟩ := execute_redirected hbuiltin htokens htarget hline
  obtain ⟨old,t,hread,-,hold⟩ := FileSystem.read_content id hs target
  obtain ⟨done,after,hput,hwritten⟩ := put_yields append target (printed tokens) hs
  have hdone : shown = "" ↔ done = true := by
    rw [hshown, hput, Except.ok.injEq]
  have hafter : shell'.session.fs = after := hfiles.trans (congrArg Prod.snd hput)
  refine ⟨hshown,hfiles,old,congrArg Prod.fst hread,fun hempty => ?_,fun hfull path => ?_⟩
  · obtain ⟨content,u,hagain,-,hcontent⟩ := FileSystem.read_content id hwritten.intact target
    have hresolve : after.resolve target = fs.resolve target :=
      congrArg (fun cwd => Path.resolve cwd target) (congrArg Setting.cwd hwritten.setting_eq)
    rw [hresolve, hwritten.content_eq (hdone.mp hempty), ← hold] at hcontent
    subst hcontent
    have hcommands : shell'.HasBuiltins := by
      rw [HasBuiltins, execute_commands]
      exact hbuiltin
    exact execute_cat hcommands htarget (hafter ▸ hagain)
  · rw [hafter]
    exact (hwritten.kept (eq_false_of_ne_true fun h => hfull (hdone.mpr h))).elsewhere path (Set.notMem_empty _)

/-- Under a policy that a configuration states, words are added to a file in the home directory. -/
theorem redirected_text_comes_back_to_notes :
    let registry := Registry.builtin fun name => .ok ⟨name,false,none⟩
    let config : Config := { Config.standard with security := some ⟨.testing,.none⟩ }
    ∃ opened, ofConfig registry 0 config = .ok opened ∧
      let shell := opened.after ["echo milk > notes"]
      let shell' := (shell.execute "  echo bread and\tjam >>notes").2
      (shell.execute "  echo bread and\tjam >>notes").1 = "" ∧ (shell'.execute "cat notes").1 = "milk\nbread and jam\n" := by
  intro registry config
  have hready : registry.IsReady := Registry.isReady_builtin fun name table h => Except.ok.inj h ▸ .table name
  have hruns : (ofConfig registry 0 config).toOption.map (fun opened =>
      let shell := opened.after ["echo milk > notes"]
      ((shell.execute "  echo bread and\tjam >>notes").1,((FileSystem.read "notes").on shell.session.fs).1.toOption)) =
      some ("",some (some "milk\n")) := by decide +kernel
  cases hopened : ofConfig registry 0 config with
  | error e => simp [hopened, Except.toOption] at hruns
  | ok opened =>
    rw [hopened] at hruns
    obtain ⟨hempty,hread⟩ := Prod.mk.inj (Option.some.inj hruns)
    have hholds := (Opened.configured hready hopened).holds.after ["echo milk > notes"]
    have hbuiltin : (opened.after ["echo milk > notes"]).HasBuiltins := by
      rw [HasBuiltins, hholds.commands]
      exact fun name command h => h
    have htokens : ∀ token ∈ ["bread","and","jam"], IsToken token := by decide
    obtain ⟨-,hcomes⟩ := redirected_text_comes_back hbuiltin hholds.reached htokens (by decide : IsToken "notes") true true
    obtain ⟨-,-,old,hold,hcat,-⟩ := hcomes "  echo bread and\tjam >>notes" (by decide +kernel)
    refine ⟨opened,rfl,hempty,(hcat hempty).trans ?_⟩
    rw [hold] at hread
    obtain rfl := Option.some.inj hread
    decide +kernel

end

end Shell
end VirtualShell
