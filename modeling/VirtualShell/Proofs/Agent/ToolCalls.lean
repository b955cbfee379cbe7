import VirtualShell.Agent.Schedule
import VirtualShell.Proofs.Keyed
import VirtualShell.Proofs.Shell.Lines

/-!
What the tool calls of an answer do on the shell. They run one after the other, each as a line whose command is the
tool, and a call of what is no command runs nothing. The tools that an agent was given are not looked at, so it is up
to the answer whether it keeps to them.
-/
namespace VirtualShell.Agent

/-- A call that stands in a text. -/
def Piece.call? : Piece → Option ToolCall
  | char _ => none
  | .call made => some made

/-- The calls in a text, in order. -/
def callsIn (text : String) : List ToolCall := (pieces text).filterMap Piece.call?

/-- A call as a line of a shell. -/
def ToolCall.line (call : ToolCall) : String := call.name ++ " " ++ call.arguments

/-- The tools with one more, if its name is a command that is not among them. -/
private def Tool.offer (usage : Keyed String) (tools : List Tool) (name : String) : List Tool :=
  if tools.any fun tool => tool.name == name then tools
  else match Keyed.find? name usage with
    | some text => tools ++ [ofCommand name text]
    | none => tools

private theorem Tool.mem_offer {usage : Keyed String} {tools : List Tool} {first name : String} :
    name ∈ (offer usage tools first).map Tool.name ↔
      name ∈ tools.map Tool.name ∨ name = first ∧ Keyed.contains name usage := by
  rw [offer]
  split
  · rename_i hany
    obtain ⟨tool,htool,hname⟩ := List.any_eq_true.mp hany
    have hfirst : first ∈ tools.map Tool.name := List.mem_map.mpr ⟨tool,htool,by simpa using hname⟩
    grind
  · split <;> grind [Keyed.contains, ofCommand]

/-- The names in a manifest are those asked for that are commands. -/
theorem Tool.mem_manifest {usage : Keyed String} {requested : List String} {name : String} :
    name ∈ (manifest usage requested).map Tool.name ↔ name ∈ requested ∧ Keyed.contains name usage := by
  have hfold (tools : List Tool) : name ∈ (requested.foldl (offer usage) tools).map Tool.name ↔
      name ∈ tools.map Tool.name ∨ name ∈ requested ∧ Keyed.contains name usage := by
    induction requested generalizing tools with
    | nil => simp
    | cons first requested ih =>
      rw [List.foldl_cons, ih, mem_offer]
      grind
  exact (hfold []).trans (by simp)

variable {σ : Type} [Storage σ]

/-- A call of a command runs its line, and any other call nothing. -/
theorem run_runOnShell (call : ToolCall) (shell : Shell σ) : ((runOnShell call).run shell).2 =
    if Keyed.contains call.name shell.commands then (shell.execute call.line).2 else shell := by
  simp only [runOnShell, StateT.run_bind, StateT.run_get, pure_bind]
  split <;> rfl

namespace Manager

/-- The lines that some calls come to, of which only those with a command are run; none without access to the shell. -/
def linesOf (m : Manager σ) (calls : List ToolCall) : List String :=
  if m.poisoned then [] else (calls.filter fun call => Keyed.contains call.name m.shell.commands).map ToolCall.line

/-- A manager whose shell has run some lines. -/
def afterLines (m : Manager σ) (lines : List String) : Manager σ := { m with shell := m.shell.after lines }

omit [Storage σ] in
theorem linesOf_cons (m : Manager σ) (call : ToolCall) (calls : List ToolCall) :
    m.linesOf (call :: calls) = m.linesOf [call] ++ m.linesOf calls := by
  unfold linesOf
  split
  · rfl
  · by_cases h : Keyed.contains call.name m.shell.commands <;> simp [h]

theorem afterLines_append (m : Manager σ) (before lines : List String) :
    m.afterLines (before ++ lines) = (m.afterLines before).afterLines lines := by
  simp only [afterLines, Shell.after_append]

theorem linesOf_afterLines (m : Manager σ) (lines : List String) : (m.afterLines lines).linesOf = m.linesOf := by
  funext calls
  simp only [linesOf, afterLines, Shell.after_commands]

omit [Storage σ] in
theorem mem_linesOf {m : Manager σ} {calls : List ToolCall} {line : String} (h : line ∈ m.linesOf calls) :
    ∃ call ∈ calls, Keyed.contains call.name m.shell.commands ∧ call.line = line := by
  unfold linesOf at h
  split at h
  · cases h
  · obtain ⟨call,hcall,hline⟩ := List.mem_map.mp h
    obtain ⟨hmem,hknown⟩ := List.mem_filter.mp hcall
    exact ⟨call,hmem,hknown,hline⟩

omit [Storage σ] in
theorem line_mem_linesOf {m : Manager σ} {calls : List ToolCall} {call : ToolCall} (hpoisoned : m.poisoned = false)
    (hcall : call ∈ calls) (hknown : Keyed.contains call.name m.shell.commands) : call.line ∈ m.linesOf calls := by
  rw [linesOf, hpoisoned, if_neg (by simp)]
  exact List.mem_map_of_mem (List.mem_filter.mpr ⟨hcall,hknown⟩)

theorem run_runTool (m : Manager σ) (call : ToolCall) :
    ((runTool call).run m).2 = m.afterLines (m.linesOf [call]) := by
  simp only [runTool, StateT.run_bind, StateT.run_get, pure_bind]
  by_cases hpoisoned : m.poisoned
  · rw [if_pos hpoisoned, linesOf, if_pos hpoisoned]
    rfl
  · rw [if_neg hpoisoned, linesOf, if_neg hpoisoned, List.filter_singleton]
    have hshell := run_runOnShell call m.shell
    split at hshell
    · rename_i hknown
      rw [hknown, cond_true]
      exact congrArg (fun shell => { m with shell }) hshell
    · rename_i hknown
      rw [Bool.eq_false_iff.mpr hknown, cond_false]
      exact congrArg (fun shell => { m with shell }) hshell

theorem run_expandPieces (m : Manager σ) (ps : List Piece) :
    ((expandPieces runTool ps).run m).2 = m.afterLines (m.linesOf (ps.filterMap Piece.call?)) := by
  induction ps generalizing m with
  | nil =>
    rw [List.filterMap_nil, linesOf, List.filter_nil, List.map_nil, ite_self]
    rfl
  | cons piece ps ih =>
    cases piece with
    | char c => exact ih m
    | call call =>
      have hcalls : (Piece.call call :: ps).filterMap Piece.call? = call :: ps.filterMap Piece.call? := rfl
      change ((expandPieces runTool ps).run ((runTool call).run m).2).2 = _
      rw [ih, run_runTool, linesOf_afterLines, hcalls, linesOf_cons m call (ps.filterMap _), afterLines_append]

/-- An answer with calls does on the shell what its lines do, and nothing else. -/
theorem run_outcomeOf_calls (m : Manager σ) (text : String) :
    ((outcomeOf (.calls text)).run m).2 = m.afterLines (m.linesOf (callsIn text)) := run_expandPieces m (pieces text)

end Manager

/-- Every command is named by a word, and the session tells of all commands. -/
structure Plain (shell : Shell σ) : Prop where
  words : ∀ name, Keyed.contains name shell.commands → Text.IsWord name.toList
  usage : ∀ name, Keyed.contains name shell.session.usage = Keyed.contains name shell.commands

/--
The lines that an answer runs are those of its calls of commands, in order, and their commands are the tools called.
They keep to the tools that came with the request just in case the answer calls no other command.
-/
theorem calls_within_tools_iff {m : Manager σ} (hshell : Plain m.shell) (definition : Definition) (text : String) :
    let tools := (Tool.manifest m.shell.session.usage definition.tools).map Tool.name
    let lines := m.linesOf (callsIn text)
    ((Manager.outcomeOf (.calls text)).run m).2 = { m with shell := m.shell.after lines } ∧
    (∀ line ∈ lines, ∃ call ∈ callsIn text, Keyed.contains call.name m.shell.commands ∧ line = call.line ∧
      Shell.commandOf? line = some call.name) ∧
    (m.poisoned = false → ((∀ line ∈ lines, ∃ name ∈ tools, Shell.commandOf? line = some name) ↔
      ∀ call ∈ callsIn text, Keyed.contains call.name m.shell.commands → call.name ∈ definition.tools)) := by
  intro tools lines
  have hline (line : String) (h : line ∈ lines) : ∃ call ∈ callsIn text, Keyed.contains call.name m.shell.commands ∧
      line = call.line ∧ Shell.commandOf? line = some call.name := by
    obtain ⟨call,hcall,hknown,rfl⟩ := Manager.mem_linesOf h
    exact ⟨call,hcall,hknown,rfl,Shell.commandOf?_append (hshell.words _ hknown) _⟩
  refine ⟨Manager.run_outcomeOf_calls m text,hline,fun hpoisoned => ⟨fun h call hcall hknown => ?_,fun h line hl => ?_⟩⟩
  · have hcommand := Shell.commandOf?_append (hshell.words _ hknown) call.arguments
    obtain ⟨name,htool,hname⟩ := h call.line (Manager.line_mem_linesOf hpoisoned hcall hknown)
    obtain rfl : call.name = name := Option.some.inj (hcommand.symm.trans hname)
    exact (Tool.mem_manifest.mp htool).1
  · obtain ⟨call,hcall,hknown,-,hcommand⟩ := hline line hl
    exact ⟨call.name,Tool.mem_manifest.mpr ⟨h call hcall hknown,hshell.usage _ ▸ hknown⟩,hcommand⟩

/-- The agent may list files only, and its answer calls that and what is no command. -/
theorem lists_within_tools :
    let commands : Keyed (Command Provider) := Shell.builtin
    let usage := commands.map fun (name, command) => (name, command.usage)
    let shell : Shell Provider := ⟨⟨⟨.plain (.tree .empty),"/",0⟩,[],[],true,"",usage⟩,commands⟩
    let m : Manager Provider := .new shell (Mock.model 100) none
    let text := "TOOL[ls](/) and TOOL[rocket]"
    let lines := m.linesOf (callsIn text)
    Plain shell ∧ lines = ["ls /"] ∧
    ((Manager.outcomeOf (.calls text)).run m).2 = { m with shell := shell.after lines } ∧
    ∀ line ∈ lines, ∃ name ∈ (Tool.manifest usage ["ls"]).map Tool.name, Shell.commandOf? line = some name := by
  intro commands usage shell m text lines
  have hkeys : Keyed.keys usage = Keyed.keys commands := by decide +kernel
  have hplain : Plain shell := by
    refine ⟨fun name h => ?_,fun name => ?_⟩
    · have hwords : ∀ name ∈ Keyed.keys commands, Text.IsWord name.toList := by decide +kernel
      exact hwords name (Keyed.find?_isSome_iff.mp h)
    · exact Bool.eq_iff_iff.mpr (by rw [Keyed.contains, Keyed.contains, Keyed.find?_isSome_iff, hkeys, Keyed.find?_isSome_iff])
  obtain ⟨hrun,-,hiff⟩ := calls_within_tools_iff hplain (m := m) { Definition.standard with tools := ["ls"] } text
  refine ⟨hplain,by decide +kernel,hrun,(hiff rfl).mpr ?_⟩
  decide +kernel

/-- An agent without tools creates a file: its answer calls a command, and nothing asks whether it may. -/
theorem touches_without_tools :
    let shell : Shell Provider := ⟨⟨⟨.plain (.tree .empty),"/",0⟩,[],[],true,"",[]⟩,Shell.builtin⟩
    let model : Model := fun _ _ _ => ⟨none,.calls "TOOL[touch](/tmp/made)"⟩
    let act : Scheduling Provider (Except AgentError String) := do
      let _ ← Schedule.managing fun _ => Manager.create .standard false
      Schedule.run 1 "go"
    let s := (act.run (Schedule.new (.new shell model none))).2
    s.manager.requests.map Prod.snd = [[]] ∧ s.manager.shell.session.history = ["touch /tmp/made"] ∧
      Shell.commandOf? "touch /tmp/made" = some "touch" := by
  decide +kernel

end VirtualShell.Agent
