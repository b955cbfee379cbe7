import VirtualShell.Proofs.Text.Words
import VirtualShell.Shell.Basic

/-! Lines of a shell one after the other. They never change what commands it has. -/
namespace VirtualShell.Shell

variable {σ : Type}

/-- The command that a line names. -/
def commandOf? (line : String) : Option String := (parse (Text.trimmed line)).map Prod.fst

theorem commandOf?_eq (line : String) : commandOf? line = (Text.wordsOf line).head? := by
  rw [commandOf?, parse, Text.wordsOf_trimmed]
  cases Text.wordsOf line <;> rfl

/-- A line that starts with a word and a blank names that word. -/
theorem commandOf?_append {name : String} (hname : Text.IsWord name.toList) (rest : String) :
    commandOf? (name ++ " " ++ rest) = some name := by
  have hline : (name ++ " " ++ rest).toList = name.toList ++ ' ' :: rest.toList := by simp
  rw [commandOf?_eq, Text.wordsOf, hline, Text.words_append_word hname (by decide), List.map_cons, List.head?_cons,
    String.ofList_toList]

variable [Storage σ]

theorem execute_commands (line : String) (shell : Shell σ) : (shell.execute line).2.commands = shell.commands := by
  simp only [execute]
  split
  · rfl
  · split
    · rfl
    · split <;> rfl

/-- A shell after some lines. -/
def after (lines : List String) (shell : Shell σ) : Shell σ :=
  lines.foldl (fun shell line => (shell.execute line).2) shell

theorem after_append (before lines : List String) (shell : Shell σ) :
    shell.after (before ++ lines) = (shell.after before).after lines := List.foldl_append

theorem after_commands (lines : List String) (shell : Shell σ) : (shell.after lines).commands = shell.commands := by
  induction lines generalizing shell with
  | nil => rfl
  | cons line lines ih => exact (ih _).trans (execute_commands line shell)

end VirtualShell.Shell
