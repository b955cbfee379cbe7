import VirtualShell.Proofs.Agent.Leniency
import VirtualShell.Proofs.Yaml.Decoding
import VirtualShell.Proofs.Yaml.RoundTrip

/-!
A definition that is written and read again.
-/
namespace VirtualShell.Agent

theorem Channel.ofName?_name (channel : Channel) : Channel.ofName? channel.name = some channel := by
  cases channel <;> decide

theorem Memory.ofName?_name (memory : Memory) : Memory.ofName? memory.name = some memory := by
  cases memory <;> decide

namespace Definition
open Yaml Yaml.Decoder
variable {definition : Definition}

theorem gives_count (n : UInt32) : Gives (count (nodeOf (.ofNat n.toNat))) n := by
  have hsmall : n.toNat.toUInt64.toNat = n.toNat := by simp
  have h : Gives (natural UInt32.size (nodeOf (.ofNat n.toNat))) n.toNat.toUInt64.toNat :=
    gives_natural (by rw [hsmall]; exact n.toNat_lt)
  rw [hsmall] at h
  simpa [count] using h.map Nat.toUInt32

theorem gives_entry {α : Type} {name : String} {decoder : Decoder α} {a absent : α} {members : List (String × Json)} {x : Json}
    (h : members.find? (fun member => member.1 == name) = some (name,x)) (ha : Gives (option decoder (nodeOf x)) (some a)) :
    Gives (entry name decoder absent (fieldsOf members)) a :=
  (gives_field h ha).bind (.pure _)

theorem gives_mode {α : Type} {name : String} {ofName? : String → Option α} {a absent : α} {members : List (String × Json)}
    {mode : String} (h : members.find? (fun member => member.1 == name) = some (name,.string mode))
    (ha : ofName? mode = some a) : Gives (Definition.mode name ofName? absent (fieldsOf members)) a := by
  have hvalue : Gives (option (value (depthLimit - 1)) (nodeOf (.string mode))) (some (.text mode)) := by
    rw [nodeOf]
    exact (gives_value_text _ mode).option_text
  refine (gives_field h hvalue).bind ?_
  simpa [Value.text?, ha] using Gives.pure a

/-- The entries of a definition. -/
def members (definition : Definition) : List (String × Json) :=
  match definition.toJson with
  | .object members => members
  | _ => []

theorem toJson_eq (definition : Definition) : definition.toJson = .object definition.members := rfl

theorem keys_sublist (definition : Definition) : (definition.members.map Prod.fst).Sublist ["name", "model", "system_prompt",
    "tools", "input", "output", "context_size", "memory", "temperature", "max_tokens", "environment", "timeout"] := by
  have henvironment : ((if definition.environment.isEmpty then []
      else [("environment",Config.variablesJson definition.environment)]).map Prod.fst).Sublist ["environment"] := by
    split <;> simp
  rw [members, toJson]
  simp only [List.map_append]
  exact (((List.Sublist.refl _).append (keys_given _ _ _)).append henvironment).append (keys_given _ _ _)

theorem find?_environment (environment : Keyed String) (key name : String) :
    (if environment = [] then [] else [(key,Config.variablesJson environment)]).find? (fun member => member.1 == name) =
      if key = name ∧ environment ≠ [] then some (key,Config.variablesJson environment) else none := by
  cases environment <;> by_cases h : key = name <;> simp [h]

theorem gives_environment (hsorted : definition.environment.Rising) :
    Gives (entry "environment" (keyed text) standard.environment (fieldsOf definition.members)) definition.environment := by
  have hfind : definition.members.find? (fun member => member.1 == "environment") = if definition.environment ≠ [] then
      some ("environment",Config.variablesJson definition.environment) else none := by
    simp [members, toJson, find?_given, find?_environment, List.find?_append]
  by_cases h : definition.environment = []
  · rw [if_neg (not_not.mpr h)] at hfind
    rw [h]
    exact (gives_field_absent hfind).bind (.pure _)
  · rw [if_pos h] at hfind
    exact gives_entry hfind (gives_keyed_text hsorted).option_object

theorem decode_gives (hsorted : definition.environment.Rising) (hcanonical : definition.temperature.Canonical) :
    Gives (decode (nodeOf definition.toJson)) definition := by
  have hfields : Gives (fields ["name", "model", "system_prompt", "tools", "input", "output", "memory",
      "context_size", "temperature", "max_tokens", "environment", "timeout"] (nodeOf definition.toJson))
      (fieldsOf definition.members) := gives_fields_of_sublist definition.keys_sublist (by simp) (by simp)
  refine hfields.bind ?_
  refine (gives_entry (x := .string definition.name) rfl (gives_text _).option_text).bind ?_
  refine (gives_entry (x := .string definition.model) rfl (gives_text _).option_text).bind ?_
  refine (gives_entry (x := .string definition.systemPrompt) rfl (gives_text _).option_text).bind ?_
  refine (gives_entry (x := Config.textsJson definition.tools) rfl (gives_list_text _).option_array).bind ?_
  refine (gives_mode rfl (Channel.ofName?_name definition.input)).bind ?_
  refine (gives_mode rfl (Channel.ofName?_name definition.output)).bind ?_
  refine (gives_entry rfl (gives_count definition.contextSize).option_number).bind ?_
  refine (gives_mode rfl (Memory.ofName?_name definition.memory)).bind ?_
  refine (gives_entry rfl (gives_option_float (float?_numberText hcanonical))).bind ?_
  refine (gives_given (x := definition.maxTokens) ?_ fun n => (gives_count n).option_number).bind ?_
  · simp [members, toJson, Json.ofNat, find?_given, find?_environment, List.find?_append]
  refine (gives_environment hsorted).bind ?_
  refine (gives_given (x := definition.timeout) ?_ fun n => (gives_word n).option_number).bind ?_
  · simp [members, toJson, Config.wordJson, find?_given, find?_environment, List.find?_append]
  exact .pure _

/-- The text begins with the name. -/
theorem head?_print (definition : Definition) : (print definition.toJson).toList.head? = some 'n' := by
  have hname : scalarText 2 "name" = ['n', 'a', 'm', 'e'] := by decide +kernel
  have hsimple : isSimpleKey "name" = true := by decide +kernel
  rw [toJson_eq, members]
  simp [toJson, print, Yaml.members, hname, hsimple, padding]

/-- A definition is read back from its text. -/
theorem ofText_toYaml (hsorted : definition.environment.Rising) (hcanonical : definition.temperature.Canonical) :
    ofText definition.toYaml = .ok definition := by
  have hs : Text.trimStart definition.toYaml.toList = mark.toList ++ '\n' :: (print definition.toJson).toList := by
    simp [toYaml, mark, Text.trimStart, Text.isBlank]
  have hbody : body? definition.toYaml.toList = some (print definition.toJson).toList := by
    rw [body?_of_marked hs (by simp [Text.isBlank])]
    simp [Text.cut]
  have hblank : ¬ (print definition.toJson).toList.all Text.isBlank := by
    obtain ⟨rest,hrest⟩ := List.head?_eq_some_iff.mp (head?_print definition)
    simp [hrest, Text.isBlank]
  have hdecode : Yaml.decode (option decode) (print definition.toJson) = .ok (some definition) := by
    rw [Yaml.decode, parse_print]
    exact (decode_gives hsorted hcanonical).option_object.decode
  rw [ofText, hbody]
  dsimp only
  rw [ofBody, if_neg hblank, String.ofList_toList, hdecode]
  rfl

theorem prompted_reads_back :
    let definition : Definition := { standard with
      systemPrompt := "Answer:\n  # in one line\n", tools := ["- ls", "cat"], memory := .persistent,
      environment := [("HOME","/agents"),("TZ","")], timeout := some 30 }
    definition.environment.Rising ∧ definition.temperature.Canonical ∧ ofText definition.toYaml = .ok definition := by
  intro definition
  have hsorted : definition.environment.Rising := List.pairwise_pair.mpr (by decide +kernel)
  have hcanonical : definition.temperature.Canonical := by
    have htemperature : definition.temperature = .finite false 6305039478318694 (-53) := by decide +kernel
    rw [htemperature]
    exact ⟨by omega,by omega,by omega,.inr (by omega)⟩
  exact ⟨hsorted,hcanonical,ofText_toYaml hsorted hcanonical⟩

end Definition
end VirtualShell.Agent
