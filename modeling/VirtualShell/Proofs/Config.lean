import VirtualShell.Proofs.Yaml.RoundTrip
import VirtualShell.Proofs.Yaml.Values

/-!
A configuration that is read, written and read again. Reading leaves the arguments of the store and the variables sorted,
and every number in them in its one form; a configuration of this kind is what its text is read as.
-/
namespace VirtualShell

theorem Profile.ofName?_name (profile : Profile) : Profile.ofName? profile.name = some profile := by
  cases profile <;> decide

namespace Duration

/-- A number of milliseconds that a word holds. -/
def Whole (duration : Duration) : Prop := ∃ milliseconds, duration = ofMillis milliseconds

@[simp] theorem millis_ofMillis (milliseconds : UInt64) : (ofMillis milliseconds).millis = milliseconds.toNat := by
  have hseconds : (milliseconds / 1000).toNat = milliseconds.toNat / 1000 := by simp
  simp only [millis, ofMillis, hseconds]
  omega

/-- A duration is one of the milliseconds it is written as just if it is whole. -/
theorem ofMillis_millis_iff {duration : Duration} : ofMillis duration.millis.toUInt64 = duration ↔ duration.Whole := by
  constructor
  · exact fun h => ⟨_,h.symm⟩
  · rintro ⟨milliseconds,rfl⟩
    simp

end Duration

/-- Times as they are decoded. -/
structure AgentsConfig.Proper (agents : AgentsConfig) : Prop where
  limit : ∀ limit ∈ agents.defaultTimeout, limit.Whole
  latency : agents.mockLatency.Whole

namespace Config
open Yaml Yaml.Decoder

/--
A configuration as it is decoded: what is looked up by name is sorted, the arguments are in their proper form, and the times
of agents are whole.
-/
structure Proper (config : Config) : Prop where
  args : config.args.Rising
  values : ∀ arg ∈ config.args, arg.2.Proper argumentDepth
  environment : config.environment.Rising
  agents : config.agents.Proper

theorem proper_standard : standard.Proper :=
  ⟨Keyed.rising_nil,List.forall_mem_nil _,Keyed.rising_nil,by simp [standard],⟨100,rfl⟩⟩

variable {config : Config}

/-! ### Reading -/

theorem only_duration (node : Yaml.Node) : Only (duration node) Duration.Whole := .after fun n => .pure ⟨n,rfl⟩

theorem only_decodeAgents (node : Yaml.Node) : Only (decodeAgents node) AgentsConfig.Proper := by
  refine .after fun fields => ?_
  refine (Only.field proper_standard.agents.limit (Only.option only_duration) fields).bind fun limit hlimit => ?_
  exact (Only.field proper_standard.agents.latency only_duration fields).bind fun latency hlatency => .pure ⟨hlimit,hlatency⟩

theorem only_decodeProvider (node : Yaml.Node) : Only (decodeProvider node)
    fun provider => provider.2.Rising ∧ ∀ arg ∈ provider.2, arg.2.Proper argumentDepth := by
  refine .after fun fields => .after fun name => ?_
  exact (Only.field ⟨Keyed.rising_nil,List.forall_mem_nil _⟩ (Only.keyed (only_json argumentDepth)) fields).bind
    fun args hargs => .pure hargs

/-- Whatever is decoded is in its proper form. -/
theorem only_decode (node : Yaml.Node) : Only (decode node) Proper := by
  refine .after fun fields => ?_
  refine (Only.field ⟨Keyed.rising_nil,List.forall_mem_nil _⟩ only_decodeProvider fields).bind fun provider hprovider => ?_
  refine .after fun security => .after fun hostname => .after fun home => ?_
  have henvironment : Only (field "environment" (keyed text) standard.environment fields) Keyed.Rising :=
    .field Keyed.rising_nil (fun node => (Only.keyed (fun node => .any (text node)) node).mono fun pairs h => h.1) fields
  refine henvironment.bind fun environment hsorted => ?_
  exact (Only.field proper_standard.agents only_decodeAgents fields).bind fun agents hagents =>
    .pure ⟨hprovider.1,hprovider.2,hsorted,hagents⟩

theorem proper_ofYaml {text : String} (h : ofYaml text = .ok config) : config.Proper := by
  unfold ofYaml at h
  split at h
  · rw [← Except.ok.inj h]
    exact proper_standard
  · rw [Yaml.decode] at h
    cases hparse : Document.parse text with
    | error problem =>
      rw [hparse] at h
      cases h
    | ok document =>
      rw [hparse] at h
      exact (only_decode document.root).of_decode h

/-! ### Writing and reading again -/

/-- A truth value where one may be left out. -/
theorem gives_option_bool (b : Bool) : Gives (option bool (nodeOf (.bool b))) (some b) := by
  have hbool : Gives (bool (nodeOf (.bool b))) b := by
    cases b <;> exact (Gives.pure _).bind (.pure _)
  rw [nodeOf] at hbool ⊢
  refine hbool.option rfl fun _ => ?_
  cases b <;> decide

theorem gives_option_word (n : UInt64) : Gives (option word (nodeOf (wordJson n))) (some n) := (gives_word n).option_number

theorem gives_profile (profile : Profile) : Gives (choice Profile.ofName? (nodeOf (.string profile.name))) profile := by
  have hlocal : localName? none = none := rfl
  refine (Gives.pure _).bind ?_
  rw [nodeOf, textNode]
  dsimp only
  rw [hlocal]
  dsimp only
  rw [Profile.ofName?_name]
  exact .pure _

theorem gives_decodeProvider (h : config.Proper) :
    Gives (decodeProvider (nodeOf (.object [("name",.string config.provider),("args",.object config.args)])))
      (config.provider,config.args) := by
  have hargs : Gives (keyed (json argumentDepth) (nodeOf (.object config.args))) config.args := by
    have hkeyed := gives_keyed id h.args fun arg harg => gives_json (h.values arg harg)
    rwa [show (config.args.map fun arg => (arg.1,id arg.2)) = config.args from List.map_id _] at hkeyed
  have hkeys : ([("name",Json.string config.provider),("args",.object config.args)].map Prod.fst).Sublist ["name", "args"] := .refl _
  refine (gives_fields_of_sublist hkeys (by simp) fun _ h => h).bind ?_
  refine (gives_field rfl (gives_text config.provider)).bind ?_
  exact (gives_field rfl hargs).bind (.pure _)

/-- The members that a policy is written as. -/
def securityMembers (security : SecurityConfig) : List (String × Json) :=
  match securityJson security with
  | .object members => members
  | _ => []

theorem securityJson_eq (security : SecurityConfig) : securityJson security = .object (securityMembers security) := rfl

theorem keys_securityMembers (security : SecurityConfig) :
    ((securityMembers security).map Prod.fst).Sublist ("profile" :: overrideNames) := by
  rw [securityMembers, securityJson]
  simp only [List.map_append, List.map_cons]
  have hsizes := ((keys_given "max_file_size" wordJson security.overrides.maxFileSize).cons_cons "profile").append
    (keys_given "max_total_size" wordJson security.overrides.maxTotalSize)
  have hpaths := ((hsizes.append (keys_given "read_only" .bool security.overrides.readOnly)).append
    (keys_given "allowed_paths" textsJson security.overrides.allowedPaths)).append
    (keys_given "denied_paths" textsJson security.overrides.deniedPaths)
  exact (hpaths.append (keys_given "denied_patterns" textsJson security.overrides.deniedPatterns)).append
    (keys_given "max_path_depth" wordJson security.overrides.maxPathDepth)

theorem gives_decodeSecurity (security : SecurityConfig) : Gives (decodeSecurity (nodeOf (securityJson security))) security := by
  have htexts (texts : List String) : Gives (option (list text) (nodeOf (textsJson texts))) (some texts) :=
    (gives_list_text texts).option_array
  rw [securityJson_eq]
  refine (gives_fields_of_sublist (keys_securityMembers security) (by decide) fun _ h => h).bind ?_
  refine (gives_field rfl (gives_profile security.profile)).bind ?_
  refine (gives_given (x := security.overrides.maxFileSize) ?_ gives_option_word).bind ?_
  · simp [securityMembers, securityJson, find?_given, List.find?_append]
  refine (gives_given (x := security.overrides.maxTotalSize) ?_ gives_option_word).bind ?_
  · simp [securityMembers, securityJson, find?_given, List.find?_append]
  refine (gives_given (x := security.overrides.readOnly) ?_ gives_option_bool).bind ?_
  · simp [securityMembers, securityJson, find?_given, List.find?_append]
  refine (gives_given (x := security.overrides.allowedPaths) ?_ htexts).bind ?_
  · simp [securityMembers, securityJson, find?_given, List.find?_append]
  refine (gives_given (x := security.overrides.deniedPaths) ?_ htexts).bind ?_
  · simp [securityMembers, securityJson, find?_given, List.find?_append]
  refine (gives_given (x := security.overrides.deniedPatterns) ?_ htexts).bind ?_
  · simp [securityMembers, securityJson, find?_given, List.find?_append]
  refine (gives_given (x := security.overrides.maxPathDepth) ?_ gives_option_word).bind ?_
  · simp [securityMembers, securityJson, find?_given, List.find?_append]
  exact .pure _

/-- A whole duration is read again as it was written. -/
theorem gives_duration {span : Duration} (h : span.Whole) : Gives (duration (nodeOf (durationJson span))) span := by
  have hgives := (gives_word span.millis.toUInt64).map Duration.ofMillis
  rwa [Duration.ofMillis_millis_iff.mpr h] at hgives

theorem gives_decodeAgents {agents : AgentsConfig} (h : agents.Proper) : Gives (decodeAgents (nodeOf (agentsJson agents))) agents := by
  let members := given "default_timeout_ms" durationJson agents.defaultTimeout ++
    [("mock_latency_ms",durationJson agents.mockLatency)]
  have hkeys : (members.map Prod.fst).Sublist ["default_timeout_ms", "mock_latency_ms"] := by
    rw [List.map_append]
    exact (keys_given _ _ _).append (List.Sublist.refl _)
  refine (gives_fields_of_sublist hkeys (by simp) fun _ h => h).bind ?_
  have hlimit : ∀ limit ∈ agents.defaultTimeout, Gives (option duration (nodeOf (durationJson limit))) (some limit) :=
    fun limit hl => (gives_duration (h.limit limit hl)).option_number
  refine (gives_given_of (x := agents.defaultTimeout) ?_ hlimit).bind ?_
  · simp [members, find?_given, List.find?_append]
  refine (gives_field ?_ (gives_duration h.latency)).bind (.pure _)
  simp [members, find?_given, List.find?_append]

/-- The members that a configuration is written as. -/
def members (config : Config) : List (String × Json) :=
  match config.toJson with
  | .object members => members
  | _ => []

theorem toJson_eq (config : Config) : config.toJson = .object config.members := rfl

theorem gives_decode (h : config.Proper) : Gives (decode (nodeOf config.toJson)) config := by
  have hkeys : (config.members.map Prod.fst).Sublist ["provider", "security", "hostname", "home", "environment", "agents"] := by
    rw [members, toJson]
    simp only [List.map_append, List.map_cons]
    exact ((keys_given "security" securityJson config.security).cons_cons "provider").append (List.Sublist.refl _)
  have hfind {name : String} {x : Json} (hname : name ≠ "security")
      (hx : [("hostname",Json.string config.hostname),("home",.string config.home),("environment",variablesJson config.environment),
        ("agents",agentsJson config.agents)].find? (fun member => member.1 == name) = some (name,x)) (hprovider : name ≠ "provider") :
      config.members.find? (fun member => member.1 == name) = some (name,x) := by
    rw [members, toJson]
    simp [find?_given, hname.symm, hprovider.symm, hx]
  rw [toJson_eq]
  refine (gives_fields_of_sublist hkeys (by simp) fun _ h => h).bind ?_
  refine (gives_field rfl (gives_decodeProvider h)).bind ?_
  have hsecurity (security : SecurityConfig) : Gives (option decodeSecurity (nodeOf (securityJson security))) (some security) :=
    (gives_decodeSecurity security).option_object
  refine (gives_given (x := config.security) ?_ hsecurity).bind ?_
  · simp [members, toJson, find?_given, List.find?_append]
  refine (gives_field (hfind (by simp) rfl (by simp)) (gives_text config.hostname)).bind ?_
  refine (gives_field (hfind (by simp) rfl (by simp)) (gives_text config.home)).bind ?_
  refine (gives_field (hfind (by simp) rfl (by simp)) (gives_keyed_text h.environment)).bind ?_
  exact (gives_field (hfind (by simp) rfl (by simp)) (gives_decodeAgents h.agents)).bind (.pure _)

/-- The text begins with the store. -/
theorem head?_toYaml (config : Config) : config.toYaml.toList.head? = some 'p' := by
  have hname : scalarText 2 "provider" = ['p', 'r', 'o', 'v', 'i', 'd', 'e', 'r'] := by decide +kernel
  have hsimple : isSimpleKey "provider" = true := by decide +kernel
  rw [toYaml, toJson_eq, members]
  simp [toJson, print, Yaml.members, hname, hsimple, padding]

theorem ofYaml_toYaml (h : config.Proper) : ofYaml config.toYaml = .ok config := by
  have hblank : Text.isBlankText config.toYaml = false := by
    obtain ⟨rest,hrest⟩ := List.head?_eq_some_iff.mp config.head?_toYaml
    simp [Text.isBlankText, hrest, Text.isBlank]
  rw [ofYaml, hblank, if_neg Bool.false_ne_true, toYaml, Yaml.decode, parse_print]
  exact (gives_decode h).decode

/--
Whatever text a configuration is read from, and however much of it the text leaves to the defaults, the text that is written
for it is read as the same configuration.
-/
theorem read_configuration_round_trips {text : String} (h : ofYaml text = .ok config) : ofYaml config.toYaml = .ok config :=
  ofYaml_toYaml (proper_ofYaml h)

/-- A text with the longest duration there is, a policy that denies nothing of its own, and nested arguments out of order. -/
def longest : String := "\n".intercalate ["security: \x7bprofile: untrusted, denied_paths: []\x7d", "agents:",
  "  default_timeout_ms: 18446744073709551615", "provider:", "  args: \x7bb: -1, a: [1.5, \x7b\x7d, ~]\x7d", ""]

theorem longest_round_trips : ∃ config, ofYaml longest = .ok config ∧ config.args.map Prod.fst = ["a", "b"] ∧
    config.security = some ⟨.untrusted,⟨none,none,none,none,some [],none,none⟩⟩ ∧
    config.agents = ⟨some (.ofMillis 18446744073709551615),.ofMillis 100⟩ ∧ config.home = defaultHome ∧ ofYaml config.toYaml = .ok config := by
  have hread : (ofYaml longest).toOption.map (fun config => (config.args.map Prod.fst,config.security,config.agents,config.home)) =
      some (["a", "b"],some ⟨.untrusted,⟨none,none,none,none,some [],none,none⟩⟩,
        ⟨some (.ofMillis 18446744073709551615),.ofMillis 100⟩,defaultHome) := by
    decide +kernel
  cases h : ofYaml longest with
  | error problem =>
    rw [h] at hread
    cases hread
  | ok config =>
    rw [h] at hread
    simp only [Except.toOption, Option.map_some, Option.some.injEq, Prod.mk.injEq] at hread
    obtain ⟨hargs,hsecurity,hagents,hhome⟩ := hread
    exact ⟨config,rfl,hargs,hsecurity,hagents,hhome,read_configuration_round_trips h⟩

end Config
end VirtualShell
