import VirtualShell.Config
import VirtualShell.Proofs.Keyed
import VirtualShell.Proofs.Yaml.Numbers

/-!
What decoders make of values that are written as nodes: texts in the style that suits them, all else plain. Nothing in such
a node is an alias or has a tag.
-/
namespace VirtualShell.Yaml

/-! ### Values as nodes -/

def textNode (text : String) : Node := .scalar ⟨text,styleOf text,none⟩

mutual

/-- The node of a value in the styles in which it is written. -/
def nodeOf : Json → Node
  | .null => .scalar ⟨"null",.plain,none⟩
  | .bool b => .scalar ⟨if b then "true" else "false",.plain,none⟩
  | .number n => .scalar ⟨numberText n,.plain,none⟩
  | .string s => textNode s
  | .array items => .sequence none (nodesOf items)
  | .object members => .mapping none (entriesOf members)

def nodesOf : List Json → List Node
  | [] => []
  | x :: rest => nodeOf x :: nodesOf rest

def entriesOf : List (String × Json) → List (Node × Node)
  | [] => []
  | (key,x) :: rest => (textNode key,nodeOf x) :: entriesOf rest

end

theorem nodesOf_eq_map (items : List Json) : nodesOf items = items.map nodeOf := by
  induction items with
  | nil => rfl
  | cons x rest ih => rw [nodesOf, ih, List.map_cons]

theorem entriesOf_eq_map (members : List (String × Json)) :
    entriesOf members = members.map fun member => (textNode member.1,nodeOf member.2) := by
  induction members with
  | nil => rfl
  | cons member rest ih => rw [entriesOf, ih, List.map_cons]

/-- What is written plain stands for a text. -/
theorem resolve_of_plain {text : String} (h : styleOf text = .plain) : resolve text = .text := by
  simp only [styleOf] at h
  split_ifs at h with _ _ hresolve
  rw [Bool.or_eq_true, not_or] at hresolve
  simpa using hresolve.1

namespace Decoder

/-! ### Actions that come to an answer -/

/-- The action comes to an answer in every document, and follows no alias. -/
def Gives {α : Type} (act : Decode α) (a : α) : Prop := ∀ document left, (act.run document).run left = .ok (a,left)

variable {α β : Type} {act : Decode α} {f : α → Decode β} {a : α} {b : β}

namespace Gives

theorem pure (a : α) : Gives (Pure.pure a : Decode α) a := fun _ _ => rfl

theorem bind (h : Gives act a) (hf : Gives (f a) b) : Gives (act >>= f) b := by
  intro document left
  rw [ReaderT.run_bind, StateT.run_bind, h document left]
  exact hf document left

theorem decode {decoder : Decoder α} {document : Document} (h : Gives (decoder document.root) a) :
    document.decode decoder = .ok a := by
  rw [Document.decode, StateT.run'_eq, h document]
  rfl

theorem map (h : Gives act a) (g : α → β) : Gives (g <$> act) (g a) := by
  rw [map_eq_pure_bind]
  exact h.bind (pure _)

theorem mapM {γ δ : Type} {g : δ → Decode α} {node : γ → δ} {h : γ → α} {xs : List γ}
    (hg : ∀ x ∈ xs, Gives (g (node x)) (h x)) : Gives ((xs.map node).mapM g) (xs.map h) := by
  induction xs with
  | nil => exact pure []
  | cons x xs ih =>
    obtain ⟨hx,hxs⟩ := List.forall_mem_cons.mp hg
    rw [List.map_cons, List.mapM_cons]
    exact hx.bind ((ih hxs).bind (pure _))

end Gives

theorem gives_text (s : String) : Gives (text (textNode s)) s := fun _ _ => rfl

/-- A scalar that is no word for nothing is what is wanted of an optional value. -/
theorem Gives.option {decoder : Decoder α} {scalar : Scalar} (htag : scalar.tag = none)
    (hnull : scalar.style = .plain → (scalar.text.isEmpty || Resolved.isNullWord scalar.text) = false)
    (h : Gives (decoder (.scalar scalar)) a) : Gives (option decoder (.scalar scalar)) (some a) := by
  have hsome : Gives (do return some (← decoder (.scalar scalar)) : Decode (Option α)) (some a) := h.bind (.pure _)
  refine (Gives.pure (Node.scalar scalar)).bind ?_
  dsimp only
  by_cases hstyle : scalar.style = .plain
  · rw [if_neg (by simpa using hstyle), htag]
    dsimp only
    rw [if_neg (by simp [hnull hstyle])]
    exact hsome
  · rw [if_pos (by simpa using hstyle)]
    exact hsome

/-- A plain text is no word for nothing. -/
private theorem not_null_of_plain {s : String} (h : styleOf s = .plain) : (s.isEmpty || Resolved.isNullWord s) = false := by
  have hresolve := resolve_of_plain h
  rw [resolve] at hresolve
  split at hresolve
  · cases hresolve
  · rwa [Bool.not_eq_true] at *

/-- No text is nothing where a value is optional. -/
theorem Gives.option_text {decoder : Decoder α} {s : String} (h : Gives (decoder (textNode s)) a) :
    Gives (Decoder.option decoder (textNode s)) (some a) :=
  h.option rfl not_null_of_plain

/-- What is written as a text stands for a text. -/
theorem gives_resolution_text (s : String) : Gives (resolution false ⟨s,styleOf s,none⟩) .text := by
  rw [resolution, if_neg Bool.false_ne_true]
  dsimp only
  split
  · rename_i hstyle
    rw [resolve_of_plain (by simpa using hstyle)]
    exact .pure _
  · exact .pure _

/-- A text is a value of its own, whichever type it might have had. -/
theorem gives_value_text (depth : Nat) (s : String) : Gives (value depth (textNode s)) (.text s) := by
  have hscalar : Gives (valueScalar false ⟨s,styleOf s,none⟩) (.text s) := (gives_resolution_text s).bind (.pure _)
  unfold value
  exact (Gives.pure (textNode s)).bind (hscalar.bind (.pure _))

theorem gives_list_text (texts : List String) : Gives (list text (nodeOf (Config.textsJson texts))) texts := by
  rw [Config.textsJson, nodeOf, nodesOf_eq_map, List.map_map]
  have h : Gives ((texts.map textNode).mapM text) (texts.map id) := .mapM fun s _ => gives_text s
  rw [List.map_id] at h
  exact (Gives.pure _).bind h

theorem gives_entries (members : List (String × Json)) :
    Gives (entries (nodeOf (.object members))) (members.map fun member => (member.1,nodeOf member.2)) := by
  rw [nodeOf, entriesOf_eq_map]
  refine (Gives.pure _).bind (Gives.mapM fun member _ => ?_)
  exact (gives_text member.1).bind (.pure (member.1,nodeOf member.2))

/-- A mapping that is sorted by its keys is taken as it stands. -/
theorem gives_keyed {decoder : Decoder α} (toJson : α → Json) {pairs : Keyed α} (hsorted : pairs.Rising)
    (h : ∀ pair ∈ pairs, Gives (decoder (nodeOf (toJson pair.2))) pair.2) :
    Gives (keyed decoder (nodeOf (.object (pairs.map fun pair => (pair.1,toJson pair.2))))) pairs := by
  refine (gives_entries _).bind ?_
  rw [List.map_map]
  have hpairs : Gives ((pairs.map fun pair => (pair.1,nodeOf (toJson pair.2))).mapM fun pair : String × Node =>
      return (pair.1,← decoder pair.2)) (pairs.map id) := .mapM fun pair hpair => (h pair hpair).bind (.pure pair)
  rw [List.map_id] at hpairs
  refine hpairs.bind ?_
  rw [hsorted.ofList_eq]
  exact .pure _

theorem gives_keyed_text {environment : Keyed String} (h : environment.Rising) :
    Gives (keyed text (nodeOf (Config.variablesJson environment))) environment :=
  gives_keyed .string h fun entry _ => gives_text entry.2

/-- A collection is never nothing. -/
theorem Gives.option_array {decoder : Decoder α} {items : List Json} (h : Gives (decoder (nodeOf (.array items))) a) :
    Gives (Decoder.option decoder (nodeOf (.array items))) (some a) := by
  rw [nodeOf] at h ⊢
  exact (Gives.pure _).bind (h.bind (.pure _))

theorem Gives.option_object {decoder : Decoder α} {members : List (String × Json)}
    (h : Gives (decoder (nodeOf (.object members))) a) : Gives (Decoder.option decoder (nodeOf (.object members))) (some a) := by
  rw [nodeOf] at h ⊢
  exact (Gives.pure _).bind (h.bind (.pure _))

/-! ### Numbers -/

private theorem not_null_of_isDigit {s : String} {c : Char} {rest : List Char} (hs : s.toList = c :: rest)
    (hc : c.isDigit = true) : (s.isEmpty || Resolved.isNullWord s) = false := by
  rw [← Bool.not_eq_true]
  intro hnull
  have hword : s ∈ ["", "null", "Null", "NULL", "~"] := by simpa [Resolved.isNullWord] using hnull
  have hall : ∀ word ∈ ["", "null", "Null", "NULL", "~"], ∀ c ∈ word.toList.head?, c.isDigit = false := by simp
  rw [hall s hword c (by simp [hs])] at hc
  cases hc

theorem gives_natural {limit : Nat} {n : UInt64} (h : n.toNat < limit) :
    Gives (natural limit (nodeOf (.number (.natural n)))) n.toNat := by
  refine (Gives.pure _).bind ?_
  have hread : Resolved.natural? UInt64.size (numberText (.natural n)).toList = some n.toNat := by
    simpa [numberText] using Resolved.natural?_toDigits n.toNat_lt
  rw [nodeOf]
  dsimp only
  rw [hread]
  dsimp only
  rw [if_pos (by simpa [isTyped] using h)]
  exact .pure _

theorem Gives.option_number {decoder : Decoder α} {n : UInt64} (h : Gives (decoder (nodeOf (.number (.natural n)))) a) :
    Gives (Decoder.option decoder (nodeOf (.number (.natural n)))) (some a) := by
  obtain ⟨c,rest,hcons,hc,_⟩ := Text.toDigits_eq_cons n.toNat
  exact h.option rfl fun _ => not_null_of_isDigit (by simpa [numberText] using hcons) hc

theorem gives_word (n : UInt64) : Gives (Config.word (nodeOf (Config.wordJson n))) n := by
  have h := (gives_natural n.toNat_lt).map Nat.toUInt64
  simpa [Config.word, Config.wordJson] using h

theorem gives_float {x : Number.Binary64} (h : Resolved.float? (numberText (.float x)).toList = some x) :
    Gives (float (nodeOf (.number (.float x)))) x := by
  refine (Gives.pure _).bind ?_
  rw [nodeOf]
  dsimp only
  rw [h]
  exact .pure _

/-- No word for nothing is read as a number. -/
theorem gives_option_float {x : Number.Binary64} (h : Resolved.float? (numberText (.float x)).toList = some x) :
    Gives (option float (nodeOf (.number (.float x)))) (some x) := by
  refine (gives_float h).option rfl fun _ => ?_
  rw [← Bool.not_eq_true]
  intro hnull
  have hword : numberText (.float x) ∈ ["", "null", "Null", "NULL", "~"] := by simpa [Resolved.isNullWord] using hnull
  have hall : ∀ word ∈ ["", "null", "Null", "NULL", "~"], Resolved.float? word.toList = none := by decide +kernel
  rw [hall _ hword] at h
  cases h

/-! ### Fields -/

/-- The node of each member. -/
def fieldsOf (members : List (String × Json)) : List (String × Node) := members.map fun member => (member.1,nodeOf member.2)

variable {members : List (String × Json)} {name : String} {decoder : Decoder α} {a absent : α}

theorem gives_fields {known : List String} (hknown : ∀ member ∈ members, member.1 ∈ known)
    (hdistinct : (members.map Prod.fst).Nodup) : Gives (fields known (nodeOf (.object members))) (fieldsOf members) := by
  refine (gives_entries members).bind ?_
  have hall : (fieldsOf members).filter (fun entry => known.contains entry.1) = fieldsOf members := by
    rw [List.filter_eq_self]
    intro entry hentry
    obtain ⟨member,hmember,rfl⟩ := List.mem_map.mp hentry
    simpa using hknown member hmember
  have hkeys : ((fieldsOf members).map Prod.fst).Nodup := by simpa [fieldsOf, Function.comp_def] using hdistinct
  have hnone : (fieldsOf members).find? (fun entry => decide (1 < ((fieldsOf members).filter fun other =>
      other.1 == entry.1).length)) = none := by
    rw [List.find?_eq_none]
    intro entry _
    have hcount := List.nodup_iff_count.mp hkeys entry.1
    rw [List.count, List.countP_map, List.countP_eq_length_filter] at hcount
    simpa [Function.comp_def] using hcount
  rw [← fieldsOf]
  dsimp only
  rw [hall, hnone]
  exact .pure _

/-- Of fields in some order, not all of which need be there, each is there once. -/
theorem gives_fields_of_sublist {known order : List String} (hkeys : (members.map Prod.fst).Sublist order) (hnodup : order.Nodup)
    (hknown : order ⊆ known) : Gives (fields known (nodeOf (.object members))) (fieldsOf members) :=
  gives_fields (fun _ hmember => hknown (hkeys.subset (List.mem_map_of_mem hmember))) (hkeys.nodup hnodup)

theorem gives_field {x : Json} (h : members.find? (fun member => member.1 == name) = some (name,x))
    (ha : Gives (decoder (nodeOf x)) a) : Gives (field name decoder absent (fieldsOf members)) a := by
  have hfind : (fieldsOf members).find? (fun entry => entry.1 == name) = some (name,nodeOf x) := by
    rw [fieldsOf, List.find?_map]
    exact congrArg (Option.map fun member => (member.1,nodeOf member.2)) h
  rw [field, hfind]
  exact ha

theorem gives_field_absent (h : members.find? (fun member => member.1 == name) = none) :
    Gives (field name decoder absent (fieldsOf members)) absent := by
  have hfind : (fieldsOf members).find? (fun entry => entry.1 == name) = none := by
    rw [fieldsOf, List.find?_map]
    exact congrArg (Option.map fun member => (member.1,nodeOf member.2)) h
  rw [field, hfind]
  exact .pure _

/-! ### Members that may be left out -/

theorem keys_given (key : String) (toJson : β → Json) (x : Option β) : ((Config.given key toJson x).map Prod.fst).Sublist [key] := by
  cases x <;> simp [Config.given]

theorem find?_given (key name : String) (toJson : β → Json) (x : Option β) :
    (Config.given key toJson x).find? (fun member => member.1 == name) =
      if key = name then x.map fun x => (key,toJson x) else none := by
  cases x <;> by_cases h : key = name <;> simp [Config.given, h]

theorem gives_given_of {decoder : Decoder (Option β)} {toJson : β → Json} {x : Option β}
    (h : members.find? (fun member => member.1 == name) = x.map fun x => (name,toJson x))
    (hx : ∀ b ∈ x, Gives (decoder (nodeOf (toJson b))) (some b)) : Gives (field name decoder none (fieldsOf members)) x := by
  cases x with
  | none => exact gives_field_absent h
  | some b => exact gives_field h (hx b rfl)

theorem gives_given {decoder : Decoder (Option β)} {toJson : β → Json} {x : Option β}
    (h : members.find? (fun member => member.1 == name) = x.map fun x => (name,toJson x))
    (hx : ∀ b, Gives (decoder (nodeOf (toJson b))) (some b)) : Gives (field name decoder none (fieldsOf members)) x :=
  gives_given_of h fun b _ => hx b

end Decoder
end VirtualShell.Yaml
