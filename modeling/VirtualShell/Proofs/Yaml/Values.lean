import VirtualShell.Proofs.Yaml.Decoding
import VirtualShell.Proofs.Yaml.Resolution

/-!
Values of any type. What decoding makes of a node has its members in order and its numbers in their proper form, and a
value of this kind is what decoding makes of its own node.
-/
namespace VirtualShell

/-- A value as it is decoded: at most so many collections are around each other, members are sorted, numbers are proper. -/
inductive Json.Proper : Nat → Json → Prop where
  | null (depth : Nat) : Proper depth .null
  | bool (depth : Nat) (b : Bool) : Proper depth (.bool b)
  | number (depth : Nat) {n : JsonNumber} (h : n.Proper) : Proper depth (.number n)
  | string (depth : Nat) (s : String) : Proper depth (.string s)
  | array {depth : Nat} {items : List Json} (h : ∀ x ∈ items, Proper depth x) : Proper (depth + 1) (.array items)
  | object {depth : Nat} {members : List (String × Json)} (hsorted : Keyed.Rising members)
      (h : ∀ member ∈ members, Proper depth member.2) : Proper (depth + 1) (.object members)

namespace Yaml.Decoder

/-! ### What an action comes to -/

/-- Whatever the action comes to, in any document, has a property. -/
def Only {α : Type} (act : Decode α) (P : α → Prop) : Prop :=
  ∀ document left a left', (act.run document).run left = .ok (a,left') → P a

variable {α β : Type} {act : Decode α} {P : α → Prop} {Q : β → Prop}

namespace Only

theorem pure {a : α} (h : P a) : Only (Pure.pure a) P := by
  intro document left a left' hrun
  cases hrun
  exact h

theorem mismatch (wanted : String) : Only (mismatch wanted : Decode α) P := by
  intro document left a left' hrun
  cases hrun

theorem throw (problem : YamlError) : Only (throw problem : Decode α) P := by
  intro document left a left' hrun
  cases hrun

theorem mono {P' : α → Prop} (h : Only act P) (hP : ∀ a, P a → P' a) : Only act P' :=
  fun document left a left' hrun => hP a (h document left a left' hrun)

theorem any (act : Decode α) : Only act fun _ => True := fun _ _ _ _ _ => trivial

theorem bind {f : α → Decode β} (h : Only act P) (hf : ∀ a, P a → Only (f a) Q) : Only (act >>= f) Q := by
  intro document left b left' hrun
  rw [ReaderT.run_bind, StateT.run_bind] at hrun
  cases hact : (act.run document).run left with
  | error problem =>
    rw [hact] at hrun
    cases hrun
  | ok found =>
    rw [hact] at hrun
    exact hf found.1 (h document left found.1 found.2 hact) document found.2 b left' hrun

/-- What comes first does not matter. -/
theorem after {f : α → Decode β} (hf : ∀ a, Only (f a) Q) : Only (act >>= f) Q := (any act).bind fun a _ => hf a

theorem mapM {f : α → Decode β} (hf : ∀ x, Only (f x) Q) (xs : List α) : Only (xs.mapM f) fun ys => ∀ y ∈ ys, Q y := by
  induction xs with
  | nil => exact pure (List.forall_mem_nil Q)
  | cons x xs ih =>
    rw [List.mapM_cons]
    refine (hf x).bind fun y hy => ih.bind fun ys hys => pure ?_
    exact List.forall_mem_cons.mpr ⟨hy,hys⟩

theorem field {name : String} {decoder : Decoder α} {absent : α} (habsent : P absent) (h : ∀ node, Only (decoder node) P)
    (fields : List (String × Node)) : Only (field name decoder absent fields) P := by
  unfold Decoder.field
  split
  · exact h _
  · exact pure habsent

theorem keyed {decoder : Decoder α} (h : ∀ node, Only (decoder node) P) (node : Node) :
    Only (keyed decoder node) fun pairs => pairs.Rising ∧ ∀ pair ∈ pairs, P pair.2 := by
  refine after fun entries => ?_
  have hpairs : Only (entries.mapM fun pair : String × Node => return (pair.1,← decoder pair.2)) fun pairs => ∀ pair ∈ pairs, P pair.2 :=
    mapM (Q := fun pair : String × α => P pair.2) (fun pair => (h pair.2).bind fun _ ha => pure ha) entries
  exact hpairs.bind fun pairs hpairs => pure ⟨Keyed.rising_ofList pairs,fun pair hpair => hpairs pair (Keyed.mem_of_mem_ofList hpair)⟩

theorem option {decoder : Decoder α} (h : ∀ node, Only (decoder node) P) (node : Node) :
    Only (option decoder node) fun found => ∀ a ∈ found, P a := by
  have hsome (node : Node) : Only (do return some (← decoder node) : Decode (Option α)) fun found => ∀ a ∈ found, P a :=
    (h node).bind fun a ha => pure fun _ hsame => Option.some.inj hsame ▸ ha
  have hnone : Only (Pure.pure none : Decode (Option α)) fun found => ∀ a ∈ found, P a := pure (by simp)
  refine after fun node => ?_
  split
  · exact hnone
  · split
    · exact hsome _
    · split
      · split
        · exact hsome _
        · split
          · exact hnone
          · exact .mismatch _
      · split
        · exact hnone
        · exact hsome _
  · exact hsome _

theorem of_decode {decoder : Decoder α} {document : Document} {a : α} (h : Only (decoder document.root) P)
    (hdecode : document.decode decoder = .ok a) : P a := by
  rw [Document.decode, StateT.run'_eq] at hdecode
  cases hrun : ((decoder document.root).run document).run (100 * document.root.steps) with
  | error problem =>
    rw [hrun] at hdecode
    cases hdecode
  | ok found =>
    rw [hrun] at hdecode
    have ha : found.1 = a := Except.ok.inj hdecode
    rw [← ha]
    exact h document _ found.1 found.2 hrun

end Only

/-! ### Values of any type -/

theorem only_resolution (tagged : Bool) (scalar : Scalar) : Only (resolution tagged scalar) Resolved.Proper := by
  have huntyped : (if scalar.style == .plain then resolve scalar.text else Resolved.text).Proper := by
    split
    · exact proper_resolve scalar.text
    · trivial
  unfold resolution
  dsimp only
  split
  · split
    · split
      · rename_i r hr
        obtain ⟨b,_,rfl⟩ := Option.map_eq_some_iff.mp hr
        exact .pure trivial
      · exact .mismatch _
    · split
      · split
        · rename_i r hr
          exact .pure (Resolved.proper_whole? hr)
        · exact .mismatch _
      · split
        · split
          · rename_i r hr
            obtain ⟨x,hx,rfl⟩ := Option.map_eq_some_iff.mp hr
            exact .pure (Resolved.canonical_float? hx)
          · exact .mismatch _
        · split
          · by_cases hnull : Resolved.isNullWord scalar.text = true
            · rw [if_pos hnull]
              exact .pure trivial
            · rw [if_neg hnull]
              exact .mismatch _
          · refine .pure ?_
            split
            · exact huntyped
            · trivial
  · exact .pure huntyped

theorem only_jsonScalar (depth : Nat) (scalar : Scalar) : Only (jsonScalar scalar) (Json.Proper depth) := by
  unfold jsonScalar
  split
  · exact .mismatch _
  · refine (only_resolution false scalar).bind fun r hr => ?_
    cases r with
    | null => exact .pure (.null depth)
    | bool b => exact .pure (.bool depth b)
    | natural n => exact .pure (.number depth trivial)
    | negative n => exact .pure (.number depth hr)
    | wide => exact .mismatch _
    | float x =>
      refine .pure ?_
      split
      · rename_i hfinite
        exact .number depth ⟨hfinite,hr⟩
      · exact .null depth
    | text => exact .pure (.string depth _)

/-- What is decoded is a value in its proper form. -/
theorem only_json (depth : Nat) (node : Node) : Only (json depth node) (Json.Proper depth) := by
  induction depth generalizing node with
  | zero =>
    unfold json
    refine .after fun node => ?_
    match node with
    | .void => exact .pure (.null 0)
    | .scalar scalar => exact only_jsonScalar 0 scalar
    | .alias _ => exact .throw _
    | .sequence tag items =>
      dsimp only
      split
      · exact .mismatch _
      · exact .throw _
    | .mapping tag members =>
      dsimp only
      split
      · exact .mismatch _
      · exact .throw _
  | succ depth ih =>
    unfold json
    refine .after fun node => ?_
    match node with
    | .void => exact .pure (.null _)
    | .scalar scalar => exact only_jsonScalar _ scalar
    | .alias _ => exact .throw _
    | .sequence tag items =>
      dsimp only
      split
      · exact .mismatch _
      · exact (Only.mapM ih items).bind fun xs hxs => .pure (.array hxs)
    | .mapping tag members =>
      dsimp only
      split
      · exact .mismatch _
      · have hmembers : Only (members.mapM fun member : Node × Node => return (← text member.1,← json depth member.2))
            fun pairs => ∀ pair ∈ pairs, Json.Proper depth pair.2 :=
          Only.mapM (Q := fun pair : String × Json => Json.Proper depth pair.2)
            (fun member => .after fun key => (ih member.2).bind fun _ hx => .pure hx) members
        refine hmembers.bind fun pairs hpairs => .pure (.object (Keyed.rising_ofList pairs) fun member hmember => ?_)
        exact hpairs member (Keyed.mem_of_mem_ofList hmember)

/-! ### Values from their own nodes -/

/-- A value in its proper form is decoded from its own node. -/
theorem gives_json {depth : Nat} {v : Json} (h : v.Proper depth) : Gives (json depth (nodeOf v)) v := by
  have hplain (text : String) : Gives (resolution false ⟨text,.plain,none⟩) (resolve text) := .pure _
  induction h with
  | null depth =>
    have hscalar : Gives (jsonScalar ⟨"null",.plain,none⟩) .null := (hplain "null").bind (.pure _)
    unfold json
    exact (Gives.pure _).bind hscalar
  | bool depth b =>
    have hscalar : Gives (jsonScalar ⟨if b then "true" else "false",.plain,none⟩) (.bool b) := by
      cases b
      · exact (hplain "false").bind (.pure _)
      · exact (hplain "true").bind (.pure _)
    unfold json
    exact (Gives.pure _).bind hscalar
  | @number depth n hn =>
    have hscalar : Gives (jsonScalar ⟨numberText n,.plain,none⟩) (.number n) := by
      have hresolved := hplain (numberText n)
      rw [resolve_numberText hn] at hresolved
      refine hresolved.bind ?_
      cases n with
      | natural n => exact .pure _
      | negative n => exact .pure _
      | float x =>
        rw [Resolved.ofNumber]
        dsimp only
        rw [if_pos hn.1]
        exact .pure _
    unfold json
    exact (Gives.pure _).bind hscalar
  | string depth s =>
    have hscalar : Gives (jsonScalar ⟨s,styleOf s,none⟩) (.string s) := (gives_resolution_text s).bind (.pure _)
    unfold json
    exact (Gives.pure (textNode s)).bind hscalar
  | @array depth items _ ih =>
    have hitems : Gives ((items.map nodeOf).mapM (json depth)) (items.map id) := .mapM ih
    rw [List.map_id] at hitems
    rw [nodeOf, nodesOf_eq_map]
    unfold json
    exact (Gives.pure _).bind (hitems.bind (.pure _))
  | @object depth members hsorted _ ih =>
    have hmembers : Gives ((members.map fun member => (textNode member.1,nodeOf member.2)).mapM fun member : Node × Node =>
        return (← text member.1,← json depth member.2)) (members.map id) :=
      .mapM fun member hmember => (gives_text member.1).bind ((ih member hmember).bind (.pure _))
    rw [List.map_id] at hmembers
    rw [nodeOf, entriesOf_eq_map]
    unfold json
    refine (Gives.pure _).bind (hmembers.bind ?_)
    rw [hsorted.ofList_eq]
    exact .pure _

end Yaml.Decoder
end VirtualShell
