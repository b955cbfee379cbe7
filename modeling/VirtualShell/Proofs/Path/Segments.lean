import Mathlib.Data.List.Basic
import Mathlib.Data.List.Induction
import Mathlib.Tactic.Common
import VirtualShell.Path

/-! Paths as lists of names. Every path has one list of segments, and the normal form is written from it;
names that can stand below the root are exactly those that reading leaves as they are. -/
namespace VirtualShell.Path

/-- A component that reading puts on the stack unchanged. -/
def Plain (c : Component) : Prop := c ≠ [] ∧ '/' ∉ c ∧ c ≠ ['.'] ∧ c ≠ ['.', '.']

/-- The path in normal form that leads through some names. -/
def ofSegments (names : List String) : String := .ofList (render (names.map String.toList))

/-- Whether every name of a list can stand below the root. -/
def Named (names : List String) : Prop := ∀ name ∈ names, isName name = true

instance : DecidablePred Named := fun names => inferInstanceAs (Decidable (∀ name ∈ names, isName name = true))

theorem isName_iff (name : String) : isName name = true ↔ Plain name.toList := by
  have hdot : name = "." ↔ name.toList = ['.'] := by rw [← String.toList_inj]; rfl
  have hdots : name = ".." ↔ name.toList = ['.', '.'] := by rw [← String.toList_inj]; rfl
  simp only [isName, Plain, Bool.not_eq_true', Bool.or_eq_false_iff, beq_eq_false_iff_ne, ne_eq, hdot, hdots,
    List.contains_eq_mem, decide_eq_false_iff_not, String.toList_eq_nil_iff, and_assoc]
  rw [← Bool.not_eq_true, String.isEmpty_iff]

private theorem push_plain (stack : List Component) {c : Component} (h : Plain c) : push stack c = c :: stack := by
  obtain ⟨h0,_,h1,h2⟩ := h
  unfold push
  split <;> simp_all

/-- What is pushed is plain if it has no slash: the other exceptions never reach the stack. -/
private theorem push_all_plain {stack : List Component} {c : Component} (hs : ∀ d ∈ stack, Plain d) (hc : '/' ∉ c) :
    ∀ d ∈ push stack c, Plain d := by
  intro d hd
  unfold push at hd
  split at hd
  · exact hs d hd
  · exact hs d hd
  · exact hs d (List.mem_of_mem_tail hd)
  · rename_i h0 h1 h2
    rcases List.mem_cons.mp hd with rfl | hd
    · exact ⟨h0,hc,h1,h2⟩
    · exact hs d hd

theorem splitOn_no_slash (s : List Char) : ∀ c ∈ s.splitOn '/', '/' ∉ c := by
  induction s with
  | nil => simp
  | cons a s ih =>
    rw [List.splitOn_cons_eq_if_modifyHead]
    split
    · intro c hc
      rcases List.mem_cons.mp hc with rfl | hc
      · simp
      · exact ih c hc
    · rename_i ha
      obtain ⟨head,tail,ht⟩ := List.exists_cons_of_ne_nil (List.splitOn_ne_nil '/' s)
      rw [ht] at ih ⊢
      intro c hc
      simp only [List.modifyHead_cons, List.mem_cons] at hc
      rcases hc with rfl | hc
      · have := ih head (by simp)
        simpa [this] using fun h : '/' = a => ha (by simp [← h])
      · exact ih c (by simp [hc])

theorem components_plain (s : List Char) : ∀ c ∈ components s, Plain c := by
  have h (cs stack : List Component) (hcs : ∀ c ∈ cs, '/' ∉ c) (hs : ∀ d ∈ stack, Plain d) :
      ∀ d ∈ cs.foldl push stack, Plain d := by
    induction cs generalizing stack with
    | nil => exact hs
    | cons c cs ih =>
      exact ih _ (fun d hd => hcs d (by simp [hd])) (push_all_plain hs (hcs c (by simp)))
  intro c hc
  exact h _ [] (splitOn_no_slash s) (by simp) c (List.mem_reverse.mp hc)

/-- Reading goes on where a slash stands. -/
theorem components_append_slash (a b : List Char) :
    components (a ++ '/' :: b) = ((b.splitOn '/').foldl push (components a).reverse).reverse := by
  simp [components, List.splitOn_append_cons_self]

private theorem components_slash (a : List Char) : components (a ++ ['/']) = components a := by
  rw [components_append_slash]
  simp [push]

theorem components_append_plain (a : List Char) {c : Component} (h : Plain c) :
    components (a ++ '/' :: c) = components a ++ [c] := by
  rw [components_append_slash, List.splitOn_eq_singleton h.2.1]
  simp [push_plain _ h]

private theorem components_plain_self {c : Component} (h : Plain c) : components ('/' :: c) = [c] := by
  simpa [components, push] using components_append_plain [] h

theorem render_append (cs : List Component) (c : Component) (h : cs ≠ []) :
    render (cs ++ [c]) = render cs ++ '/' :: c := by
  induction cs with
  | nil => exact absurd rfl h
  | cons d cs ih =>
    cases cs with
    | nil => simp [render]
    | cons e cs => simpa [render] using ih (by simp)

/-- Reading a path in normal form gives back the components it was written from. -/
theorem components_render {cs : List Component} (h : ∀ c ∈ cs, Plain c) : components (render cs) = cs := by
  induction cs using List.reverseRecOn with
  | nil => rfl
  | append_singleton cs c ih =>
    have hc := h c (by simp)
    by_cases hnil : cs = []
    · subst hnil
      exact components_plain_self hc
    · rw [render_append cs c hnil, components_append_plain _ hc, ih fun d hd => h d (by simp [hd])]

/-- Of a path in normal form only the slashes separate. -/
theorem splitOn_render {cs : List Component} (h : ∀ c ∈ cs, Plain c) (hcs : cs ≠ []) :
    (render cs).splitOn '/' = [] :: cs := by
  induction cs using List.reverseRecOn with
  | nil => exact absurd rfl hcs
  | append_singleton cs c ih =>
    have hc : c.splitOn '/' = [c] := List.splitOn_eq_singleton (h c (by simp)).2.1
    by_cases hnil : cs = []
    · subst hnil
      simpa [render, hc] using List.splitOn_append_cons_self (a := '/') [] c
    · rw [render_append cs c hnil, List.splitOn_append_cons_self, ih (fun d hd => h d (by simp [hd])) hnil, hc]
      rfl

theorem render_append_append {cs ds : List Component} (hcs : cs ≠ []) (hds : ds ≠ []) :
    render (cs ++ ds) = render cs ++ render ds := by
  induction cs with
  | nil => exact absurd rfl hcs
  | cons c cs ih =>
    cases cs with
    | nil =>
      obtain ⟨d,ds,rfl⟩ := List.exists_cons_of_ne_nil hds
      rfl
    | cons e cs => simpa [render] using ih (by simp)

theorem render_ne_slash_tail {cs : List Component} (h : ∀ c ∈ cs, Plain c) (hcs : cs ≠ []) :
    ∃ init last, render cs = init ++ [last] ∧ last ≠ '/' := by
  obtain ⟨ds,c,rfl⟩ := List.eq_nil_or_concat cs |>.resolve_left hcs
  have hc := h c (by simp)
  obtain ⟨init,last,rfl⟩ := List.eq_nil_or_concat c |>.resolve_left hc.1
  have hlast : last ≠ '/' := fun he => hc.2.1 (by simp [he])
  by_cases hds : ds = []
  · subst hds
    exact ⟨'/' :: init,last,by simp [render],hlast⟩
  · exact ⟨render ds ++ '/' :: init,last,by simp [render_append _ _ hds],hlast⟩

theorem trimSlashes_render {cs : List Component} (h : ∀ c ∈ cs, Plain c) (hcs : cs ≠ []) :
    trimSlashes (render cs) = render cs := by
  obtain ⟨init,last,he,hlast⟩ := render_ne_slash_tail h hcs
  simp [trimSlashes, he, hlast]

private theorem components_trimSlashes (s : List Char) : components (trimSlashes s) = components s := by
  induction s using List.reverseRecOn with
  | nil => rfl
  | append_singleton s c ih =>
    by_cases hc : c = '/'
    · subst hc
      rw [components_slash, ← ih]
      simp [trimSlashes]
    · simp [trimSlashes, hc]

/-! ### Paths as text -/

theorem plain_of_named {names : List String} (h : Named names) : ∀ c ∈ names.map String.toList, Plain c := by
  intro c hc
  obtain ⟨name,hn,rfl⟩ := List.mem_map.mp hc
  exact (isName_iff name).mp (h name hn)

theorem map_toList_ofList (cs : List Component) : (cs.map String.ofList).map String.toList = cs := by
  simp [Function.comp_def]

theorem named_segments (path : String) : Named (segments path) := by
  intro name hn
  obtain ⟨c,hc,rfl⟩ := List.mem_map.mp hn
  exact (isName_iff _).mpr (by simpa using components_plain _ c hc)

theorem normalize_eq (path : String) : normalize path = ofSegments (segments path) := by
  rw [ofSegments, segments, map_toList_ofList, normalize]

theorem segments_ofSegments {names : List String} (h : Named names) : segments (ofSegments names) = names := by
  rw [segments, ofSegments, String.toList_ofList, components_render (plain_of_named h)]
  simp [Function.comp_def]

/-- Different chains of names have different paths. -/
theorem ofSegments_inj {a b : List String} (ha : Named a) (hb : Named b) :
    ofSegments a = ofSegments b ↔ a = b := by
  refine ⟨fun h => ?_,congrArg _⟩
  rw [← segments_ofSegments ha, h, segments_ofSegments hb]

@[simp] theorem segments_normalize (path : String) : segments (normalize path) = segments path := by
  rw [normalize_eq, segments_ofSegments (named_segments path)]

@[simp] theorem normalize_normalize (path : String) : normalize (normalize path) = normalize path := by
  rw [normalize_eq (normalize path), segments_normalize, ← normalize_eq]

@[simp] theorem normalize_resolve (cwd path : String) : normalize (resolve cwd path) = resolve cwd path := by
  unfold resolve
  split <;> rw [normalize_normalize]

theorem normalize_ofSegments {names : List String} (h : Named names) :
    normalize (ofSegments names) = ofSegments names := by
  rw [normalize_eq, segments_ofSegments h]

theorem normalize_eq_iff (p q : String) : normalize p = normalize q ↔ segments p = segments q := by
  rw [normalize_eq, normalize_eq, ofSegments_inj (named_segments p) (named_segments q)]

theorem ofSegments_nil : ofSegments [] = "/" := rfl

theorem segments_root : segments "/" = [] := @segments_ofSegments [] (by simp [Named])

theorem normalize_eq_root_iff (path : String) : normalize path = "/" ↔ segments path = [] := by
  rw [normalize_eq, ← ofSegments_nil, ofSegments_inj (named_segments path) (by simp [Named])]

@[simp] theorem named_nil : Named [] := by simp [Named]

theorem named_append {a b : List String} : Named (a ++ b) ↔ Named a ∧ Named b := by
  simp [Named, or_imp, forall_and]

theorem named_concat {names : List String} {name : String} :
    Named (names ++ [name]) ↔ Named names ∧ isName name = true := by
  rw [named_append]
  simp [Named]

theorem name_nonempty {name : String} (h : isName name = true) : name.isEmpty = false := by
  rw [← Bool.not_eq_true, String.isEmpty_iff, ← String.toList_eq_nil_iff]
  exact ((isName_iff name).mp h).1

/-- Joining a name to a directory, however that is written, adds one segment. -/
theorem segments_join (parent : String) {name : String} (h : isName name = true) :
    segments (join parent name) = segments parent ++ [name] := by
  have hc := (isName_iff name).mp h
  have hroot : ("/" ++ name).toList = [] ++ '/' :: name.toList := by simp
  rw [join, name_nonempty h]
  simp only [Bool.false_eq_true, if_false]
  split
  · rename_i hp
    have hs : segments parent = [] := by
      rcases Bool.or_eq_true_iff.mp hp with hp | hp
      · rw [String.isEmpty_iff.mp hp]; rfl
      · rw [beq_iff_eq.mp hp, segments_root]
    rw [hs, segments, hroot, components_append_plain _ hc]
    simp [components, push]
  · rw [segments, String.toList_append, String.toList_append, String.toList_ofList]
    rw [show trimSlashes parent.toList ++ "/".toList ++ name.toList =
      trimSlashes parent.toList ++ '/' :: name.toList by simp]
    rw [components_append_plain _ hc, components_trimSlashes]
    simp [segments]

/-- Joining a name to a path in normal form gives a path in normal form. -/
theorem join_ofSegments {names : List String} {name : String} (h : Named names) (hn : isName name = true) :
    join (ofSegments names) name = ofSegments (names ++ [name]) := by
  rw [join, name_nonempty hn]
  simp only [Bool.false_eq_true, if_false]
  by_cases hnil : names = []
  · subst hnil
    simp [ofSegments, render]
  · have hmap : names.map String.toList ≠ [] := by simpa using hnil
    have hne : ofSegments names ≠ "/" := by
      rw [← ofSegments_nil, ne_eq, ofSegments_inj h named_nil]
      exact hnil
    have he : (ofSegments names).isEmpty = false := by
      rw [← Bool.not_eq_true, String.isEmpty_iff, ← String.toList_eq_nil_iff, ofSegments, String.toList_ofList]
      cases hm : names.map String.toList with
      | nil => exact absurd hm hmap
      | cons c cs => cases cs <;> simp [render]
    simp only [he, Bool.false_or, beq_iff_eq, hne, if_false]
    rw [← String.toList_inj]
    simp [ofSegments, trimSlashes_render (plain_of_named h) hmap, render_append _ _ hmap]

private theorem toList_ofSegments_append {a b : List String} (ha : a ≠ []) (hb : b ≠ []) :
    (ofSegments (a ++ b)).toList = (ofSegments a).toList ++ (ofSegments b).toList := by
  simp only [ofSegments, String.toList_ofList, List.map_append]
  exact render_append_append (by simpa using ha) (by simpa using hb)

theorem head_ofSegments (names : List String) : ∃ rest, (ofSegments names).toList = '/' :: rest := by
  rw [ofSegments, String.toList_ofList]
  cases hm : names.map String.toList with
  | nil => exact ⟨[],rfl⟩
  | cons c cs => cases cs <;> exact ⟨_,rfl⟩

/-- Going on after a slash means lying below. -/
theorem slash_prefix_iff {a b : List String} (ha : Named a) (hb : Named b) (hne : a ≠ []) :
    (ofSegments a).toList ++ ['/'] <+: (ofSegments b).toList ↔ ∃ more, more ≠ [] ∧ b = a ++ more := by
  constructor
  · rintro ⟨rest,hr⟩
    have hbne : b ≠ [] := by
      rintro rfl
      obtain ⟨t,ht⟩ := head_ofSegments a
      simp [ht, ofSegments_nil] at hr
    have hsplit := splitOn_render (plain_of_named hb) (by simpa using hbne)
    rw [← String.toList_ofList (l := render _), ← ofSegments, ← hr, List.append_assoc, List.singleton_append,
      List.splitOn_append_cons_self, ofSegments, String.toList_ofList,
      splitOn_render (plain_of_named ha) (by simpa using hne), List.cons_append] at hsplit
    refine ⟨(rest.splitOn '/').map String.ofList,by simp,?_⟩
    have hmap := congrArg (List.map String.ofList) (List.cons.inj hsplit).2
    simpa [Function.comp_def] using hmap.symm
  · rintro ⟨more,hm,rfl⟩
    obtain ⟨rest,hr⟩ := head_ofSegments more
    exact ⟨rest,by rw [toList_ofSegments_append hne hm, hr]; simp⟩

/-- A directory path with a slash at its end: what the paths of all below it start with. -/
def slashed (dir : String) : String := if dir == "/" then "/" else dir ++ "/"

private theorem splitOn_slashed {names : List String} (h : Named names) {name : String} (hslash : '/' ∉ name.toList) :
    (slashed (ofSegments names) ++ name).toList.splitOn '/' = [] :: (names ++ [name]).map String.toList := by
  have hname : name.toList.splitOn '/' = [name.toList] := List.splitOn_eq_singleton hslash
  by_cases hnil : names = []
  · subst hnil
    simpa [slashed, ofSegments_nil, hname] using List.splitOn_append_cons_self (a := '/') [] name.toList
  · have hne : ofSegments names ≠ "/" := by
      rw [← ofSegments_nil, ne_eq, ofSegments_inj h named_nil]
      exact hnil
    have hsplit := splitOn_render (plain_of_named h) (by simpa using hnil)
    rw [slashed, if_neg (by simpa using hne)]
    rw [show (ofSegments names ++ "/" ++ name).toList = render (names.map String.toList) ++ '/' :: name.toList by
      simp [ofSegments]]
    rw [List.splitOn_append_cons_self, hsplit, hname]
    simp

/-- The paths of the children of a directory. -/
theorem slashed_append_iff {dir names : List String} (hd : Named dir) (hn : Named names) {name : String}
    (hempty : name ≠ "") (hslash : '/' ∉ name.toList) :
    slashed (ofSegments dir) ++ name = ofSegments names ↔ names = dir ++ [name] := by
  have hleft := splitOn_slashed hd hslash
  have hright (hne : names ≠ []) : (ofSegments names).toList.splitOn '/' = [] :: names.map String.toList := by
    rw [ofSegments, String.toList_ofList]
    exact splitOn_render (plain_of_named hn) (by simpa using hne)
  constructor
  · intro he
    rw [he] at hleft
    have hne : names ≠ [] := by
      rintro rfl
      have hroot : (ofSegments []).toList.splitOn '/' = [[], []] := by decide
      rw [hroot] at hleft
      cases dir with
      | nil => exact hempty (by simpa using hleft)
      | cons first dir => simp at hleft
    rw [hright hne] at hleft
    exact List.map_injective_iff.mpr (fun _ _ h => String.toList_inj.mp h) (List.cons.inj hleft).2
  · rintro rfl
    by_cases hnil : dir = []
    · subst hnil
      rw [← String.toList_inj]
      simp [slashed, ofSegments, render]
    · have hne : ofSegments dir ≠ "/" := by
        rw [← ofSegments_nil, ne_eq, ofSegments_inj hd named_nil]
        exact hnil
      rw [← String.toList_inj, slashed, if_neg (by simpa using hne)]
      simp [ofSegments, render_append _ _ (show dir.map String.toList ≠ [] by simpa using hnil)]

theorem split_eq (path : String) :
    split path = (ofSegments (segments path).dropLast, (segments path).getLast?.getD "") := by
  simp only [split, ofSegments, segments, List.map_dropLast, map_toList_ofList, List.getLast?_map]
  congr 1
  cases (components path.toList).getLast? <;> simp

theorem split_normalize (path : String) : split (normalize path) = split path := by
  rw [split_eq, split_eq, segments_normalize]

theorem segments_split_fst (path : String) : segments (split path).1 = (segments path).dropLast := by
  rw [split_eq]
  exact segments_ofSegments fun name hn => named_segments path name ((segments path).dropLast_subset hn)

theorem split_name_isEmpty_iff (path : String) : (split path).2.isEmpty = true ↔ segments path = [] := by
  rw [split_eq, String.isEmpty_iff]
  rcases List.eq_nil_or_concat (segments path) with h | ⟨names,name,h⟩
  · simp [h]
  · have hn : isName name = true := (named_concat.mp (by rw [← List.concat_eq_append, ← h]; exact named_segments path)).2
    have := name_nonempty hn
    simp only [h, List.concat_eq_append, List.getLast?_append, List.getLast?_singleton, Option.some_or,
      Option.getD_some, List.append_eq_nil_iff, List.cons_ne_nil, and_false, iff_false]
    rw [← Bool.not_eq_true, String.isEmpty_iff] at this
    exact this

theorem basename_ofSegments {names : List String} (h : Named names) :
    basename (ofSegments names) = names.getLast?.getD "" := by
  rw [basename, split_eq, segments_ofSegments h]

/-- What keeps its own name in a directory; the root has none. -/
theorem join_basename {dir names : List String} (hd : Named dir) (hn : Named names) :
    join (ofSegments dir) (basename (ofSegments names)) = ofSegments (dir ++ names.getLast?.toList) := by
  rw [basename_ofSegments hn]
  rcases List.eq_nil_or_concat names with rfl | ⟨init,last,rfl⟩
  · simpa [join] using normalize_ofSegments hd
  · rw [List.concat_eq_append] at hn ⊢
    rw [List.getLast?_concat]
    exact join_ofSegments hd (named_concat.mp hn).2

/-- A path that starts at the root is read without the working directory. -/
theorem resolve_ofSegments (cwd : String) {names : List String} (h : Named names) :
    resolve cwd (ofSegments names) = ofSegments names := by
  obtain ⟨rest,hrest⟩ := head_ofSegments names
  rw [resolve, if_pos (by rw [hrest]; rfl), normalize_ofSegments h]

/-- The path that leads on through some names. -/
def descend (path : String) (names : List String) : String := ofSegments (segments path ++ names)

theorem segments_descend (path : String) {names : List String} (h : Named names) :
    segments (descend path names) = segments path ++ names :=
  segments_ofSegments (named_append.mpr ⟨named_segments path,h⟩)

/-- A path leads to the same place as another or below it. -/
def AtOrBelow (dir path : String) : Prop := segments dir <+: segments path

instance : DecidableRel AtOrBelow := fun dir path => inferInstanceAs (Decidable (segments dir <+: segments path))

theorem isWithin_iff {path : String} (h : normalize path = path) (dir : String) : isWithin path dir = true ↔ AtOrBelow dir path := by
  rw [AtOrBelow, isWithin, ← h, normalize_eq dir, normalize_eq path, segments_ofSegments (named_segments path)]
  by_cases hroot : segments dir = []
  · simp [hroot, ofSegments_nil]
  · have hne : ofSegments (segments dir) ≠ "/" := by
      rw [← ofSegments_nil, ne_eq, ofSegments_inj (named_segments dir) named_nil]
      exact hroot
    rw [if_neg (by simpa using hne), Bool.or_eq_true, beq_iff_eq, ofSegments_inj (named_segments path) (named_segments dir),
      List.isPrefixOf_iff_prefix, slash_prefix_iff (named_segments dir) (named_segments path) hroot]
    constructor
    · rintro (he | ⟨more,_,he⟩)
      · exact he ▸ List.prefix_rfl
      · exact ⟨more,he.symm⟩
    · rintro ⟨more,he⟩
      by_cases hm : more = []
      · exact .inl (by rw [← he, hm, List.append_nil])
      · exact .inr ⟨more,hm,he.symm⟩

theorem depth_eq (path : String) : depth path = (segments path).length := by
  simp [depth, segments]

end VirtualShell.Path
