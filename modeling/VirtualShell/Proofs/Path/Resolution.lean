import VirtualShell.Node.Basic
import VirtualShell.Proofs.Path.Segments

/-!
Resolving paths. The normal form of a path is the canonical path with the same segments, and there is one only. So
resolving is an action: resolving again changes nothing, and going on step by step leads where all the steps at once
lead, also where some of them lead up from the root.
-/
namespace VirtualShell.Path
variable {path cwd : String} {names : List String}

/--
A path as every store keeps it: it starts with a slash, nothing between two slashes is empty or a step that stays or
leads up, and, the root apart, it does not end with a slash.
-/
structure Canonical (path : String) : Prop where
  absolute : path.toList.head? = some '/'
  parts : path ≠ "/" → ∀ part ∈ path.toList.tail.splitOn '/', part ≠ [] ∧ part ≠ ['.'] ∧ part ≠ ['.', '.']
  ending : path ≠ "/" → path.toList.getLast? ≠ some '/'

/-! ### Normal forms -/

private theorem splitOn_slash (rest : List Char) : ('/' :: rest).splitOn '/' = [] :: rest.splitOn '/' := by
  simpa using List.splitOn_append_cons_self (a := '/') [] rest

/-- A text is determined by what stands between its slashes. -/
private theorem splitOn_inj {s t : List Char} (h : s.splitOn '/' = t.splitOn '/') : s = t := by
  have hjoined := congrArg (List.intercalate ['/']) h
  rwa [List.intercalate_splitOn, List.intercalate_splitOn] at hjoined

/-- A canonical path is written from what stands between its slashes. -/
private theorem Canonical.exists_names (h : Canonical path) : ∃ names, Named names ∧ path = ofSegments names := by
  by_cases hroot : path = "/"
  · exact ⟨[],named_nil,hroot.trans ofSegments_nil.symm⟩
  obtain ⟨rest,hrest⟩ : ∃ rest, path.toList = '/' :: rest := List.head?_eq_some_iff.mp h.absolute
  have hplain : ∀ c ∈ rest.splitOn '/', Plain c := by
    intro c hc
    have hparts := h.parts hroot c (by rwa [hrest, List.tail_cons])
    exact ⟨hparts.1,splitOn_no_slash rest c hc,hparts.2.1,hparts.2.2⟩
  have hrender : render (rest.splitOn '/') = '/' :: rest := by
    apply splitOn_inj
    rw [splitOn_render hplain (List.splitOn_ne_nil '/' rest), splitOn_slash]
  refine ⟨(rest.splitOn '/').map String.ofList,fun name hn => ?_,?_⟩
  · obtain ⟨c,hc,rfl⟩ := List.mem_map.mp hn
    rw [isName_iff, String.toList_ofList]
    exact hplain c hc
  · rw [ofSegments, map_toList_ofList, hrender, ← hrest, String.ofList_toList]

theorem canonical_ofSegments (h : Named names) : Canonical (ofSegments names) := by
  have hplain := plain_of_named h
  obtain ⟨rest,hrest⟩ := head_ofSegments names
  have hne : ofSegments names ≠ "/" → names.map String.toList ≠ [] := by
    intro hroot hnil
    rw [List.map_eq_nil_iff.mp hnil, ofSegments_nil] at hroot
    exact hroot rfl
  refine ⟨by rw [hrest]; rfl,fun hroot part hpart => ?_,fun hroot hlast => ?_⟩
  · have hsplit := splitOn_render hplain (hne hroot)
    rw [← String.toList_ofList (l := render _), ← ofSegments, hrest, splitOn_slash] at hsplit
    rw [hrest, List.tail_cons, (List.cons.inj hsplit).2] at hpart
    obtain ⟨hempty,_,hdot,hdots⟩ := hplain part hpart
    exact ⟨hempty,hdot,hdots⟩
  · obtain ⟨init,last,hrender,hslash⟩ := render_ne_slash_tail hplain (hne hroot)
    rw [ofSegments, String.toList_ofList, hrender, List.getLast?_concat, Option.some.injEq] at hlast
    exact hslash hlast

theorem canonical_normalize (path : String) : Canonical (normalize path) := by
  rw [normalize_eq]
  exact canonical_ofSegments (named_segments path)

/-- The canonical paths are those that are in normal form already. -/
theorem canonical_iff : Canonical path ↔ normalize path = path := by
  constructor
  · intro h
    obtain ⟨names,hnamed,rfl⟩ := h.exists_names
    exact normalize_ofSegments hnamed
  · intro h
    rw [← h]
    exact canonical_normalize path

/-- A canonical path is written from its segments. -/
theorem Canonical.eq_ofSegments (h : Canonical path) : path = ofSegments (segments path) := by
  rw [← normalize_eq, canonical_iff.mp h]

/-! ### Going on -/

/-- Going on from a path is going on from its normal form. -/
theorem normalize_append_slash (path more : String) :
    normalize (path ++ "/" ++ more) = normalize (normalize path ++ "/" ++ more) := by
  have hread (start : String) : (start ++ "/" ++ more).toList = start.toList ++ '/' :: more.toList := by simp
  have hsame : components (normalize path).toList = components path.toList := by
    rw [normalize, String.toList_ofList, components_render (components_plain path.toList)]
  rw [normalize, normalize, hread, hread, components_append_slash, components_append_slash, hsame]

private theorem head_append_slash {path : String} (h : path ≠ "") (more : String) :
    (path ++ "/" ++ more).toList.head? = path.toList.head? := by
  obtain ⟨first,rest,hpath⟩ := List.exists_cons_of_ne_nil (mt String.toList_eq_nil_iff.mp h)
  simp [hpath]

/-- A step onwards leads from where a path leads to where the path with the step leads. -/
theorem resolve_append (cwd : String) {path more : String} (hpath : path ≠ "") (hmore : more.toList.head? ≠ some '/') :
    resolve cwd (path ++ "/" ++ more) = resolve (resolve cwd path) more := by
  have hstep (start : String) : resolve start more = normalize (start ++ "/" ++ more) := by rw [resolve, if_neg hmore]
  rw [hstep, resolve, resolve, head_append_slash hpath]
  split
  · exact normalize_append_slash path more
  · calc
      normalize (cwd ++ "/" ++ (path ++ "/" ++ more)) = normalize (cwd ++ "/" ++ path ++ "/" ++ more) := by
        simp only [String.append_assoc]
      _ = normalize (normalize (cwd ++ "/" ++ path) ++ "/" ++ more) := normalize_append_slash _ _

/-- A path with further steps. -/
def onward (path : String) (steps : List String) : String := steps.foldl (fun path step => path ++ "/" ++ step) path

private theorem append_slash_ne_empty (path more : String) : path ++ "/" ++ more ≠ "" := by
  intro h
  have hlist := congrArg String.toList h
  simp at hlist

/-- Step by step leads where all the steps at once lead. -/
theorem resolve_onward (cwd : String) {path : String} (hpath : path ≠ "") {steps : List String}
    (hsteps : ∀ step ∈ steps, step.toList.head? ≠ some '/') :
    resolve cwd (onward path steps) = steps.foldl resolve (resolve cwd path) := by
  induction steps generalizing path with
  | nil => rfl
  | cons step steps ih =>
    have hlater := ih (append_slash_ne_empty path step) fun other ho => hsteps other (List.mem_cons_of_mem step ho)
    rw [List.foldl_cons, ← resolve_append cwd hpath (hsteps step List.mem_cons_self), ← hlater]
    rfl

/-- What is resolved stays where it is. -/
theorem resolve_canonical (cwd : String) (h : Canonical path) : resolve cwd path = path := by
  rw [resolve, if_pos h.absolute, canonical_iff.mp h]

/-! ### Directories and names -/

private theorem dropLast_append_last (names : List String) : names.dropLast ++ names.getLast?.toList = names := by
  rcases List.eq_nil_or_concat names with rfl | ⟨init,last,rfl⟩
  · rfl
  · rw [List.concat_eq_append, List.dropLast_concat, List.getLast?_concat, Option.toList_some]

theorem join_split (h : Canonical path) : join (split path).1 (split path).2 = path := by
  have hnamed := named_segments path
  have hdir : Named (segments path).dropLast := fun name hn => hnamed name (List.dropLast_subset _ hn)
  have hjoin := join_basename hdir hnamed
  rw [basename_ofSegments hnamed, dropLast_append_last, ← h.eq_ofSegments] at hjoin
  rw [split_eq, hjoin]

theorem split_join {parent name : String} (h : Canonical parent) (hname : isName name = true) :
    split (join parent name) = (parent,name) ∧ depth (join parent name) = depth parent + 1 := by
  have hsegments := segments_join parent hname
  constructor
  · rw [split_eq, hsegments, List.dropLast_concat, List.getLast?_concat, Option.getD_some, ← h.eq_ofSegments]
  · rw [depth_eq, depth_eq, hsegments, List.length_append, List.length_singleton]

/-- The node that is made for a path stands at its normal form. -/
theorem path_forPath (now : Timestamp) (path : String) (isDir : Bool) : (Node.forPath now path isDir).path = normalize path := by
  have hjoin := join_split (canonical_normalize path)
  rw [split_normalize] at hjoin
  have hnode : Node.forPath now path isDir =
      if (split path).2.isEmpty then Node.root now else Node.new now (split path).2 isDir (split path).1 := rfl
  by_cases hempty : (split path).2.isEmpty = true
  · have hroot := (normalize_eq_root_iff path).mpr ((split_name_isEmpty_iff path).mp hempty)
    rw [hnode, if_pos hempty, hroot]
    rfl
  · rw [hnode, if_neg hempty, Node.path, Node.new, if_neg hempty, hjoin]

/--
Normal forms are canonical and the canonical paths are those in normal form, so forming them is done once. Resolving what
is resolved changes nothing, and resolving a path with further steps is resolving it and then step after step. A directory
and a name in it make a canonical path, and every canonical path is made of its own; the node for a path stands at its
normal form.
-/
theorem canonical_action :
    (∀ path, Canonical (normalize path) ∧ normalize (normalize path) = normalize path) ∧
    (∀ path, Canonical path ↔ normalize path = path) ∧
    (∀ cwd path, resolve cwd (resolve cwd path) = resolve cwd path) ∧
    (∀ cwd path more, path ≠ "" → more.toList.head? ≠ some '/' →
      resolve cwd (path ++ "/" ++ more) = resolve (resolve cwd path) more) ∧
    (∀ cwd path steps, path ≠ "" → (∀ step ∈ steps, step.toList.head? ≠ some '/') →
      resolve cwd (onward path steps) = steps.foldl resolve (resolve cwd path)) ∧
    (∀ path, Canonical path → join (split path).1 (split path).2 = path) ∧
    (∀ parent name, Canonical parent → isName name = true →
      split (join parent name) = (parent,name) ∧ depth (join parent name) = depth parent + 1) ∧
    ∀ now path isDir, (Node.forPath now path isDir).path = normalize path := by
  refine ⟨fun path => ⟨canonical_normalize path,normalize_normalize path⟩,fun _ => canonical_iff,fun cwd path => ?_,?_,?_,
    fun _ => join_split,fun _ _ => split_join,path_forPath⟩
  · apply resolve_canonical
    rw [canonical_iff, normalize_resolve]
  · intro cwd path more hpath hmore
    exact resolve_append cwd hpath hmore
  · intro cwd path steps hpath hsteps
    exact resolve_onward cwd hpath hsteps

/-- Steps that lead up beyond the root and down again. -/
theorem steps_beyond_root :
    ("../.." : String) ≠ "" ∧ ("..//x" : String).toList.head? ≠ some '/' ∧
    (∀ step ∈ ["../x/.", "", "y/"], step.toList.head? ≠ some '/') ∧ Canonical "/x/y" ∧ isName "..." = true ∧
    resolve "/home" "../../..//x" = resolve (resolve "/home" "../..") "..//x" ∧
    resolve "/home" "../../../x/.//y/" = ["../x/.", "", "y/"].foldl resolve (resolve "/home" "../..") ∧
    resolve "/home" "../../../x/.//y/" = "/x/y" ∧ join (split "/x/y").1 (split "/x/y").2 = "/x/y" ∧
    split (join "/x/y" "...") = ("/x/y","...") := by
  obtain ⟨-,hiff,-,happend,hsteps,hjoin,hsplit,-⟩ := canonical_action
  have hcanonical : Canonical "/x/y" := (hiff "/x/y").mpr (by decide)
  have hstart : ("../.." : String) ≠ "" := by decide
  have hrelative : ∀ step ∈ ["../x/.", "", "y/"], step.toList.head? ≠ some '/' := by decide
  have hname : isName "..." = true := by decide
  exact ⟨hstart,by decide,hrelative,hcanonical,hname,happend "/home" "../.." "..//x" hstart (by decide),
    hsteps "/home" "../.." _ hstart hrelative,by decide,hjoin "/x/y" hcanonical,(hsplit "/x/y" "..." hcanonical hname).1⟩

end VirtualShell.Path
