import VirtualShell.Proofs.Storage.Contract

/-!
Cleaning up by single deletions: the search below the directory for temporary data finds every node there once, and
deleting these from the deepest on leaves nothing temporary. It takes no more than the contract of nodes.
-/
namespace VirtualShell

/-! ### The search -/

/-- The state of a search: directories whose children are still to be listed, and what was found. -/
structure Search (view : View) (stack found : List (List String)) : Prop where
  stack_nodup : stack.Nodup
  found_nodup : found.Nodup
  known : ∀ dir ∈ stack, dir = ["tmp"] ∨ dir ∈ found
  inside : ∀ names ∈ found, View.Temporary names ∧ (view names).isSome
  parent : ∀ dir name, dir ++ [name] ∈ found → (dir = ["tmp"] ∨ dir ∈ found) ∧ dir ∉ stack
  done : ∀ dir, dir = ["tmp"] ∨ dir ∈ found → dir ∉ stack → ∀ name, (view (dir ++ [name])).isSome → dir ++ [name] ∈ found

namespace Search
variable {view : View} {stack found : List (List String)} {dir : List String}

theorem start (view : View) : Search view [["tmp"]] [] where
  stack_nodup := List.nodup_singleton _
  found_nodup := .nil
  known dir h := .inl (List.mem_singleton.mp h)
  inside names h := by simp at h
  parent dir name h := by simp at h
  done dir h hn := by simp_all

private theorem tmp_ne (h : Search view (dir :: stack) found) (name : String) : dir ++ [name] ≠ ["tmp"] := by
  intro he
  have hnil : dir = [] := by
    cases dir with
    | nil => rfl
    | cons first rest => simp at he
  subst hnil
  rcases h.known [] (by simp) with hk | hk
  · simp at hk
  · obtain ⟨⟨more,_,hm⟩,_⟩ := h.inside [] hk
    simp at hm

/-- One step: the children of a directory are found, and those that are directories wait for their turn. -/
theorem step (hw : view.WellFormed) (h : Search view (dir :: stack) found) {names : List String}
    (hnames : view.Lists dir names) {dirs : List (List String)} (hnodup : dirs.Nodup)
    (hdirs : ∀ n, n ∈ dirs ↔ (∃ name ∈ names, n = dir ++ [name]) ∧ view n = some .dir) :
    Search view (dirs ++ stack) (found ++ names.map (dir ++ [·])) := by
  have hfresh (name : String) : dir ++ [name] ∉ found := fun hf => (h.parent dir name hf).2 (by simp)
  have hdir : dir ∉ stack := (List.nodup_cons.mp h.stack_nodup).1
  have hnew (n : List String) (hn : n ∈ dirs) : n ≠ ["tmp"] ∧ n ∉ found ∧ n ≠ dir := by
    obtain ⟨⟨name,_,rfl⟩,_⟩ := (hdirs n).mp hn
    exact ⟨tmp_ne h name,hfresh name,by simp⟩
  have hkids (n : List String) : n ∈ names.map (dir ++ [·]) ↔ ∃ name, n = dir ++ [name] ∧ (view n).isSome := by
    simp only [List.mem_map, hnames.2]
    constructor
    · rintro ⟨name,hn,rfl⟩
      exact ⟨name,rfl,hn⟩
    · rintro ⟨name,rfl,hn⟩
      exact ⟨name,hn,rfl⟩
  constructor
  case stack_nodup =>
    refine List.nodup_append.mpr ⟨hnodup,(List.nodup_cons.mp h.stack_nodup).2,?_⟩
    rintro n hn _ hs rfl
    rcases h.known n (by simp [hs]) with hk | hk
    · exact (hnew n hn).1 hk
    · exact (hnew n hn).2.1 hk
  case found_nodup =>
    have hmap : (names.map (dir ++ [·])).Nodup :=
      hnames.nodup.map fun a b he => by simpa using he
    refine List.nodup_append.mpr ⟨h.found_nodup,hmap,?_⟩
    rintro n hf _ hn rfl
    obtain ⟨name,rfl,_⟩ := (hkids n).mp hn
    exact hfresh name hf
  case known =>
    intro n hn
    rcases List.mem_append.mp hn with hn | hn
    · obtain ⟨⟨name,hm,rfl⟩,_⟩ := (hdirs n).mp hn
      exact .inr (List.mem_append_right _ (List.mem_map.mpr ⟨name,hm,rfl⟩))
    · exact (h.known n (by simp [hn])).imp_right (List.mem_append_left _)
  case inside =>
    intro n hn
    rcases List.mem_append.mp hn with hn | hn
    · exact h.inside n hn
    · obtain ⟨name,rfl,hs⟩ := (hkids n).mp hn
      refine ⟨?_,hs⟩
      rcases h.known dir (by simp) with rfl | hk
      · exact ⟨[name],by simp,rfl⟩
      · obtain ⟨⟨more,_,rfl⟩,_⟩ := h.inside dir hk
        exact ⟨more ++ [name],by simp,by simp⟩
  case parent =>
    intro d name hn
    rcases List.mem_append.mp hn with hn | hn
    · obtain ⟨hk,hs⟩ := h.parent d name hn
      refine ⟨hk.imp_right (List.mem_append_left _),fun hm => ?_⟩
      rcases List.mem_append.mp hm with hm | hm
      · rcases hk with hk | hk
        · exact (hnew d hm).1 hk
        · exact (hnew d hm).2.1 hk
      · exact hs (by simp [hm])
    · obtain ⟨_,he,_⟩ := (hkids _).mp hn
      obtain rfl := List.append_inj_left' he rfl
      refine ⟨(h.known d (by simp)).imp_right (List.mem_append_left _),fun hm => ?_⟩
      rcases List.mem_append.mp hm with hm | hm
      · exact (hnew d hm).2.2 rfl
      · exact hdir hm
  case done =>
    intro d hk hs name hsome
    by_cases hd : d = dir
    · subst hd
      exact List.mem_append_right _ ((hkids _).mpr ⟨name,rfl,hsome⟩)
    have hold (hk : d = ["tmp"] ∨ d ∈ found) : d ++ [name] ∈ found :=
      h.done d hk (fun hm => (List.mem_cons.mp hm).elim hd fun hm => hs (List.mem_append_right _ hm)) name hsome
    rcases hk with hk | hk
    · exact List.mem_append_left _ (hold (.inl hk))
    rcases List.mem_append.mp hk with hk | hk
    · exact List.mem_append_left _ (hold (.inr hk))
    · -- a child that does not wait is no directory, so nothing lies below it
      obtain ⟨n,rfl,hn⟩ := (hkids d).mp hk
      refine absurd (hw.parent _ _ hsome) fun hdir => hs (List.mem_append_left _ ((hdirs _).mpr ⟨⟨n,?_,rfl⟩,hdir⟩))
      exact (hnames.2 n).mpr hn

/-- A search never finds more than there is. -/
theorem length_le (h : Search view stack found) {entries : List (List String)}
    (hmem : ∀ names, names ∈ entries ↔ (view.temporary names).isSome) : found.length ≤ entries.length := by
  apply (h.found_nodup.subperm fun names hn => ?_).length_le
  rw [hmem, View.temporary, if_pos (h.inside names hn).1]
  exact (h.inside names hn).2

/-- A search with nothing left to list has found all that is temporary. -/
theorem complete (hw : view.WellFormed) (h : Search view [] found) (names : List String) :
    names ∈ found ↔ (view.temporary names).isSome := by
  constructor
  · intro hn
    obtain ⟨ht,hs⟩ := h.inside names hn
    rwa [View.temporary, if_pos ht]
  · intro hs
    by_cases ht : View.Temporary names
    · rw [View.temporary, if_pos ht] at hs
      obtain ⟨more,hm,rfl⟩ := ht
      induction more using List.reverseRecOn with
      | nil => exact absurd rfl hm
      | append_singleton more name ih =>
        have hparent := hw.parent ("tmp" :: more) name (by simpa using hs)
        rw [← List.cons_append]
        refine h.done ("tmp" :: more) ?_ (by simp) name (by simpa using hs)
        by_cases hnil : more = []
        · exact .inl (by simp [hnil])
        · exact .inr (ih hnil (by simp [hparent]))
    · simp [View.temporary, ht] at hs

end Search

/-! ### Nodes -/

/-- The chain of names that a node stands at. -/
def Node.chain (node : Node) : List String := Path.segments node.path

/-- The node is one that the view has. -/
def View.Shows (view : View) (node : Node) : Prop :=
  Path.Named node.chain ∧ ∃ item, view node.chain = some item ∧ node.untimed = View.node node.chain item

theorem Node.path_of_untimed {node : Node} {names : List String} {item : Item}
    (h : node.untimed = View.node names item) (hn : Path.Named names) : node.path = Path.ofSegments names := by
  have hname : node.name = names.getLast?.getD "" := congrArg Node.name h
  have hparent : node.parentPath = if names.isEmpty then "" else Path.ofSegments names.dropLast :=
    congrArg Node.parentPath h
  rcases List.eq_nil_or_concat names with rfl | ⟨dir,name,rfl⟩
  · simp [Node.path, hname, Path.ofSegments_nil]
  · rw [List.concat_eq_append] at hname hparent hn ⊢
    rw [List.getLast?_append, List.getLast?_singleton, Option.some_or, Option.getD_some] at hname
    rw [if_neg (by simp), List.dropLast_concat] at hparent
    obtain ⟨hd,hn⟩ := Path.named_concat.mp hn
    rw [Node.path, hname, hparent, Path.name_nonempty hn, if_neg (by simp), Path.join_ofSegments hd hn]

private theorem shows_of_node? {view : View} (hw : view.WellFormed) {node : Node} {names : List String}
    (h : some node.untimed = view.node? names) :
    node.chain = names ∧ node.path = Path.ofSegments names ∧ view.Shows node := by
  obtain ⟨item,hi,hnode⟩ := Option.map_eq_some_iff.mp h.symm
  have hn := hw.named names (by simp [hi])
  have hpath := Node.path_of_untimed hnode.symm hn
  have hchain : node.chain = names := by rw [Node.chain, hpath, Path.segments_ofSegments hn]
  exact ⟨hchain,hpath,by rw [hchain]; exact hn,item,by rw [hchain]; exact hi,by rw [hchain]; exact hnode.symm⟩

/-- With the children of a directory a search goes on: they are found, and those that are directories wait for their turn. -/
def Search.Onward (view : View) (stack : List (List String)) (found : List Node) (children : List (String × Node)) : Prop :=
  ∃ next : List (List String), ((children.filter fun child => child.2.isDir).map Prod.fst).reverse ++ stack.map Path.ofSegments =
      next.map Path.ofSegments ∧ (∀ dir ∈ next, Path.Named dir) ∧
    Search view next ((found ++ children.map Prod.snd).map Node.chain) ∧
    (∀ node ∈ found ++ children.map Prod.snd, view.Shows node) ∧ next.length ≤ children.length + stack.length

/-! ### What deletions leave -/

/-- How the numbers of a cleanup grow when an item is deleted. -/
structure Item.Counted (item : Item) (done count : CleanupStats) : Prop where
  files : count.filesRemoved = done.filesRemoved + if item.isDir then 0 else 1
  le : count.bytesFreed ≤ done.bytesFreed + item.bytes
  mod : count.bytesFreed % 2 ^ 64 = (done.bytesFreed + item.bytes) % 2 ^ 64

theorem Item.counted_dir (done : CleanupStats) : Item.dir.Counted done done := ⟨rfl,le_rfl,rfl⟩

theorem Item.counted_file (content : String) (done : CleanupStats) : (Item.file content).Counted done
    ⟨done.filesRemoved + 1,addBytes done.bytesFreed (((Item.file content).size.getD 0).toNat)⟩ := by
  refine ⟨rfl,?_,?_⟩
  · simp [Item.size, Item.bytes, addBytes]
    omega
  · simp [Item.size, Item.bytes, addBytes]

namespace View
variable {view after : View} {node : Node} {nodes : List Node}

/-- What deleting the nodes at some chains leaves, and how the numbers grow. -/
def Clears (view : View) (chains : List (List String)) (done total : CleanupStats) (after : View) : Prop :=
  (∀ names, after names = if names ∈ chains then none else view names) ∧
    let entries := chains.filterMap fun n => (view n).map (n,·)
    total.filesRemoved = done.filesRemoved + View.fileCount entries ∧
      total.bytesFreed ≤ done.bytesFreed + View.byteCount entries ∧
      total.bytesFreed % 2 ^ 64 = (done.bytesFreed + View.byteCount entries) % 2 ^ 64

theorem Clears.cons {first : List String} {rest : List (List String)} {item : Item} {done count total : CleanupStats}
    (hitem : view first = some item) (hnew : first ∉ rest) (hcounted : item.Counted done count)
    (h : (view.set first none).Clears rest count total after) : view.Clears (first :: rest) done total after := by
  obtain ⟨hview,hfiles,hle,hmod⟩ := h
  have hentries : (rest.filterMap fun n => (view.set first none n).map (n,·)) = rest.filterMap fun n => (view n).map (n,·) :=
    List.filterMap_congr fun n hn => by rw [set_ne view none (ne_of_mem_of_not_mem hn hnew)]
  rw [hentries] at hfiles hle hmod
  obtain ⟨hfiles',hle',hmod'⟩ := hcounted
  refine ⟨fun n => ?_,?_⟩
  · rw [hview, set_apply]
    by_cases hfirst : n = first <;> by_cases hrest : n ∈ rest <;> simp [hfirst, hrest]
  · simp only [List.filterMap_cons, hitem, Option.map_some, fileCount_cons, byteCount_cons]
    exact ⟨by omega,by omega,by omega⟩

/-- Nodes that the view has, each once and from the deepest on, with all that is below them. -/
structure Deletable (view : View) (nodes : List Node) : Prop where
  shows : ∀ node ∈ nodes, view.Shows node
  nodup : (nodes.map Node.chain).Nodup
  root : ∀ node ∈ nodes, node.chain ≠ []
  deep : nodes.Pairwise fun a b => b.chain.length ≤ a.chain.length
  closed : ∀ node ∈ nodes, ∀ name, (view (node.chain ++ [name])).isSome → node.chain ++ [name] ∈ nodes.map Node.chain

namespace Deletable

theorem canDelete (h : view.Deletable (node :: nodes)) : view.CanDelete node.chain := by
  obtain ⟨_,item,hitem,_⟩ := h.shows node List.mem_cons_self
  refine ⟨h.root node List.mem_cons_self,by simp [hitem],fun name => ?_⟩
  -- a child would stand later in the list, where nothing is deeper
  by_contra hchild
  have hmem := h.closed node List.mem_cons_self name (Option.isSome_iff_ne_none.mpr hchild)
  obtain hself | hlater := List.mem_cons.mp hmem
  · simp at hself
  · obtain ⟨child,hc,he⟩ := List.mem_map.mp hlater
    have hle := (List.pairwise_cons.mp h.deep).1 child hc
    rw [he, List.length_append, List.length_singleton] at hle
    omega

theorem notMem (h : view.Deletable (node :: nodes)) : node.chain ∉ nodes.map Node.chain := (List.nodup_cons.mp h.nodup).1

/-- When the first node is deleted, the others can be. -/
theorem tail (h : view.Deletable (node :: nodes)) : (view.set node.chain none).Deletable nodes := by
  refine ⟨fun other ho => ?_,(List.nodup_cons.mp h.nodup).2,fun other ho => h.root other (List.mem_cons_of_mem _ ho),
    h.deep.of_cons,fun other ho name hsome => ?_⟩
  · obtain ⟨hnamed,item,hitem,hnode⟩ := h.shows other (List.mem_cons_of_mem _ ho)
    have hne : other.chain ≠ node.chain := fun he => h.notMem (he ▸ List.mem_map_of_mem ho)
    exact ⟨hnamed,item,by rwa [set_ne _ _ hne],hnode⟩
  · have hne : other.chain ++ [name] ≠ node.chain := fun he => by simp [he] at hsome
    rw [set_ne _ _ hne] at hsome
    exact (List.mem_cons.mp (h.closed other (List.mem_cons_of_mem _ ho) name hsome)).resolve_left hne

end Deletable
end View

namespace Storage
variable {σ : Type} [Storage σ] [LawfulNodes σ] {s : σ}
open Viewed

/-- The nodes of names that are all there are found. -/
theorem lookUp_meets (hs : Sound s) {dir : List String} (hd : Path.Named dir) {names : List String}
    (hnames : ∀ name ∈ names, (view s (dir ++ [name])).isSome) :
    (lookUp (Path.ofSegments dir) names).Meets s fun children after => after = view s ∧
      (children.map fun child => child.2.chain) = names.map (dir ++ [·]) ∧
      ∀ child ∈ children, child.1 = Path.ofSegments child.2.chain ∧ (view s).Shows child.2 := by
  induction names generalizing s with
  | nil => exact .pure ⟨hs,rfl,rfl,by simp⟩
  | cons name names ih =>
    have hsome := hnames name (by simp)
    have hw := LawfulNodes.wellFormed hs
    have hn := Path.named_concat.mp (hw.named _ hsome)
    refine (LawfulNodes.info (Path.join (Path.ofSegments dir) name) hs).bind fun node after hinfo => ?_
    obtain ⟨hs',hv,hnode⟩ := hinfo
    rw [Path.segments_join _ hn.2, Path.segments_ofSegments hd] at hnode
    cases node with
    | none => simp [View.node?, Option.isSome_iff_exists] at hnode hsome; simp_all
    | some node =>
      obtain ⟨hchain,hpath,hshows⟩ := shows_of_node? hw hnode
      refine (ih hs' (fun n hn => by rw [hv]; exact hnames n (by simp [hn]))).bind fun children last hrest => ?_
      obtain ⟨hl,hv',hmap,hall⟩ := hrest
      refine .pure ⟨hl,hv'.trans hv,?_,?_⟩
      · simp [hmap, hchain]
      · intro child hc
        rcases List.mem_cons.mp hc with rfl | hc
        · exact ⟨by rw [Path.join_ofSegments hd hn.2, hchain],hshows⟩
        · exact ⟨(hall child hc).1,hv ▸ (hall child hc).2⟩

/-- The nodes in a directory. -/
def nodesIn (dir : String) : Storing σ (List (String × Node)) := do
  lookUp dir (← list dir)

/-- A search goes on with what is in a directory that waited for its turn. -/
theorem nodesIn_meets (hs : Sound s) {dir : List String} {stack : List (List String)} {found : List Node}
    (hstack : ∀ d ∈ dir :: stack, Path.Named d) (hsearch : Search (view s) (dir :: stack) (found.map Node.chain))
    (hshows : ∀ node ∈ found, (view s).Shows node) :
    (nodesIn (Path.ofSegments dir)).Meets s fun children after => after = view s ∧ Search.Onward (view s) stack found children := by
  have hd := hstack dir List.mem_cons_self
  have hw := LawfulNodes.wellFormed hs
  refine (LawfulNodes.list (Path.ofSegments dir) hs).bind fun names after ⟨hs1,hv1,hl⟩ => ?_
  rw [Path.segments_ofSegments hd] at hl
  refine (lookUp_meets hs1 hd (fun name hm => by rw [hv1]; exact (hl.2 name).mp hm)).mono fun children last hlast => ?_
  obtain ⟨hs2,hv2,hmap,hall⟩ := hlast
  rw [hv1] at hall
  let dirs := (children.filter fun child => child.2.isDir).map fun child => child.2.chain
  have hkids (n : List String) : n ∈ names.map (dir ++ [·]) ↔ ∃ child ∈ children, child.2.chain = n := by
    rw [← hmap, List.mem_map]
  have hisDir (child : String × Node) (hc : child ∈ children) :
      child.2.isDir = true ↔ view s child.2.chain = some .dir := by
    obtain ⟨_,item,hi,hnode⟩ := (hall child hc).2
    have hdir : child.2.isDir = item.isDir := congrArg Node.isDir hnode
    rw [hdir, hi, Item.isDir_iff, Option.some.injEq]
  have hdirs (n : List String) : n ∈ dirs ↔ (∃ name ∈ names, n = dir ++ [name]) ∧ view s n = some .dir := by
    have hkid : (∃ name ∈ names, n = dir ++ [name]) ↔ n ∈ names.map (dir ++ [·]) := by simp [eq_comm]
    rw [hkid, hkids]
    simp only [dirs, List.mem_map, List.mem_filter]
    constructor
    · rintro ⟨child,⟨hc,hd⟩,rfl⟩
      exact ⟨⟨child,hc,rfl⟩,(hisDir child hc).mp hd⟩
    · rintro ⟨⟨child,hc,rfl⟩,hd⟩
      exact ⟨child,⟨hc,(hisDir child hc).mpr hd⟩,rfl⟩
  have hpaths : (children.filter fun child => child.2.isDir).map Prod.fst = dirs.map Path.ofSegments := by
    rw [List.map_map]
    exact List.map_congr_left fun child hc => (hall child (List.mem_of_mem_filter hc)).1
  have hdirsNodup : dirs.Nodup := by
    have hall : (children.map fun child => child.2.chain).Nodup := by
      rw [hmap]
      exact hl.nodup.map fun a b he => by simpa using he
    exact hall.sublist (List.filter_sublist.map _)
  refine ⟨hs2,hv2.trans hv1,dirs.reverse ++ stack,?_,fun d hm => ?_,?_,fun node hm => ?_,?_⟩
  · rw [hpaths, ← List.map_reverse, ← List.map_append]
  · rcases List.mem_append.mp hm with hm | hm
    · obtain ⟨_,hd⟩ := (hdirs d).mp (List.mem_reverse.mp hm)
      exact hw.named d (by simp [hd])
    · exact hstack d (List.mem_cons_of_mem _ hm)
  · have hnext := hsearch.step hw hl (List.nodup_reverse.mpr hdirsNodup) fun n => by rw [List.mem_reverse, hdirs]
    rw [List.map_append, List.map_map]
    rwa [show Node.chain ∘ Prod.snd = fun child : String × Node => child.2.chain from rfl, hmap]
  · rcases List.mem_append.mp hm with hm | hm
    · exact hshows node hm
    · obtain ⟨child,hc,rfl⟩ := List.mem_map.mp hm
      exact (hall child hc).2
  · rw [List.length_append, List.length_reverse]
    exact Nat.add_le_add_right (by simpa [dirs] using List.length_filter_le _ children) _

omit [LawfulNodes σ] in
theorem descend_cons (fuel : Nat) (dir : String) (stack : List String) (found : List Node) :
    (descend (fuel + 1) (dir :: stack) found : Storing σ (List Node)) = (do
      let children ← nodesIn dir
      descend fuel (((children.filter fun child => child.2.isDir).map Prod.fst).reverse ++ stack) (found ++ children.map Prod.snd)) :=
  (bind_assoc _ _ _).symm

/-- Enough fuel for all nodes that are not yet found lets a search come to its end. -/
theorem descend_meets (hs : Sound s) {entries : List (List String)}
    (hmem : ∀ n, n ∈ entries ↔ ((view s).temporary n).isSome) (fuel : Nat) (stack : List (List String)) (found : List Node)
    (hstack : ∀ dir ∈ stack, Path.Named dir) (hsearch : Search (view s) stack (found.map Node.chain))
    (hshows : ∀ node ∈ found, (view s).Shows node) (hfuel : stack.length + entries.length ≤ fuel + found.length) :
    (descend fuel (stack.map Path.ofSegments) found).Meets s fun nodes after => after = view s ∧
      Search (view s) [] (nodes.map Node.chain) ∧ ∀ node ∈ nodes, (view s).Shows node := by
  induction fuel generalizing s stack found with
  | zero =>
    have hlength := hsearch.length_le hmem
    rw [List.length_map] at hlength
    have hnil : stack = [] := List.eq_nil_of_length_eq_zero (by omega)
    subst hnil
    exact .pure ⟨hs,rfl,hsearch,hshows⟩
  | succ fuel ih =>
    cases stack with
    | nil => exact .pure ⟨hs,rfl,hsearch,hshows⟩
    | cons dir stack =>
      rw [List.map_cons, descend_cons]
      refine (nodesIn_meets hs hstack hsearch hshows).bind fun children after hafter => ?_
      obtain ⟨hs',hv,next,hnext,hnamed,hsearch',hshows',hlength⟩ := hafter
      rw [hnext, ← hv]
      refine ih hs' (by rw [hv]; exact hmem) _ _ hnamed (by rw [hv]; exact hsearch') (by rw [hv]; exact hshows') ?_
      rw [List.length_cons] at hfuel
      rw [List.length_append, List.length_map]
      omega

/-- Deleting nodes from the deepest on takes all of them, if everything below them is among them. -/
theorem deleteAll_meets (hs : Sound s) {nodes : List Node} (h : (view s).Deletable nodes) (done : CleanupStats) :
    (deleteAll nodes done).Meets s ((view s).Clears (nodes.map Node.chain) done) := by
  induction nodes generalizing s done with
  | nil => exact .pure ⟨hs,by simp,rfl,le_refl _,rfl⟩
  | cons node nodes ih =>
    obtain ⟨_,item,hitem,hnode⟩ := h.shows node List.mem_cons_self
    refine (LawfulNodes.delete node.path hs).bind fun deleted after hafter => ?_
    obtain ⟨hs',hdone,hv⟩ := hafter
    obtain rfl : deleted = true := hdone.mpr h.canDelete
    rw [if_pos rfl, ← Node.chain] at hv
    have hrest {count : CleanupStats} (hcounted : item.Counted done count) :
        (deleteAll nodes count).Meets after ((view s).Clears (node.chain :: nodes.map Node.chain) done) :=
      (ih hs' (hv ▸ h.tail) count).mono fun total last ⟨hlast,hclears⟩ =>
        ⟨hlast,.cons hitem h.notMem hcounted (hv ▸ hclears)⟩
    have hdir : node.isDir = item.isDir := congrArg Node.isDir hnode
    have hsize : node.size = item.size := congrArg Node.size hnode
    cases item with
    | dir =>
      rw [if_neg (by simp [hdir, Item.isDir])]
      exact hrest (Item.counted_dir done)
    | file content =>
      rw [if_pos (by simp [hdir, Item.isDir]), hsize]
      exact hrest (Item.counted_file content done)

theorem tempDescendants_meets (hs : Sound s) :
    (tempDescendants : Storing σ (List Node)).Meets s fun nodes after => after = view s ∧
      (nodes.map Node.chain).Nodup ∧ (∀ n, n ∈ nodes.map Node.chain ↔ ((view s).temporary n).isSome) ∧
      (∀ node ∈ nodes, (view s).Shows node) ∧ nodes.Pairwise fun a b => b.chain.length ≤ a.chain.length := by
  obtain ⟨all,hall⟩ := (LawfulNodes.wellFormed hs).exists_enumeration
  have htemporary := hall.temporary
  have hmem (n : List String) : n ∈ (all.filter fun entry => View.Temporary entry.1).map Prod.fst ↔
      ((view s).temporary n).isSome := by
    rw [Option.isSome_iff_exists, List.mem_map]
    constructor
    · rintro ⟨⟨n,item⟩,hm,rfl⟩
      exact ⟨item,(htemporary.2 n item).mp hm⟩
    · rintro ⟨item,hi⟩
      exact ⟨(n,item),(htemporary.2 n item).mpr hi,rfl⟩
  have hlength := LawfulNodes.length_le_capacity hs _ htemporary.1 fun n hn => by
    have hsome := (hmem n).mp hn
    rw [View.temporary] at hsome
    split at hsome
    · exact hsome
    · simp at hsome
  refine (Storing.Yields.get (R := fun store after => store = s ∧ after = s) ⟨rfl,rfl⟩).bind ?_
  rintro store after ⟨hstore,hafter⟩
  rw [hstore, hafter]
  have hdescend := descend_meets hs hmem (capacity s + 1) [["tmp"]] [] (by simp; decide)
    (Search.start _) (by simp) (by simp only [List.length_cons, List.length_nil]; omega)
  refine Storing.Yields.bind hdescend fun nodes after hafter => ?_
  obtain ⟨hs',hv,hsearch,hshows⟩ := hafter
  refine .pure ⟨hs',hv,?_,?_,?_,?_⟩
  · rw [((List.mergeSort_perm nodes _).map Node.chain).nodup_iff]
    exact hsearch.found_nodup
  · intro n
    rw [((List.mergeSort_perm nodes _).map Node.chain).mem_iff]
    exact hsearch.complete (LawfulNodes.wellFormed hs) n
  · intro node hm
    exact hshows node (List.mem_mergeSort.mp hm)
  · have hpairs : (nodes.mergeSort fun a b => decide (Path.depth b.path ≤ Path.depth a.path)).Pairwise fun a b =>
        decide (Path.depth b.path ≤ Path.depth a.path) = true := List.pairwise_mergeSort
      (by simpa using fun a b c : Node => fun h1 h2 => le_trans h2 h1)
      (by simpa using fun a b : Node => le_total (Path.depth b.path) (Path.depth a.path)) nodes
    simpa [Path.depth_eq, Node.chain] using hpairs

/-- Cleaning up by single deletions does what cleaning up is to do. -/
theorem cleanupByDelete_meets (hs : Sound s) : (cleanupByDelete : Storing σ CleanupStats).Meets s (view s).CleansUp := by
  have hw := LawfulNodes.wellFormed hs
  refine (tempDescendants_meets hs).bind fun nodes after hafter => ?_
  obtain ⟨hs',hv,hnodup,hmem,hshows,hdeep⟩ := hafter
  have htemp (n : List String) (hn : n ∈ nodes.map Node.chain) : View.Temporary n := by
    by_contra ht
    have hsome := (hmem n).mp hn
    simp [View.temporary, ht] at hsome
  have hdeletable : (view s).Deletable nodes := by
    refine ⟨hshows,hnodup,fun node hm => ?_,hdeep,fun node hm name hsome => ?_⟩
    · obtain ⟨more,_,he⟩ := htemp _ (List.mem_map_of_mem hm)
      simp [he]
    · obtain ⟨more,_,he⟩ := htemp _ (List.mem_map_of_mem hm)
      rwa [hmem, View.temporary, if_pos ⟨more ++ [name],by simp,by simp [he]⟩]
  refine (deleteAll_meets hs' (hv ▸ hdeletable) ⟨0,0⟩).mono fun total last hlast => ?_
  obtain ⟨hs'',hview,hfiles,hle,hmod⟩ := hlast
  refine ⟨hs'',?_,_,View.enumerates_of_names hnodup hmem,?_⟩
  · funext n
    rw [hview, View.cleared, hv]
    by_cases ht : View.Temporary n
    · rw [if_pos ht]
      split
      · rfl
      · rename_i hn
        rw [hmem, View.temporary, if_pos ht] at hn
        simpa using hn
    · rw [if_neg ht, if_neg fun hn => ht (htemp n hn)]
  · have hentries : ((nodes.map Node.chain).filterMap fun n => (view after n).map (n,·)) =
        (nodes.map Node.chain).filterMap fun n => ((view s).temporary n).map (n,·) :=
      List.filterMap_congr fun n hm => by rw [hv, View.temporary, if_pos (htemp n hm)]
    rw [hentries] at hfiles hle hmod
    exact ⟨by simpa using hfiles,by simpa using hle,by simpa using hmod⟩

end Storage
end VirtualShell
