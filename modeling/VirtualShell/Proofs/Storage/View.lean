import Mathlib.Algebra.Ring.Nat
import Mathlib.Data.List.Sort
import Mathlib.Data.Set.Finite.Basic
import Mathlib.Order.Interval.Set.Infinite
import VirtualShell.Proofs.Path.Segments
import VirtualShell.Proofs.Storage.Outcome

/-!
What a store holds, whatever form it keeps it in: for every chain of names a directory, a file with its content,
or nothing. Times are left out. The calls of a store are specified by what they answer about such a view and
how they change it.
-/
namespace VirtualShell

/-- What stands at a path, apart from its times. -/
inductive Item where
  | dir
  | file (content : String)
  deriving DecidableEq

namespace Item

def isDir : Item → Bool
  | dir => true
  | file _ => false

def content? : Item → Option String
  | dir => none
  | file content => some content

def bytes : Item → Nat
  | dir => 0
  | file content => content.utf8ByteSize

def size : Item → Option UInt64
  | dir => none
  | file content => some content.utf8ByteSize.toUInt64

/-- A new item: a file starts empty. -/
def new (isDir : Bool) : Item := if isDir then dir else file ""

@[simp] theorem isDir_new (b : Bool) : (new b).isDir = b := by cases b <;> rfl

theorem isDir_iff (item : Item) : item.isDir = true ↔ item = dir := by cases item <;> simp [isDir]

end Item

namespace Node

/-- A node without its times. -/
def untimed (node : Node) : Node := { node with createdAt := 0, modifiedAt := 0 }

/-- The chain of names at which a node is created. -/
def target (node : Node) : List String := Path.segments node.parentPath ++ [node.name]

/-- A size is given for files only. -/
def Sized (node : Node) : Prop := node.isDir = true → node.size = none

/-- The node without a size, if it is a directory. -/
def trimmed (node : Node) : Node := { node with size := if node.isDir then none else node.size }

theorem trimmed_of_dir {node : Node} (h : node.isDir = true) : node.trimmed = { node with size := none } := by
  rw [trimmed, if_pos h]

theorem trimmed_of_sized {node : Node} (h : node.Sized) : node.trimmed = node := by
  rw [trimmed]
  split
  · rw [← h ‹_›]
  · rfl

theorem trimmed_of_file {node : Node} (h : node.isDir = false) : node.trimmed = node :=
  trimmed_of_sized fun hd => absurd (h.symm.trans hd) (by simp)

theorem sized_trimmed (node : Node) : node.trimmed.Sized := by
  intro hd
  rw [trimmed] at hd ⊢
  exact if_pos hd

theorem sized_new (now : Timestamp) (name : String) (isDir : Bool) (parent : String) : (new now name isDir parent).Sized := by
  intro h
  simp only [new] at h ⊢
  simp [h]

theorem sized_forPath (now : Timestamp) (path : String) (isDir : Bool) : (forPath now path isDir).Sized := by
  unfold forPath
  split
  split
  · exact sized_new _ _ _ _
  · exact sized_new _ _ _ _

/-- The path of a node with a proper name leads to its target, however its parent is written. -/
theorem segments_path (node : Node) (h : Path.isName node.name = true) : Path.segments node.path = node.target := by
  rw [path, Path.name_nonempty h, target]
  exact Path.segments_join _ h

/-- The path of a node under a parent in normal form. -/
theorem path_placed {node : Node} (h : Path.isName node.name = true) :
    ({ node with parentPath := Path.normalize node.parentPath } : Node).path = Path.normalize node.path := by
  rw [Path.normalize_eq node.path, node.segments_path h, path, if_neg (by simp [Path.name_nonempty h]), Path.normalize_eq,
    Path.join_ofSegments (Path.named_segments _) h, target]

theorem segments_forPath (now : Timestamp) (path : String) (isDir : Bool) :
    Path.segments (forPath now path isDir).path = Path.segments path := by
  have hempty := Path.split_name_isEmpty_iff path
  rcases List.eq_nil_or_concat (Path.segments path) with hs | ⟨dir,name,hs⟩
  · simp only [forPath, hempty.mpr hs, if_true]
    rw [hs]
    exact Path.segments_root
  · rw [List.concat_eq_append] at hs
    have hnamed := Path.named_concat.mp (hs ▸ Path.named_segments path)
    have hsplit : Path.split path = (Path.ofSegments dir, name) := by rw [Path.split_eq, hs]; simp
    simp only [forPath, hsplit, Path.name_nonempty hnamed.2, Bool.false_eq_true, if_false]
    rw [segments_path _ hnamed.2, hs]
    simp [target, new, Path.segments_ofSegments hnamed.1]

end Node

/-- The item at each chain of names. -/
abbrev View := List String → Option Item

namespace View

/-- The node that stands for an item, without times. -/
def node (names : List String) (item : Item) : Node :=
  ⟨names.getLast?.getD "", item.isDir, if names.isEmpty then "" else Path.ofSegments names.dropLast, 0, 0, item.size⟩

/-- A node that stands for an item has a size only if that is a file. -/
theorem sized_of_untimed {node : Node} {names : List String} {item : Item} (h : node.untimed = View.node names item) :
    node.Sized := by
  intro hd
  have hdir : node.isDir = item.isDir := congrArg Node.isDir h
  have hsize : node.size = item.size := congrArg Node.size h
  rw [hsize, (item.isDir_iff).mp (hdir.symm.trans hd)]
  rfl

/-- A new node is at its target, given a parent in normal form and the size of what is empty. -/
theorem untimed_created {node created : Node} (hname : created.name = node.name) (hdir : created.isDir = node.isDir)
    (hparent : created.parentPath = Path.normalize node.parentPath)
    (hsize : created.size = (Item.new node.isDir).size) :
    created.untimed = View.node node.target (.new node.isDir) := by
  simp [Node.untimed, View.node, Node.target, hname, hdir, hparent, hsize, Path.normalize_eq]

/-- Rewriting a file keeps its node in place. -/
theorem untimed_rewritten {node : Node} {names : List String} {old : String}
    (h : node.untimed = View.node names (.file old)) (now : Timestamp) (content : String) :
    ({ node with size := some content.utf8ByteSize.toUInt64, modifiedAt := now } : Node).untimed =
      View.node names (.file content) := by
  simp only [Node.untimed, View.node, Node.mk.injEq] at h ⊢
  exact ⟨h.1,h.2.1,h.2.2.1,trivial,trivial,rfl⟩

def node? (view : View) (names : List String) : Option Node := (view names).map (node names)

def content? (view : View) (names : List String) : Option String := (view names).bind Item.content?

theorem untimed_node? (view : View) (names : List String) : (view.node? names).map Node.untimed = view.node? names := by
  rw [node?, Option.map_map]
  rfl

theorem any_isDir_iff {view : View} {names : List String} {node : Option Node} (h : node.map Node.untimed = view.node? names) :
    node.any Node.isDir = true ↔ view names = some .dir := by
  have hdir : node.map Node.isDir = (view names).map Item.isDir := by
    have hmap := congrArg (Option.map Node.isDir) h
    rwa [node?, Option.map_map, Option.map_map] at hmap
  cases hv : view names with
  | none =>
    rw [hv, Option.map_none, Option.map_eq_none_iff] at hdir
    simp [hdir]
  | some item =>
    rw [hv, Option.map_some, Option.map_eq_some_iff] at hdir
    obtain ⟨node,rfl,hd⟩ := hdir
    simp [hd, Item.isDir_iff]

/-- The tree that a store holds: the root is a directory, and so is the parent of everything else. -/
structure WellFormed (view : View) : Prop where
  root : view [] = some .dir
  named : ∀ names, (view names).isSome → Path.Named names
  parent : ∀ names name, (view (names ++ [name])).isSome → view names = some .dir
  finite : {names | (view names).isSome}.Finite

/-- Only the root. -/
def bare : View := fun names => if names = [] then some .dir else none

/-- The view with an item in place of the one at a chain of names. -/
def set (view : View) (names : List String) (item : Option Item) : View := Function.update view names item

theorem set_apply (view : View) (names other : List String) (item : Option Item) :
    view.set names item other = if other = names then item else view other := by
  simp [set, Function.update_apply]

@[simp] theorem set_self (view : View) (names : List String) (item : Option Item) : view.set names item names = item := by
  simp [set]

theorem set_ne (view : View) {names other : List String} (item : Option Item) (h : other ≠ names) :
    view.set names item other = view other := by
  simp [set, h]

theorem set_set (view : View) (names : List String) (a b : Option Item) : (view.set names a).set names b = view.set names b := by
  simp [set]

theorem set_eq_self {view : View} {names : List String} {item : Option Item} (h : view names = item) :
    view.set names item = view :=
  h ▸ Function.update_eq_self names view

theorem wellFormed_bare : bare.WellFormed where
  root := by simp [bare]
  named names h := by
    by_cases hn : names = []
    · subst hn; exact Path.named_nil
    · simp [bare, hn] at h
  parent names name h := by simp [bare] at h
  finite := by
    apply (Set.finite_singleton []).subset
    intro names h
    by_contra hn
    simp only [Set.mem_ofPred_eq, bare] at h
    rw [if_neg (by simpa using hn)] at h
    exact absurd h (by simp)

namespace WellFormed
variable {view : View}

/-- Nothing lies below a file, or below nothing. -/
theorem none_below (h : view.WellFormed) {names : List String} (hn : view names ≠ some .dir) (name : String) :
    view (names ++ [name]) = none := by
  by_contra hs
  exact hn (h.parent names name (Option.isSome_iff_ne_none.mpr hs))

/-- Whatever lies on the way to an item is a directory. -/
theorem ancestor (h : view.WellFormed) {names more : List String} (hm : more ≠ [])
    (hs : (view (names ++ more)).isSome) : view names = some .dir := by
  induction more using List.reverseRecOn with
  | nil => exact absurd rfl hm
  | append_singleton more name ih =>
    have hp := h.parent (names ++ more) name (by simpa using hs)
    by_cases hnil : more = []
    · subst hnil; simpa using hp
    · exact ih hnil (by simp [hp])

/-- Where nothing stands, nothing lies further below. -/
theorem none_under (h : view.WellFormed) {names : List String} (hn : view names = none) (more : List String) :
    view (names ++ more) = none := by
  by_cases hm : more = []
  · rw [hm, List.append_nil, hn]
  · by_contra hs
    rw [h.ancestor hm (Option.isSome_iff_ne_none.mpr hs)] at hn
    exact absurd hn (by simp)

private theorem finite_set (h : view.WellFormed) (names : List String) (item : Option Item) :
    {other | (view.set names item other).isSome}.Finite := by
  apply (h.finite.insert names).subset
  intro other ho
  by_cases he : other = names
  · exact .inl he
  · refine .inr ?_
    rwa [Set.mem_ofPred_eq, set_ne _ _ he] at ho

/-- A tree stays one when something is put into a directory, or a directory stays a directory. -/
theorem set_some (h : view.WellFormed) {names : List String} {item : Item} (hnamed : Path.Named names)
    (hparent : ∀ dir name, names = dir ++ [name] → view dir = some .dir)
    (hroot : names = [] → item = .dir) (hdir : view names = some .dir → item = .dir) :
    (view.set names (some item)).WellFormed where
  root := by
    by_cases hn : names = []
    · subst hn; simp [hroot rfl]
    · rw [set_ne _ _ (Ne.symm hn), h.root]
  named other ho := by
    by_cases he : other = names
    · exact he ▸ hnamed
    · exact h.named other (by rwa [set_ne _ _ he] at ho)
  parent dir name ho := by
    have hd : view dir = some .dir := by
      by_cases he : dir ++ [name] = names
      · exact hparent dir name he.symm
      · exact h.parent dir name (by rwa [set_ne _ _ he] at ho)
    by_cases he : dir = names
    · subst he; simp [hdir hd]
    · rw [set_ne _ _ he, hd]
  finite := finite_set h _ _

/-- A tree stays one when a childless node goes, the root apart. -/
theorem set_none (h : view.WellFormed) {names : List String} (hroot : names ≠ [])
    (hleaf : ∀ name, view (names ++ [name]) = none) : (view.set names none).WellFormed where
  root := by rw [set_ne _ _ (Ne.symm hroot), h.root]
  named other ho := by
    by_cases he : other = names
    · simp [he] at ho
    · exact h.named other (by rwa [set_ne _ _ he] at ho)
  parent dir name ho := by
    have ho' : (view (dir ++ [name])).isSome := by
      by_cases he : dir ++ [name] = names
      · simp [he] at ho
      · rwa [set_ne _ _ he] at ho
    have hd : dir ≠ names := by
      rintro rfl
      simp [hleaf name] at ho'
    rw [set_ne _ _ hd, h.parent dir name ho']
  finite := finite_set h _ _

end WellFormed
/-! ### Lists of what a view holds -/

/-- The names in a directory, in rising order. -/
def Lists (view : View) (dir names : List String) : Prop :=
  names.Pairwise (· < ·) ∧ ∀ name, name ∈ names ↔ (view (dir ++ [name])).isSome

theorem Lists.unique {view : View} {dir a b : List String} (ha : view.Lists dir a) (hb : view.Lists dir b) : a = b :=
  ha.1.eq_of_mem_iff hb.1 fun name => (ha.2 name).trans (hb.2 name).symm

theorem Lists.nodup {view : View} {dir names : List String} (h : view.Lists dir names) : names.Nodup := by
  refine h.1.imp fun {a b} hlt he => ?_
  subst he
  exact String.lt_irrefl a hlt

/-- All items of a view with their chains of names, each once and in any order. -/
def Enumerates (view : View) (entries : List (List String × Item)) : Prop :=
  (entries.map Prod.fst).Nodup ∧ ∀ names item, (names, item) ∈ entries ↔ view names = some item

theorem Enumerates.perm {view : View} {a b : List (List String × Item)} (ha : view.Enumerates a)
    (hb : view.Enumerates b) : a.Perm b := by
  apply (List.perm_ext_iff_of_nodup ha.1.of_map hb.1.of_map).mpr
  rintro ⟨names,item⟩
  exact (ha.2 names item).trans (hb.2 names item).symm

/-- A list of chains without repeats that leads to all items enumerates them. -/
theorem enumerates_of_names {view : View} {names : List (List String)} (hnodup : names.Nodup)
    (hmem : ∀ n, n ∈ names ↔ (view n).isSome) :
    view.Enumerates (names.filterMap fun n => (view n).map (n, ·)) := by
  have hfst : (names.filterMap fun n => (view n).map (n, ·)).map Prod.fst = names := by
    rw [List.map_filterMap]
    conv_rhs => rw [← List.filterMap_some (l := names)]
    apply List.filterMap_congr
    intro n hn
    obtain ⟨item,hi⟩ := Option.isSome_iff_exists.mp ((hmem n).mp hn)
    simp [hi]
  refine ⟨by rwa [hfst],fun n item => ?_⟩
  simp only [List.mem_filterMap, Option.map_eq_some_iff, Prod.mk.injEq]
  constructor
  · rintro ⟨m,_,i,hi,rfl,rfl⟩
    exact hi
  · intro h
    exact ⟨n,(hmem n).mpr (by simp [h]),item,h,rfl,rfl⟩

theorem WellFormed.exists_enumeration {view : View} (h : view.WellFormed) : ∃ entries, view.Enumerates entries :=
  ⟨_,enumerates_of_names h.finite.toFinset.nodup_toList (by simp)⟩

/-- Chains that lead somewhere, each once, are no more than there are items. -/
theorem Enumerates.length_le {view : View} {entries : List (List String × Item)} (h : view.Enumerates entries)
    {names : List (List String)} (hnodup : names.Nodup) (hmem : ∀ n ∈ names, (view n).isSome) :
    names.length ≤ entries.length := by
  have hsub : names ⊆ entries.map Prod.fst := by
    intro n hn
    obtain ⟨item,hi⟩ := Option.isSome_iff_exists.mp (hmem n hn)
    exact List.mem_map.mpr ⟨(n,item),(h.2 n item).mpr hi,rfl⟩
  simpa using (hnodup.subperm hsub).length_le

def fileCount (entries : List (List String × Item)) : Nat := entries.countP fun entry => !entry.2.isDir

def dirCount (entries : List (List String × Item)) : Nat := entries.countP fun entry => entry.2.isDir

def byteCount (entries : List (List String × Item)) : Nat := (entries.map fun entry => entry.2.bytes).sum

theorem fileCount_add_dirCount (entries : List (List String × Item)) :
    fileCount entries + dirCount entries = entries.length := by
  rw [Nat.add_comm]
  rw [List.length_eq_countP_add_countP fun entry : List String × Item => entry.2.isDir]
  simp [fileCount, dirCount]

theorem fileCount_cons (entry : List String × Item) (entries : List (List String × Item)) :
    fileCount (entry :: entries) = fileCount entries + if entry.2.isDir then 0 else 1 := by
  cases h : entry.2.isDir <;> simp [fileCount, h]

theorem dirCount_cons (entry : List String × Item) (entries : List (List String × Item)) :
    dirCount (entry :: entries) = dirCount entries + if entry.2.isDir then 1 else 0 := by
  cases h : entry.2.isDir <;> simp [dirCount, h]

theorem byteCount_cons (entry : List String × Item) (entries : List (List String × Item)) :
    byteCount (entry :: entries) = byteCount entries + entry.2.bytes := by
  simp [byteCount, Nat.add_comm]

/-- A number of bytes, all or parts of which may have been kept in 64 bits. -/
def Counts (n : Nat) (entries : List (List String × Item)) : Prop :=
  n ≤ byteCount entries ∧ n % 2 ^ 64 = byteCount entries % 2 ^ 64

theorem Counts.of_eq {n : Nat} {entries : List (List String × Item)} (h : n = byteCount entries) : Counts n entries :=
  ⟨h.le,by rw [h]⟩

/-! ### What the calls do -/

def CanCreate (view : View) (node : Node) : Prop :=
  Path.isName node.name = true ∧ view (Path.segments node.parentPath) = some .dir ∧ view node.target = none

/-- A file that can be written. -/
def IsFile (view : View) (names : List String) : Prop := ∃ content, view names = some (.file content)

def CanDelete (view : View) (names : List String) : Prop :=
  names ≠ [] ∧ (view names).isSome ∧ ∀ name, view (names ++ [name]) = none

/-- Whether a chain of names leads below the directory for temporary data. -/
def Temporary (names : List String) : Prop := ∃ more, more ≠ [] ∧ names = "tmp" :: more

instance : DecidablePred Temporary := fun names =>
  decidable_of_iff (names.head? = some "tmp" ∧ names.tail ≠ []) <| by
    cases names with
    | nil => simp [Temporary]
    | cons name more => simp [Temporary, and_comm]

/-- The part of a view that is temporary. -/
def temporary (view : View) : View := fun names => if Temporary names then view names else none

/-- The view without what is temporary. -/
def cleared (view : View) : View := fun names => if Temporary names then none else view names

theorem temporary_cons (view : View) {more : List String} (h : more ≠ []) :
    view.temporary ("tmp" :: more) = view ("tmp" :: more) := if_pos ⟨more,h,rfl⟩

theorem temporary_of_not (view : View) {names : List String} (h : ¬ Temporary names) : view.temporary names = none :=
  if_neg h

/-- What is temporary, enumerated from the chains below the directory for temporary data. -/
theorem enumerates_temporary {view : View} {entries : List (List String × Item)}
    (hnodup : (entries.map Prod.fst).Nodup)
    (h : ∀ more item, (more, item) ∈ entries ↔ more ≠ [] ∧ view ("tmp" :: more) = some item) :
    view.temporary.Enumerates (entries.map fun c => ("tmp" :: c.1, c.2)) := by
  constructor
  · rw [List.map_map, show Prod.fst ∘ (fun c : List String × Item => ("tmp" :: c.1, c.2)) = List.cons "tmp" ∘ Prod.fst
      from rfl, ← List.map_map]
    exact hnodup.map List.cons_injective
  · intro names item
    simp only [List.mem_map, Prod.mk.injEq, Prod.exists, h]
    constructor
    · rintro ⟨more,_,⟨hm,hv⟩,rfl,rfl⟩
      rw [temporary_cons _ hm, hv]
    · intro hv
      by_cases ht : Temporary names
      · obtain ⟨more,hm,rfl⟩ := ht
        rw [temporary_cons _ hm] at hv
        exact ⟨more,item,⟨hm,hv⟩,rfl,rfl⟩
      · rw [temporary_of_not _ ht] at hv
        exact absurd hv (by simp)

theorem Enumerates.temporary {view : View} {entries : List (List String × Item)} (h : view.Enumerates entries) :
    view.temporary.Enumerates (entries.filter fun entry => Temporary entry.1) := by
  refine ⟨h.1.sublist (List.filter_sublist.map _),fun names item => ?_⟩
  rw [List.mem_filter, h.2, decide_eq_true_eq, View.temporary]
  by_cases ht : Temporary names <;> simp [ht]

theorem cleared_of_temporary (view : View) {names : List String} (h : Temporary names) : view.cleared names = none := by
  simp [cleared, h]

theorem cleared_of_not_temporary (view : View) {names : List String} (h : ¬ Temporary names) :
    view.cleared names = view names := by
  simp [cleared, h]

namespace WellFormed
variable {view : View}

theorem create (h : view.WellFormed) {node : Node} (hc : view.CanCreate node) :
    (view.set node.target (some (.new node.isDir))).WellFormed := by
  obtain ⟨hname,hparent,hfree⟩ := hc
  apply h.set_some
  · exact Path.named_concat.mpr ⟨Path.named_segments _,hname⟩
  · intro dir name he
    rw [Node.target] at he
    rw [← List.append_inj_left' he rfl, hparent]
  · intro he; simp [Node.target] at he
  · intro he; simp [hfree] at he

theorem write (h : view.WellFormed) {names : List String} (hf : view.IsFile names) (content : String) :
    (view.set names (some (.file content))).WellFormed := by
  obtain ⟨old,ho⟩ := hf
  apply h.set_some
  · exact h.named _ (by simp [ho])
  · rintro dir name rfl
    exact h.parent dir name (by simp [ho])
  · rintro rfl
    simp [h.root] at ho
  · intro he; simp [ho] at he

theorem delete (h : view.WellFormed) {names : List String} (hd : view.CanDelete names) :
    (view.set names none).WellFormed :=
  h.set_none hd.1 hd.2.2

theorem cleared (h : view.WellFormed) : view.cleared.WellFormed where
  root := by rw [cleared_of_not_temporary _ (by simp [Temporary]), h.root]
  named names hs := by
    by_cases ht : Temporary names
    · simp [cleared_of_temporary _ ht] at hs
    · exact h.named names (by rwa [cleared_of_not_temporary _ ht] at hs)
  parent dir name hs := by
    have ht : ¬ Temporary (dir ++ [name]) := by
      intro ht
      simp [cleared_of_temporary _ ht] at hs
    have hd : ¬ Temporary dir := by
      rintro ⟨more,hm,rfl⟩
      exact ht ⟨more ++ [name],by simp,by simp⟩
    rw [cleared_of_not_temporary _ ht] at hs
    rw [cleared_of_not_temporary _ hd, h.parent dir name hs]
  finite := by
    apply h.finite.subset
    intro names hs
    by_cases ht : Temporary names
    · simp [cleared_of_temporary _ ht] at hs
    · rwa [Set.mem_ofPred_eq, cleared_of_not_temporary _ ht] at hs

end WellFormed
end View
end VirtualShell
