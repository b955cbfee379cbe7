import Mathlib.Algebra.BigOperators.Group.List.Basic
import Mathlib.Data.List.Count
import VirtualShell.Proofs.Storage.Forest
import VirtualShell.Proofs.Storage.View
import VirtualShell.Storage.Tree

/-!
Trees of entries told by their faces: which node, with which content, is found at the end of a chain of names.
-/
namespace VirtualShell

namespace Item

/-- The item of an entry with this content, if any. -/
def ofContent : Option String → Item
  | none => dir
  | some content => file content

end Item

namespace Entry

def item (entry : Entry) : Item := .ofContent entry.face.2

/-- The face found at each chain of names. -/
def faces (entry : Entry) (names : List String) : Option (Node × Option String) := (entry.find? names).map face

/-- Every node names its place. -/
def Placed (entry : Entry) : Prop :=
  ∀ names face, entry.faces names = some face →
    Path.Named names ∧ face.1.untimed = View.node names (.ofContent face.2)

theorem node_eq_face (entry : Entry) : entry.node = entry.face.1 := by cases entry <;> rfl

variable {entry found replaced : Entry} {names : List String}

private theorem faces_append (a b : List String) (entry : Entry) :
    entry.faces (a ++ b) = (entry.find? a).bind (faces · b) := by
  rw [faces, find?_append]
  cases entry.find? a <;> rfl

/-- How altering changes the faces, told apart by whether a chain passes the altered entry. -/
theorem faces_alter {f : Entry → Option Entry} (hf : entry.find? names = some found) (hr : f found = some replaced) :
    ∃ altered, entry.alter f names = some altered ∧
      (∀ rest, altered.faces (names ++ rest) = replaced.faces rest) ∧
      (∀ other, ¬ names <+: other → altered.faces other = entry.faces other) ∧
      (entry.Rising → replaced.Rising → altered.Rising) := by
  obtain ⟨altered,ha,hbelow,hother,hrising⟩ := alter_of_some hf hr
  exact ⟨altered,ha,fun rest => by rw [faces, hbelow, faces],hother,hrising⟩

theorem faces_of_find? (hf : entry.find? names = some found) (rest : List String) :
    entry.faces (names ++ rest) = found.faces rest := by
  rw [faces_append, hf]
  rfl

/-- An altered entry whose new faces differ from the old in one place is altered in that one place. -/
theorem faces_alter_at {f : Entry → Option Entry} {at_ : List String} {face : Option (Node × Option String)}
    (hf : entry.find? names = some found) (hr : f found = some replaced)
    (hone : ∀ rest, replaced.faces rest = if rest = at_ then face else found.faces rest) :
    ∃ altered, entry.alter f names = some altered ∧
      altered.faces = Function.update entry.faces (names ++ at_) face ∧
      (entry.Rising → replaced.Rising → altered.Rising) := by
  obtain ⟨altered,ha,hbelow,hother,hrising⟩ := faces_alter hf hr
  refine ⟨altered,ha,?_,hrising⟩
  funext other
  rw [Function.update_apply]
  by_cases ho : names <+: other
  · obtain ⟨rest,rfl⟩ := ho
    rw [hbelow, hone, faces_of_find? hf]
    simp
  · rw [hother other ho, if_neg]
    rintro rfl
    exact ho (List.prefix_append _ _)

/-! ### Views -/

/-- The view of a tree below some root. -/
def view (root : Entry) : View := fun names => (root.faces names).map fun face => .ofContent face.2

theorem view_append {root entry : Entry} {names : List String} (h : root.find? names = some entry)
    (rest : List String) : root.view (names ++ rest) = entry.view rest := by
  rw [view, faces_of_find? h, view]

theorem view_of_find? {root entry : Entry} {names : List String} (h : root.find? names = some entry) :
    root.view names = some entry.item := by
  simp [view, faces, h, item]

theorem view_isSome (root : Entry) (names : List String) :
    (root.view names).isSome = (root.find? names).isSome := by
  simp [view, faces]

/-- A change of one face changes the view in one place. -/
theorem view_update {root altered : Entry} {names : List String} {face : Option (Node × Option String)}
    (h : altered.faces = Function.update root.faces names face) :
    altered.view = root.view.set names (face.map fun face => .ofContent face.2) := by
  funext other
  rw [view, h, View.set_apply, Function.update_apply]
  split <;> rfl

end Entry

/-! ### Counting -/

namespace Forest

/-- Everything in a forest with its chain of names. -/
def chains : Forest → List (List String × Item)
  | nil => []
  | file name _ content next => ([name], .file content) :: chains next
  | dir name _ below next => ([name], .dir) :: (chains below).map (fun c => (name :: c.1, c.2)) ++ chains next

theorem length_chains (forest : Forest) : forest.chains.length = forest.count := by
  induction forest with
  | nil => rfl
  | file name node content next ih => simp [chains, count, ih]; omega
  | dir name node below next ihb ihn => simp [chains, count, ihb, ihn]; omega

theorem counts_chains (forest : Forest) :
    forest.files = (View.fileCount forest.chains, View.byteCount forest.chains) := by
  induction forest with
  | nil => rfl
  | file name node content next ih =>
    simp [chains, files, ih, View.fileCount, View.byteCount, Item.isDir, Item.bytes]
    omega
  | dir name node below next ihb ihn =>
    simp [chains, files, ihb, ihn, View.fileCount, View.byteCount, Item.isDir, Item.bytes, List.countP_map, Function.comp_def]

/-- What stands at a chain of names in a forest. -/
def view (forest : Forest) : View
  | [] => none
  | name :: rest => (forest.find? name).bind (Entry.view · rest)

private theorem view_file (node : Node) (content : String) (names : List String) :
    (Entry.file node content).view names = if names = [] then some (.file content) else none := by
  cases names <;> rfl

theorem view_dir (node : Node) (below : Forest) (names : List String) :
    (Entry.dir node below).view names = if names = [] then some .dir else below.view names := by
  cases names with
  | nil => rfl
  | cons name rest =>
    simp only [Entry.view, Entry.faces, Entry.find?, view]
    cases below.find? name <;> rfl

private theorem view_cons (n name : String) (entry : Entry) (next : Forest) (rest : List String) :
    (link n entry next).view (name :: rest) = if n = name then entry.view rest else next.view (name :: rest) := by
  simp only [view, find?_link]
  split <;> rfl

/-- A name that is smaller than all names of a forest leads nowhere in it. -/
private theorem view_of_smaller {forest : Forest} {name : String} (h : ∀ n ∈ forest.names, name < n)
    (rest : List String) : forest.view (name :: rest) = none := by
  by_contra hs
  obtain ⟨item,hi⟩ := Option.ne_none_iff_exists'.mp hs
  obtain ⟨entry,he,_⟩ := Option.bind_eq_some_iff.mp hi
  exact lt_irrefl name (h name (by simp [mem_names_iff, he]))

theorem mem_chains {forest : Forest} (h : forest.Rising) (names : List String) (item : Item) :
    (names, item) ∈ forest.chains ↔ forest.view names = some item := by
  induction forest generalizing names with
  | nil => cases names <;> simp [chains, view, find?]
  | file n node content next ih =>
    rw [chains, List.mem_cons, ih h.2]
    cases names with
    | nil => simp [view]
    | cons name rest =>
      rw [show Forest.file n node content next = link n (.file node content) next from rfl, view_cons, view_file]
      by_cases hn : n = name
      · subst hn
        rw [view_of_smaller h.1]
        simp [eq_comm]
      · simp [hn, Ne.symm hn]
  | dir n node below next ihb ihn =>
    simp only [chains, List.cons_append, List.mem_cons, List.mem_append, List.mem_map, ihn h.2.2]
    cases names with
    | nil => simp [view]
    | cons name rest =>
      rw [show Forest.dir n node below next = link n (.dir node below) next from rfl, view_cons, view_dir]
      by_cases hn : n = name
      · subst hn
        rw [view_of_smaller h.1]
        by_cases hr : rest = []
        · simp [hr, eq_comm, view, ihb h.2.1]
        · simp [hr, eq_comm, ihb h.2.1]
      · simp [hn, Ne.symm hn]

private theorem not_mem_chains_of_smaller {forest : Forest} (hr : forest.Rising) {name : String}
    (h : ∀ n ∈ forest.names, name < n) (rest : List String) : name :: rest ∉ forest.chains.map Prod.fst := by
  intro hm
  obtain ⟨⟨names,item⟩,hi,rfl⟩ := List.mem_map.mp hm
  rw [mem_chains hr, view_of_smaller h] at hi
  exact absurd hi (by simp)

theorem nodup_chains {forest : Forest} (h : forest.Rising) : (forest.chains.map Prod.fst).Nodup := by
  induction forest with
  | nil => exact .nil
  | file n node content next ih => exact List.nodup_cons.mpr ⟨not_mem_chains_of_smaller h.2 h.1 [],ih h.2⟩
  | dir n node below next ihb ihn =>
    have hbelow : (below.chains.map fun c => n :: c.1).Nodup := by
      rw [show (fun c : List String × Item => n :: c.1) = List.cons n ∘ Prod.fst from rfl, ← List.map_map]
      exact (ihb h.2.1).map (List.cons_injective)
    have hnil : [] ∉ below.chains.map Prod.fst := by
      intro hm
      obtain ⟨⟨names,item⟩,hi,rfl⟩ := List.mem_map.mp hm
      exact absurd ((mem_chains h.2.1 [] item).mp hi) (by simp [view])
    simp only [chains, List.cons_append, List.map_cons, List.map_append, List.map_map, Function.comp_def]
    refine List.nodup_cons.mpr ⟨?_,List.nodup_append.mpr ⟨hbelow,ihn h.2.2,?_⟩⟩
    · rw [List.mem_append, not_or]
      refine ⟨fun hm => ?_,not_mem_chains_of_smaller h.2.2 h.1 []⟩
      obtain ⟨c,hc,he⟩ := List.mem_map.mp hm
      exact hnil (List.mem_map.mpr ⟨c,hc,(List.cons.inj he).2⟩)
    · rintro _ hm _ hn rfl
      obtain ⟨c,_,rfl⟩ := List.mem_map.mp hm
      exact not_mem_chains_of_smaller h.2.2 h.1 c.1 hn

end Forest

theorem Entry.enumerates_dir {node : Node} {below : Forest} (h : below.Rising) :
    (Entry.dir node below).view.Enumerates (([], .dir) :: below.chains) := by
  refine ⟨List.nodup_cons.mpr ⟨fun hm => ?_,Forest.nodup_chains h⟩,fun names item => ?_⟩
  · obtain ⟨⟨names,item⟩,hi,rfl⟩ := List.mem_map.mp hm
    exact absurd ((Forest.mem_chains h [] item).mp hi) (by simp [Forest.view])
  · rw [List.mem_cons, Forest.mem_chains h, Forest.view_dir]
    by_cases hn : names = []
    · simp [hn, Forest.view, eq_comm]
    · simp [hn]

namespace Tree
open Entry

theorem faces_file (node : Node) (content : String) (names : List String) :
    (Entry.file node content).faces names = if names = [] then some (node, some content) else none := by
  cases names <;> simp [faces, Entry.find?, face]

theorem faces_dir_cons (node : Node) (below : Forest) (name : String) (names : List String) :
    (Entry.dir node below).faces (name :: names) = (below.find? name).bind (faces · names) := by
  rw [faces, Entry.find?]
  cases below.find? name <;> rfl

/-- An entry that can be removed: a file or an empty directory. -/
def Loose : Entry → Prop
  | .file .. => True
  | .dir _ below => below = .nil

private theorem forest_eq_nil {forest : Forest} (h : ∀ name, forest.find? name = none) : forest = .nil := by
  cases forest with
  | nil => rfl
  | file name node content next => simpa [Forest.find?] using h name
  | dir name node below next => simpa [Forest.find?] using h name

theorem loose_iff {entry : Entry} : Loose entry ↔ ∀ name, entry.find? [name] = none := by
  cases entry with
  | file node content => simp [Loose, Entry.find?]
  | dir node below =>
    constructor
    · rintro rfl name
      rfl
    · intro h
      apply forest_eq_nil
      intro name
      cases hb : below.find? name with
      | none => rfl
      | some child => simpa [Entry.find?, hb] using h name

private theorem faces_loose {entry : Entry} (h : Loose entry) (names : List String) :
    entry.faces names = if names = [] then some entry.face else none := by
  cases entry with
  | file node content => simp [faces_file, face]
  | dir node below =>
    obtain rfl := h
    cases names <;> simp [faces, Entry.find?, Forest.find?]

private theorem loose_newEntry (node : Node) : Loose (newEntry node) := by
  cases h : node.isDir <;> simp [newEntry, h, Loose]

private theorem rising_newEntry (node : Node) : (newEntry node).Rising := by
  cases h : node.isDir <;> simp [newEntry, h, Entry.Rising, Forest.Rising]

theorem adding_eq_some {node : Node} {found replaced : Entry} (h : adding node found = some replaced) :
    ∃ parent below, found = .dir parent below ∧ below.find? node.name = none ∧
      (∀ rest, replaced.faces rest = if rest = [node.name] then some (newEntry node).face else found.faces rest) ∧
      (found.Rising → replaced.Rising) := by
  cases found with
  | file parent content => simp [adding] at h
  | dir parent below =>
    cases hfree : below.find? node.name with
    | some child => simp [adding, hfree] at h
    | none =>
      simp only [adding, hfree, Option.isSome_none, Bool.false_eq_true, if_false, Option.some.injEq] at h
      subst h
      refine ⟨parent,below,rfl,hfree,?_,fun h => Forest.Rising.put h _ (rising_newEntry node)⟩
      intro rest
      cases rest with
      | nil => rfl
      | cons name rest =>
        rw [faces_dir_cons, faces_dir_cons, Forest.find?_put]
        by_cases hn : node.name = name
        · subst hn
          simp [faces_loose (loose_newEntry node), hfree]
        · simp [hn, Ne.symm hn]

theorem removing_eq_some {name : String} {found replaced : Entry} (hrise : found.Rising)
    (h : removing name found = some replaced) :
    ∃ parent below entry, found = .dir parent below ∧ below.find? name = some entry ∧ Loose entry ∧
      (∀ rest, replaced.faces rest = if rest = [name] then none else found.faces rest) ∧ replaced.Rising := by
  cases found with
  | file parent content => simp [removing] at h
  | dir parent below =>
    obtain ⟨entry,he,hl,rfl⟩ : ∃ entry, below.find? name = some entry ∧ Loose entry ∧
        replaced = .dir parent (below.erase name) := by
      simp only [removing] at h
      split at h
      · rename_i he; exact ⟨_,he,trivial,(Option.some.inj h).symm⟩
      · rename_i he; exact ⟨_,he,rfl,(Option.some.inj h).symm⟩
      · simp at h
    refine ⟨parent,below,entry,rfl,he,hl,?_,Forest.Rising.erase hrise name⟩
    intro rest
    cases rest with
    | nil => rfl
    | cons n rest =>
      rw [faces_dir_cons, faces_dir_cons, Forest.find?_erase hrise]
      by_cases hn : name = n
      · subst hn
        cases rest <;> simp [he, faces_loose hl]
      · simp [hn, Ne.symm hn]

theorem removing_isSome (parent : Node) {below : Forest} {name : String} {entry : Entry}
    (hf : below.find? name = some entry) (hl : Loose entry) : (removing name (.dir parent below)).isSome := by
  cases entry with
  | file node content => simp [removing, hf]
  | dir node inner => obtain rfl := hl; simp [removing, hf]

/-- What is read is the content of the entry that is found. -/
theorem on_read (path : String) (tree : Tree) : (Storage.read path : Storing Tree (Option String)).on tree =
    (.ok ((tree.find? path).bind fun entry => entry.face.2),tree) := by
  simp only [Storage.read, Storing.on_bind, Storing.on_get]
  cases tree.find? path with
  | none => rfl
  | some entry => cases entry <;> rfl

end Tree
end VirtualShell
