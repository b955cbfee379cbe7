import VirtualShell.Proofs.Storage.ObjectsIntegrity
import VirtualShell.Proofs.Storage.Table
import VirtualShell.Proofs.Storage.Tree

/-!
Stores that are asked for nodes of any size. Only files have a size, but a caller may name one for a directory, and a store
may keep it. In nothing else does such a store differ from one that was asked for the node without it.
-/
namespace VirtualShell

/-! ### The contract -/

open Viewed in
/-- The calls of stores that were asked for any nodes. Nothing is said of the size of a directory. -/
class LenientNodes (σ : Type) [Storage σ] extends Viewed σ where
  /-- The states of a store whose calls answer, whatever nodes it was asked for. -/
  Used : σ → Prop
  of_sound {s : σ} : Sound s → Used s
  preserves (now : Timestamp) (call : Storage.Operation) : (call.run now : Storing σ Unit).Preserves Used
  info {s : σ} (path : String) : Used s → (Storage.info path).Yields s fun node after =>
    view after = view s ∧ node.map (Node.untimed ∘ Node.trimmed) = (view s).node? (Path.segments path)
  create {s : σ} (node : Node) : Used s → (Storage.create node).Yields s fun done after => (view s).Creates node done (view after)
  stats {s : σ} : Used s → Storage.stats.Yields s fun stats after => (view s).Measures stats (view after)

/-! ### The tree in memory -/

namespace Forest

/-- The forest without the sizes of its directories. -/
def trim : Forest → Forest
  | nil => nil
  | file name node content next => file name node content (trim next)
  | dir name node below next => dir name { node with size := none } (trim below) (trim next)

end Forest

namespace Entry

/-- The tree without the sizes of its directories. -/
def trim : Entry → Entry
  | .file node content => .file node content
  | .dir node below => .dir { node with size := none } below.trim

end Entry

namespace Forest

theorem trim_link (name : String) (entry : Entry) (next : Forest) :
    (link name entry next).trim = link name entry.trim next.trim := by
  cases entry <;> rfl

theorem find?_trim (name : String) (forest : Forest) : forest.trim.find? name = (forest.find? name).map Entry.trim := by
  induction forest with
  | nil => rfl
  | file n node content next ih =>
    simp only [trim, find?, ih]
    split <;> rfl
  | dir n node below next _ ih =>
    simp only [trim, find?, ih]
    split <;> rfl

theorem put_trim (name : String) (entry : Entry) (forest : Forest) :
    (forest.put name entry).trim = forest.trim.put name entry.trim := by
  induction forest with
  | nil => exact trim_link name entry nil
  | file n node content next ih =>
    simp only [trim, put, apply_ite trim, trim_link, ih]
  | dir n node below next _ ih =>
    simp only [trim, put, apply_ite trim, trim_link, ih]

theorem erase_trim (name : String) (forest : Forest) : (forest.erase name).trim = forest.trim.erase name := by
  induction forest with
  | nil => rfl
  | file n node content next ih => simp only [trim, erase, apply_ite trim, ih]
  | dir n node below next _ ih => simp only [trim, erase, apply_ite trim, ih]

theorem names_trim (forest : Forest) : forest.trim.names = forest.names := by
  induction forest with
  | nil => rfl
  | file n node content next ih => simp only [trim, names, ih]
  | dir n node below next _ ih => simp only [trim, names, ih]

theorem Rising.trim {forest : Forest} (h : forest.Rising) : forest.trim.Rising := by
  induction forest with
  | nil => exact h
  | file n node content next ih => exact ⟨by rw [names_trim]; exact h.1,ih h.2⟩
  | dir n node below next ihb ihn => exact ⟨by rw [names_trim]; exact h.1,ihb h.2.1,ihn h.2.2⟩

theorem count_trim (forest : Forest) : forest.trim.count = forest.count := by
  induction forest with
  | nil => rfl
  | file n node content next ih => simp only [trim, count, ih]
  | dir n node below next ihb ihn => simp only [trim, count, ihb, ihn]

theorem files_trim (forest : Forest) : forest.trim.files = forest.files := by
  induction forest with
  | nil => rfl
  | file n node content next ih => simp only [trim, files, ih]
  | dir n node below next ihb ihn => simp only [trim, files, ihb, ihn]

end Forest

namespace Entry

theorem find?_trim (names : List String) (entry : Entry) : entry.trim.find? names = (entry.find? names).map trim := by
  induction names generalizing entry with
  | nil => rfl
  | cons name rest ih =>
    cases entry with
    | file node content => rfl
    | dir node below =>
      simp only [trim, find?, Forest.find?_trim]
      cases below.find? name with
      | none => rfl
      | some child => exact ih child

theorem alter_trim {f image : Entry → Option Entry} (h : ∀ entry, image entry.trim = (f entry).map trim)
    (names : List String) (entry : Entry) : entry.trim.alter image names = (entry.alter f names).map trim := by
  induction names generalizing entry with
  | nil => exact h entry
  | cons name rest ih =>
    cases entry with
    | file node content => rfl
    | dir node below =>
      simp only [trim, alter, Forest.find?_trim]
      cases below.find? name with
      | none => rfl
      | some child =>
        simp only [Option.map_some, ih child, Option.map_map]
        congr 1
        funext altered
        simp only [Function.comp_apply, trim, Forest.put_trim]

theorem view_trim (entry : Entry) : entry.trim.view = entry.view := by
  funext names
  simp only [view, faces, find?_trim, Option.map_map]
  congr 1
  funext found
  cases found <;> rfl

theorem Rising.trim {entry : Entry} (h : entry.Rising) : entry.trim.Rising := by
  cases entry with
  | file node content => exact h
  | dir node below => exact Forest.Rising.trim h

/-- Where every node names its place, directories have no sizes. -/
theorem Placed.trim {entry : Entry} (h : entry.Placed) : entry.trim.Placed := by
  intro names face hf
  rw [faces, find?_trim, Option.map_map] at hf
  obtain ⟨found,hfound,rfl⟩ := Option.map_eq_some_iff.mp hf
  have hplace := h names found.face (by rw [faces, hfound]; rfl)
  cases found with
  | file node content => exact hplace
  | dir node below =>
    have hsize : node.size = none := congrArg Node.size hplace.2
    refine ⟨hplace.1,?_⟩
    change ({ node with size := none } : Node).untimed = _
    rw [← hsize]
    exact hplace.2

end Entry

namespace Tree
open Storing Viewed

/-- The tree without the sizes of its directories. -/
def trim (tree : Tree) : Tree := ⟨tree.root.map Entry.trim⟩

theorem view_trim (tree : Tree) : view tree.trim = view tree := by
  obtain ⟨_ | root⟩ := tree
  · rfl
  · exact Entry.view_trim root

private theorem find?_trim (path : String) (tree : Tree) : tree.trim.find? path = (tree.find? path).map Entry.trim := by
  obtain ⟨_ | root⟩ := tree
  · rfl
  · exact Entry.find?_trim _ root

private theorem contents_trim (entry : Option Entry) : contents (entry.map Entry.trim) = (contents entry).trim := by
  rcases entry with _ | _ | _ <;> rfl

/-- On the tree without sizes of directories the second action does what the first does on the tree. -/
def Mirrors {α : Type} (act image : Storing Tree α) : Prop := ∀ tree, image.on tree.trim = ((act.on tree).1, (act.on tree).2.trim)

namespace Mirrors
variable {α : Type} {act image other otherImage : Storing Tree α}

theorem pure (a : α) : Mirrors (Pure.pure a) (Pure.pure a) := fun _ => rfl

theorem bind {β : Type} {f g : α → Storing Tree β} (h : Mirrors act image) (hf : ∀ a, Mirrors (f a) (g a)) :
    Mirrors (act >>= f) (image >>= g) := by
  intro tree
  have himage := h tree
  cases he : act.on tree with
  | mk result after =>
    rw [he] at himage
    cases result with
    | error e => rw [on_bind_error he, on_bind_error himage]
    | ok a =>
      rw [on_bind_ok he, on_bind_ok himage]
      exact hf a after

theorem get_bind {f g : Tree → Storing Tree α} (h : ∀ tree, Mirrors (f tree) (g tree.trim)) :
    Mirrors (get >>= f) (get >>= g) := fun tree => h tree tree

theorem ite {c : Prop} [Decidable c] (h : Mirrors act image) (ho : Mirrors other otherImage) :
    Mirrors (if c then act else other) (if c then image else otherImage) := by
  split
  · exact h
  · exact ho

end Mirrors

theorem alter_mirrors {f image : Entry → Option Entry} (h : ∀ entry, image entry.trim = (f entry).map Entry.trim)
    (path : String) : Mirrors (alter f path) (alter image path) := by
  rintro ⟨_ | root⟩
  · rfl
  · simp only [alter, on_bind, on_get, trim, Option.map_some, Entry.alter_trim h]
    cases root.alter f (Path.segments path) <;> rfl

private theorem newEntry_trim (node : Node) : newEntry node.trimmed = (newEntry node).trim := by
  cases hd : node.isDir <;> simp [newEntry, Node.trimmed, hd, Entry.trim, Forest.trim]

theorem adding_trim (node : Node) (entry : Entry) : adding node.trimmed entry.trim = (adding node entry).map Entry.trim := by
  cases entry with
  | file parent content => rfl
  | dir parent below =>
    simp only [adding, Entry.trim, Forest.find?_trim, Option.isSome_map, show node.trimmed.name = node.name from rfl]
    split
    · rfl
    · rw [Option.map_some, Entry.trim, Forest.put_trim, newEntry_trim]

theorem removing_trim (name : String) (entry : Entry) : removing name entry.trim = (removing name entry).map Entry.trim := by
  cases entry with
  | file parent content => rfl
  | dir parent below =>
    simp only [removing, Entry.trim, Forest.find?_trim]
    rcases below.find? name with _ | ⟨_,_⟩ | ⟨_,_ | _ | _⟩
    · rfl
    · simp only [Option.map_some, Entry.trim, Forest.erase_trim]
    · simp only [Option.map_some, Entry.trim, Forest.trim, Forest.erase_trim]
    · rfl
    · rfl

theorem create_mirrors (node : Node) : Mirrors (Storage.create node) (Storage.create node.trimmed) :=
  .ite (.pure false) (alter_mirrors (adding_trim node) _)

theorem write_mirrors (now : Timestamp) (path content : String) :
    Mirrors (Storage.write now path content) (Storage.write now path content) :=
  alter_mirrors (fun entry => by cases entry <;> rfl) path

theorem touch_mirrors (now : Timestamp) (path : String) : Mirrors (Storage.touch now path) (Storage.touch now path) :=
  alter_mirrors (fun entry => by cases entry <;> rfl) path

theorem delete_mirrors (path : String) : Mirrors (Storage.delete path) (Storage.delete path) :=
  .ite (.pure false) (alter_mirrors (removing_trim _) _)

theorem setUp_mirrors (now : Timestamp) : Mirrors (Storage.setUp now) (Storage.setUp now) := by
  rintro ⟨_ | root⟩ <;> rfl

theorem cleanup_mirrors : Mirrors Storage.cleanup Storage.cleanup := by
  refine .get_bind fun tree => ?_
  rw [find?_trim, contents_trim, Forest.files_trim]
  exact (alter_mirrors (fun entry => by cases entry <;> rfl) tempDir).bind fun _ => .pure _

/-- What the image of an action meets, the action meets but for sizes of directories. -/
private theorem Mirrors.yields {α : Type} {act image : Storing Tree α} (h : Mirrors act image) {tree : Tree}
    {wanted : α → View → Prop} (hi : image.Meets tree.trim wanted) :
    act.Yields tree fun a after => Sound after.trim ∧ wanted a (view after) := by
  obtain ⟨a,_,he,hsound,hw⟩ := hi
  obtain ⟨ha,rfl⟩ := Prod.mk.inj ((h tree).symm.trans he)
  rw [view_trim] at hw
  exact ⟨a,_,Prod.ext ha rfl,hsound,hw⟩

private theorem Mirrors.preserves {α : Type} {act image : Storing Tree α} (h : Mirrors act image)
    {wanted : Tree → α → View → Prop} (hi : ∀ {tree}, Sound tree → image.Meets tree (wanted tree)) :
    act.Preserves fun tree => Sound tree.trim := fun tree hs => by
  obtain ⟨_,_,he,hsound,_⟩ := h.yields (hi hs)
  rwa [he]

private theorem run_preserves (now : Timestamp) (call : Storage.Operation) :
    (call.run now : Storing Tree Unit).Preserves fun tree => Sound tree.trim := by
  cases call with
  | setUp => exact ((setUp_mirrors now).preserves (LawfulNodes.setUp now)).map _
  | info path => exact .map _ fun _ h => h
  | create node => exact ((create_mirrors node).preserves (LawfulNodes.create _ · node.sized_trimmed)).map _
  | list path => exact .map _ fun _ h => h
  | write path content => exact ((write_mirrors now path content).preserves (LawfulNodes.write now path content)).map _
  | read path => exact .map _ fun tree h => by rwa [on_read]
  | delete path => exact ((delete_mirrors path).preserves (LawfulNodes.delete path)).map _
  | touch path => exact ((touch_mirrors now path).preserves (LawfulNodes.touch now path)).map _
  | stats => exact .map _ fun _ h => h
  | cleanup => exact (cleanup_mirrors.preserves LawfulStorage.cleanup).map _

/-- The node that is found, trimmed, is the one that is found without sizes of directories. -/
private theorem untimed_node {entry : Entry} {names : List String} (h : entry.trim.node.untimed = View.node names entry.item) :
    entry.node.trimmed.untimed = View.node names entry.item := by
  have hdir : entry.node.isDir = entry.item.isDir := by
    rw [show entry.node.isDir = entry.trim.node.untimed.isDir by cases entry <;> rfl, h]
    rfl
  rw [← h]
  cases entry with
  | file node content => rw [Node.trimmed_of_file hdir]; rfl
  | dir node below => rw [Node.trimmed_of_dir hdir]; rfl

private theorem view_of_find? {tree : Tree} {path : String} {entry : Entry} (h : tree.find? path = some entry) :
    view tree (Path.segments path) = some entry.item := by
  obtain ⟨_ | root⟩ := tree
  · simp [Tree.find?] at h
  · exact Entry.view_of_find? h

private theorem stats_mirrors : Mirrors Storage.stats Storage.stats := by
  refine .get_bind fun tree => ?_
  simp only [show tree.trim.root = tree.root.map Entry.trim from rfl, contents_trim, Forest.files_trim, Forest.count_trim,
    Option.isSome_map]
  exact .pure _

/-! Before it is set up, a tree shows nothing and refuses everything. -/

private theorem view_empty (names : List String) : view empty names = none := rfl

private theorem create_empty (node : Node) : (Storage.create node).on empty = (.ok false, empty) := by
  change (if !Path.isName node.name then (pure false : Storing Tree Bool) else alter (adding node) node.parentPath).on empty = _
  split <;> rfl

private theorem delete_empty (path : String) : (Storage.delete path).on empty = (.ok false, empty) := by
  change (if (Path.split path).2.isEmpty then (pure false : Storing Tree Bool)
    else alter (removing (Path.split path).2) (Path.split path).1).on empty = _
  split <;> rfl

private theorem run_empty (now : Timestamp) {call : Storage.Operation} (hsetUp : call ≠ .setUp) :
    ((call.run now).on empty).2 = empty := by
  cases call with
  | setUp => exact absurd rfl hsetUp
  | create node => rw [Storage.Operation.run, on_map, create_empty]
  | delete path => rw [Storage.Operation.run, on_map, delete_empty]
  | info => rfl
  | list => rfl
  | write => rfl
  | read => rfl
  | touch => rfl
  | stats => rfl
  | cleanup => rfl

private theorem sound_trim {tree : Tree} : Sound tree → Sound tree.trim := fun ⟨root,hr,hs⟩ =>
  ⟨root.trim,by rw [trim, hr]; rfl,hs.rising.trim,hs.placed.trim,by rw [Entry.view_trim]; exact hs.wellFormed⟩

instance : LenientNodes Tree where
  Used tree := tree = empty ∨ Sound tree.trim
  of_sound h := .inr (sound_trim h)
  preserves now call := by
    rintro tree (rfl | h)
    · by_cases hsetUp : call = .setUp
      · subst hsetUp
        obtain ⟨_,after,he,hsound,_⟩ := setUp_empty now
        rw [Storage.Operation.run, on_map, he]
        exact .inr (sound_trim hsound)
      · exact .inl (run_empty now hsetUp)
    · exact .inr (run_preserves now call tree h)
  info {tree} path := by
    rintro (rfl | h)
    · exact .of_on rfl ⟨rfl,rfl⟩
    refine .of_on rfl ⟨rfl,?_⟩
    obtain ⟨_,_,he,_,_,hnode⟩ := LawfulNodes.info path h
    obtain rfl := Except.ok.inj (Prod.mk.inj he).1
    rw [find?_trim, view_trim, View.node?] at hnode
    rw [View.node?]
    cases hf : tree.find? path with
    | none => rwa [hf] at hnode
    | some entry =>
      have hshown := view_of_find? hf
      rw [hf, hshown] at hnode
      rw [hshown]
      exact congrArg some (untimed_node (Option.some.inj hnode))
  create {tree} node := by
    rintro (rfl | h)
    · exact .of_on (create_empty node) ⟨by simp [View.CanCreate, view_empty],rfl⟩
    have hcreate := (create_mirrors node).yields (LawfulNodes.create _ h node.sized_trimmed)
    rw [view_trim] at hcreate
    exact hcreate.mono fun _ _ hc => hc.2
  stats {tree} := by
    rintro (rfl | h)
    · exact .of_on rfl ⟨rfl,[],by simp [View.Enumerates, view_empty],rfl,rfl,.of_eq rfl⟩
    have hstats := stats_mirrors.yields (LawfulNodes.stats h)
    rw [view_trim] at hstats
    exact hstats.mono fun _ _ hm => hm.2

end Tree

/-! ### The table of rows -/

namespace Table
open Storing Viewed

instance : LenientNodes Table where
  Used := Sound
  of_sound h := h
  preserves now call := by
    cases call with
    | setUp => exact (preserves_sound (LawfulNodes.setUp now)).map _
    | info path => exact (keeps_sound.info path).map _
    | create node => exact (keeps_sound.create _ node.sized_trimmed).map _
    | list path => exact (keeps_sound.list path).map _
    | write path content => exact (keeps_sound.write now path content).map _
    | read path => exact (keeps_sound.read path).map _
    | delete path => exact (keeps_sound.delete path).map _
    | touch path => exact (keeps_sound.touch now path).map _
    | stats => exact keeps_sound.stats.map _
    | cleanup => exact (preserves_sound LawfulStorage.cleanup).map _
  info path h := by
    refine (LawfulNodes.info path h).mono fun node _ ⟨_,hsame,hnode⟩ => ⟨hsame,?_⟩
    rw [← hnode]
    cases node with
    | none => rfl
    | some node =>
      obtain ⟨item,_,hitem⟩ := Option.map_eq_some_iff.mp hnode.symm
      rw [Option.map_some, Function.comp_apply, Node.trimmed_of_sized (View.sized_of_untimed hitem.symm), Option.map_some]
  create node h := (LawfulNodes.create _ h node.sized_trimmed).mono fun _ _ hc => hc.2
  stats h := (LawfulNodes.stats h).mono fun _ _ hm => hm.2

end Table
end VirtualShell
