import VirtualShell.Proofs.Storage.Faces
import VirtualShell.Proofs.Storage.Invariant
import VirtualShell.Storage.Table

/-!
Where the calls of a store may change something, times included. This holds in every state, also when calls and
requests fail half way.
-/
namespace VirtualShell

/-- A store as a reader would find it. -/
class Sighted (σ : Type) where
  /-- The maps that the store is made of are in order. -/
  InOrder : σ → Prop
  /-- The store with no more failures to come. -/
  steady : σ → σ

/-- What is read at a path: the node and the content. -/
abbrev Sight : Type := Except StorageError (Option Node) × Except StorageError (Option String)

/-- What a reader finds at a path. -/
def Storage.sight {σ : Type} [Storage σ] [Sighted σ] (path : String) (store : σ) : Sight :=
  (((Storage.info path).on (Sighted.steady store)).1, ((Storage.read path).on (Sighted.steady store)).1)

namespace Storing
variable {σ α β : Type} [Storage σ] [Sighted σ] {places : Set (List String)}

/-- Only at the given places a reader may find something else after the action. -/
def Confined (places : Set (List String)) (act : Storing σ α) : Prop :=
  ∀ store, Sighted.InOrder store → Sighted.InOrder (act.on store).2 ∧
    ∀ path, Path.segments path ∉ places → Storage.sight path (act.on store).2 = Storage.sight path store

namespace Confined
variable {act : Storing σ α} {f : α → Storing σ β}

theorem of_unchanged (h : ∀ store, (act.on store).2 = store) : Confined places act := fun store ho => by
  rw [h]
  exact ⟨ho,fun _ _ => rfl⟩

theorem map (g : α → β) (h : Confined places act) : Confined places (g <$> act) := fun store ho => by
  rw [on_map]
  exact h store ho

theorem inOrder (h : Confined places act) : Preserves Sighted.InOrder act := fun store ho => (h store ho).1

/-- A place outside is found as before. -/
theorem preserves (h : Confined places act) {path : String} (hp : Path.segments path ∉ places) (before : Sight) :
    Preserves (fun store => Sighted.InOrder store ∧ Storage.sight path store = before) act :=
  fun store hs => ⟨(h store hs.1).1,((h store hs.1).2 path hp).trans hs.2⟩

end Confined
end Storing

/-- The calls of a store change at most the node that they are given. -/
class Framed (σ : Type) [Storage σ] extends Sighted σ where
  setUp (now : Timestamp) : (Storage.setUp now : Storing σ Bool).Preserves Sighted.InOrder
  info (path : String) : (Storage.info path : Storing σ (Option Node)).Confined ∅
  create (node : Node) : (Storage.create node : Storing σ Bool).Confined {Path.segments node.path}
  list (path : String) : (Storage.list path : Storing σ (List String)).Confined ∅
  write (now : Timestamp) (path content : String) :
    (Storage.write now path content : Storing σ Bool).Confined {Path.segments path}
  read (path : String) : (Storage.read path : Storing σ (Option String)).Confined ∅
  delete (path : String) : (Storage.delete path : Storing σ Bool).Confined {Path.segments path}
  touch (now : Timestamp) (path : String) : (Storage.touch now path : Storing σ Bool).Confined {Path.segments path}
  stats : (Storage.stats : Storing σ StorageStats).Confined ∅
  cleanup : (Storage.cleanup : Storing σ CleanupStats).Preserves Sighted.InOrder

theorem Framed.keeps_inOrder {σ : Type} [Storage σ] [Framed σ] : Storage.Keeps (Sighted.InOrder : σ → Prop) where
  info path := (Framed.info path).inOrder
  create node _ := (Framed.create node).inOrder
  list path := (Framed.list path).inOrder
  write now path content := (Framed.write now path content).inOrder
  read path := (Framed.read path).inOrder
  delete path := (Framed.delete path).inOrder
  touch now path := (Framed.touch now path).inOrder
  stats := Framed.stats.inOrder

/-! ### The tree in memory -/

namespace Tree
open Storing

instance : Sighted Tree where
  InOrder tree := ∀ root, tree.root = some root → root.Rising
  steady tree := tree

theorem sight_eq (path : String) (tree : Tree) :
    Storage.sight path tree =
      let face := tree.root.bind fun root => root.faces (Path.segments path)
      (.ok (face.map Prod.fst), .ok (face.bind Prod.snd)) := by
  obtain ⟨_ | root⟩ := tree
  · rfl
  · have hread := congrArg Prod.fst (Tree.on_read path ⟨some root⟩)
    cases hf : root.find? (Path.segments path) with
    | none =>
      simp only [Option.bind_some, Entry.faces, hf, Option.map_none, Option.bind_none]
      refine Prod.ext (congrArg (fun found => Except.ok (Option.map Entry.node found)) hf) (hread.trans ?_)
      simp [Tree.find?, hf]
    | some found =>
      simp only [Option.bind_some, Entry.faces, hf, Option.map_some]
      refine Prod.ext ((congrArg (fun found => Except.ok (Option.map Entry.node found)) hf).trans ?_) (hread.trans ?_)
      · rw [Option.map_some, Entry.node_eq_face]
      · simp [Tree.find?, hf]

/-- Altering an entry changes something where its faces change. -/
private theorem alter_confined {places : Set (List String)} {f : Entry → Option Entry} {path : String}
    (h : ∀ found replaced, found.Rising → f found = some replaced → replaced.Rising ∧
      ∀ rest, Path.segments path ++ rest ∉ places → replaced.faces rest = found.faces rest) :
    Confined places (alter f path) := by
  intro tree ho
  obtain ⟨_ | root⟩ := tree
  · exact ⟨ho,fun _ _ => rfl⟩
  cases hb : (root.find? (Path.segments path)).bind f with
  | none =>
    have hon : (alter f path).on ⟨some root⟩ = (.ok false, ⟨some root⟩) := by
      simp [alter, Storing.on_bind, Entry.alter_of_none hb]
    rw [hon]
    exact ⟨ho,fun _ _ => rfl⟩
  | some replaced =>
    obtain ⟨found,hf,hr⟩ := Option.bind_eq_some_iff.mp hb
    obtain ⟨altered,ha,hbelow,hother,hrising⟩ := Entry.faces_alter hf hr
    obtain ⟨hrise,hfaces⟩ := h found replaced (Entry.Rising.find? (ho root rfl) hf) hr
    have hon : (alter f path).on ⟨some root⟩ = (.ok true, ⟨some altered⟩) := by
      simp [alter, Storing.on_bind, ha, Except.map]
    rw [hon]
    refine ⟨fun _ he => Option.some.inj he ▸ hrising (ho root rfl) hrise,fun other hother' => ?_⟩
    rw [sight_eq, sight_eq]
    simp only [Option.bind_some]
    suffices hsame : altered.faces (Path.segments other) = root.faces (Path.segments other) by rw [hsame]
    by_cases hp : Path.segments path <+: Path.segments other
    · obtain ⟨rest,hrest⟩ := hp
      rw [← hrest, hbelow, Entry.faces_of_find? hf, hfaces rest (hrest ▸ hother')]
    · exact hother _ hp

/-- The chain of names of a path that has a last one. -/
private theorem segments_split {path : String} (h : (Path.split path).2.isEmpty = false) :
    Path.segments (Path.split path).1 ++ [(Path.split path).2] = Path.segments path := by
  have hne : Path.segments path ≠ [] := fun he => by
    rw [(Path.split_name_isEmpty_iff path).mpr he] at h
    exact absurd h (by simp)
  obtain ⟨dir,name,hs⟩ := List.eq_nil_or_concat (Path.segments path) |>.resolve_left hne
  rw [List.concat_eq_append] at hs
  have hnamed := hs ▸ Path.named_segments path
  rw [Path.split_eq, hs]
  simp [Path.segments_ofSegments (Path.named_concat.mp hnamed).1]

/-- Cleaning up alters what is temporary. -/
theorem cleanup_confined : Confined {names | View.Temporary names} (Storage.cleanup : Storing Tree CleanupStats) := by
  have hempties : Confined {names | View.Temporary names} (alter emptying tempDir) := by
    refine alter_confined fun found replaced hf hr => ?_
    cases found with
    | file node content => simp [emptying] at hr
    | dir node below =>
      obtain rfl := Option.some.inj hr
      refine ⟨trivial,fun rest hrest => ?_⟩
      have hnil : rest = [] := by
        by_contra hne
        exact hrest ⟨rest,hne,congrArg (· ++ rest) (show Path.segments tempDir = ["tmp"] by decide)⟩
      subst hnil
      rfl
  intro tree ho
  have hafter : ((Storage.cleanup : Storing Tree CleanupStats).on tree).2 = ((alter emptying tempDir).on tree).2 := by
    change ((get >>= fun before => alter emptying tempDir >>= fun _ => pure _ : Storing Tree CleanupStats).on tree).2 = _
    rw [on_bind_ok (on_get tree), on_bind]
    cases (alter emptying tempDir).on tree with
    | mk result after => cases result <;> rfl
  rw [hafter]
  exact hempties tree ho

instance : Framed Tree where
  setUp now tree ho := by
    obtain ⟨_ | root⟩ := tree
    · intro _ he
      obtain rfl := Option.some.inj he
      trivial
    · exact ho
  info _ := .of_unchanged fun _ => rfl
  create node := by
    change Confined _ (if !Path.isName node.name then pure false else alter (adding node) node.parentPath)
    split
    · exact .of_unchanged fun _ => rfl
    · rename_i hname
      have hname : Path.isName node.name = true := by simpa using hname
      refine alter_confined fun found replaced hf hr => ?_
      obtain ⟨_,_,_,_,hfaces,hrise⟩ := adding_eq_some hr
      refine ⟨hrise hf,fun rest hrest => ?_⟩
      rw [hfaces, if_neg]
      rintro rfl
      exact hrest (node.segments_path hname).symm
  list _ := .of_unchanged fun _ => rfl
  write now path content := alter_confined fun found replaced hf hr => by
    cases found with
    | dir node below => simp [rewriting] at hr
    | file node old =>
      obtain rfl := Option.some.inj hr
      refine ⟨trivial,fun rest hrest => ?_⟩
      have hne : rest ≠ [] := by rintro rfl; simp at hrest
      simp [faces_file, hne]
  read path := .of_unchanged fun tree => by
    change ((match tree.find? path with | some (.file _ content) => pure (some content) | _ => pure none : Storing Tree _).on tree).2 = _
    split <;> rfl
  delete path := by
    change Confined _ (if (Path.split path).2.isEmpty then pure false else alter (removing (Path.split path).2) (Path.split path).1)
    split
    · exact .of_unchanged fun _ => rfl
    · rename_i hname
      refine alter_confined fun found replaced hf hr => ?_
      obtain ⟨_,_,_,_,_,_,hfaces,hrise⟩ := removing_eq_some hf hr
      refine ⟨hrise,fun rest hrest => ?_⟩
      rw [hfaces, if_neg]
      rintro rfl
      exact hrest (segments_split (by simpa using hname))
  touch now path := alter_confined fun found replaced hf hr => by
    obtain rfl := Option.some.inj hr
    refine ⟨by cases found <;> exact hf,fun rest hrest => ?_⟩
    have hne : rest ≠ [] := by rintro rfl; simp at hrest
    obtain ⟨name,more,rfl⟩ := List.exists_cons_of_ne_nil hne
    cases found <;> rfl
  stats := .of_unchanged fun _ => rfl
  cleanup := cleanup_confined.inOrder

end Tree

/-! ### The table -/

namespace Table
open Storing

instance : Sighted Table where
  InOrder _ := True
  steady table := table

/-- The rows of a path. -/
private def rowsAt (path : String) (rows : List Row) : List Row := rows.filter fun row => row.path == Path.normalize path

private theorem at?_eq (path : String) (rows : List Row) : at? (Path.normalize path) rows = (rowsAt path rows).head? :=
  List.head?_filter.symm

private theorem find?_file_eq (path : String) (rows : List Row) :
    rows.find? (fun row => row.path == Path.normalize path && !row.isDir) =
      (rowsAt path rows).find? fun row => !row.isDir := by
  rw [rowsAt, List.find?_filter]
  congr
  funext row
  by_cases h : row.path = Path.normalize path <;> simp [h]

private theorem sight_congr {path : String} {a b : Table} (h : a.rows.map (rowsAt path) = b.rows.map (rowsAt path)) :
    Storage.sight path a = Storage.sight path b := by
  obtain ⟨nameA,frozenA,_ | rowsA⟩ := a <;> obtain ⟨nameB,frozenB,_ | rowsB⟩ := b
  · rfl
  · simp at h
  · simp at h
  · have hrows : rowsAt path rowsA = rowsAt path rowsB := Option.some.inj h
    have hinfo : at? (Path.normalize path) rowsA = at? (Path.normalize path) rowsB := by rw [at?_eq, hrows, at?_eq]
    have hread := find?_file_eq path rowsA
    rw [hrows, ← find?_file_eq] at hread
    exact Prod.ext (congrArg (fun found => Except.ok (Option.map Row.node found)) hinfo)
      (congrArg (fun found => Except.ok (Option.map Row.content found)) hread)

/-- A call changes what it does to the rows; without rows it fails. -/
private theorem confined_of_rows {α : Type} {places : Set (List String)} {f : List Row → Storing Table α}
    (h : ∀ path, Path.segments path ∉ places → ∀ table rows, table.rows = some rows →
      ∃ rows', ((f rows).on table).2.rows = some rows' ∧ rowsAt path rows' = rowsAt path rows) :
    Confined places (rowsOf >>= f) := by
  refine fun table _ => ⟨trivial,fun path hp => sight_congr ?_⟩
  cases hr : table.rows with
  | none =>
    have hon : (rowsOf >>= f).on table = (.error (.database "no such table: nodes"), table) := by
      refine on_bind_error ?_
      simp [rowsOf, on_bind, hr]
    rw [hon, hr]
  | some rows =>
    have hon : rowsOf.on table = (.ok rows, table) := by simp [rowsOf, on_bind, hr]
    obtain ⟨rows',hr',hsame⟩ := h path hp table rows hr
    rw [on_bind_ok hon, hr', Option.map_some, hsame, Option.map_some]

private theorem reads_confined {α : Type} {places : Set (List String)} {f : List Row → Storing Table α}
    (h : ∀ table rows, ((f rows).on table).2 = table) : Confined places (rowsOf >>= f) :=
  confined_of_rows fun _ _ table rows hr => ⟨rows,by rw [h, hr],rfl⟩

/-- Rows of other paths stay when the changed rows keep their path. -/
private theorem update_confined {path : String} {picked : Row → Bool} {change : Row → Row}
    (hpicked : ∀ row, picked row = true → row.path = Path.normalize path) (hchange : ∀ row, (change row).path = row.path) :
    Confined {Path.segments path} (update picked change) := by
  refine confined_of_rows fun other ho table rows _ => ⟨_,rfl,?_⟩
  have hne : Path.normalize path ≠ Path.normalize other := fun he => ho ((Path.normalize_eq_iff _ _).mp he).symm
  have hother (row : Row) (hp : row.path = Path.normalize other) : (if picked row then change row else row) = row :=
    if_neg fun h => hne ((hpicked row h).symm.trans hp)
  have hsame (row : Row) : (if picked row then change row else row).path = row.path := by
    split
    · exact hchange row
    · rfl
  rw [rowsAt, List.filter_map, rowsAt]
  simp only [Function.comp_def, hsame]
  refine (List.map_congr_left fun row hrow => ?_).trans (List.map_id _)
  exact hother row (by simpa using (List.mem_filter.mp hrow).2)

/-- Cleaning up takes the rows of what is temporary. -/
theorem cleanup_confined : Confined {names | View.Temporary names} (Storage.cleanup : Storing Table CleanupStats) := by
  refine confined_of_rows fun other ho table rows _ => ⟨_,rfl,?_⟩
  rw [rowsAt, List.filter_filter, rowsAt]
  refine List.filter_congr fun row _ => ?_
  by_cases hp : row.path = Path.normalize other
  · have hkept : isTemporary row = false := by
      rw [← Bool.not_eq_true, isTemporary, List.isPrefixOf_iff_prefix, hp, Path.normalize_eq]
      rw [show (tempDir ++ "/").toList = (Path.ofSegments ["tmp"]).toList ++ ['/'] by decide]
      rw [Path.slash_prefix_iff (by decide) (Path.named_segments other) (by simp)]
      exact ho
    simp [hp, hkept]
  · simp [hp]

instance : Framed Table where
  setUp _ _ _ := trivial
  info _ := reads_confined fun _ _ => rfl
  create node := by
    change Confined _ (if !Path.isName node.name then pure false else rowsOf >>= _)
    split
    · exact .of_unchanged fun _ => rfl
    · rename_i hname
      have hname : Path.isName node.name = true := by simpa using hname
      refine confined_of_rows fun other ho table rows hr => ?_
      split
      · exact ⟨rows,hr,rfl⟩
      split
      · exact ⟨rows,hr,rfl⟩
      refine ⟨_,rfl,?_⟩
      have hne : Path.join (Path.normalize node.parentPath) node.name ≠ Path.normalize other := by
        intro he
        have hs := congrArg Path.segments he
        rw [Path.segments_join _ hname, Path.segments_normalize, Path.segments_normalize] at hs
        exact ho (hs.symm.trans (node.segments_path hname).symm)
      simp [rowsAt, newRow, hne]
  list _ := reads_confined fun _ _ => rfl
  write now path content := update_confined (by simp +contextual) fun _ => rfl
  read _ := reads_confined fun _ _ => rfl
  delete path := by
    change Confined _ (if Path.normalize path == "/" then pure false else rowsOf >>= _)
    split
    · exact .of_unchanged fun _ => rfl
    refine confined_of_rows fun other ho table rows hr => ?_
    have hne : Path.normalize other ≠ Path.normalize path := fun he => ho ((Path.normalize_eq_iff _ _).mp he)
    split
    · exact ⟨rows,hr,rfl⟩
    split
    · exact ⟨rows,hr,rfl⟩
    refine ⟨_,rfl,?_⟩
    rw [rowsAt, List.filter_filter, rowsAt]
    refine List.filter_congr fun row _ => ?_
    by_cases hp : row.path = Path.normalize other <;> simp [hp, hne]
  touch now path := update_confined (by simp) fun _ => rfl
  stats := reads_confined fun _ _ => rfl
  cleanup _ _ := trivial

end Table
end VirtualShell
