import VirtualShell.Proofs.Storage.ProviderFrame
import VirtualShell.Proofs.Storage.Sidecars

/-!
What a lookup tells and what the creation of a directory leaves behind, in every state of every store and whichever calls
and requests fail: a lookup that answers tells what is found, and a directory is made or its place stays as it was.
-/
namespace VirtualShell
open Storing

/-! ### What is found at a path -/

namespace Storage
variable {σ : Type} [Storage σ] [Sighted σ]

/-- Nothing is found at a path. -/
def MissingAt (path : String) (store : σ) : Prop := (sight path store).1 = .ok none

/-- A directory is found at a path. -/
def DirectoryAt (path : String) (store : σ) : Prop := ∃ node, (sight path store).1 = .ok (some node) ∧ node.isDir = true

/-- A file is found at a path. -/
def FileAt (path : String) (store : σ) : Prop := ∃ node, (sight path store).1 = .ok (some node) ∧ node.isDir = false

/-- A directory is found at a path that knows its place and has no content. -/
def NewDirectoryAt (path : String) (store : σ) : Prop :=
  ∃ node, sight path store = (.ok (some node), .ok none) ∧ node.isDir = true ∧ node.path = Path.normalize path

theorem NewDirectoryAt.directoryAt {path : String} {store : σ} (h : NewDirectoryAt path store) : DirectoryAt path store := by
  obtain ⟨node,hsight,hdir,_⟩ := h
  exact ⟨node,by rw [hsight],hdir⟩

/-- A creation leaves a new directory if it is done, and else its place as it was, whether it is refused or fails. -/
def MakesDirectory (node : Node) (store : σ) : Prop :=
  (create node).Ends store (fun after => sight node.path after = sight node.path store) fun done after =>
    if done then NewDirectoryAt node.path after else sight node.path after = sight node.path store

end Storage

/-- A store whose lookups tell what is found and whose new directories are found. -/
class Candid (σ : Type) [Storage σ] extends Framed σ where
  sight_normalize (path : String) (store : σ) : Storage.sight (Path.normalize path) store = Storage.sight path store
  info_tells (path : String) (store : σ) :
    (Storage.info path).Ends store (fun _ => True) fun found _ => (Storage.sight path store).1 = .ok found
  makesDirectory {node : Node} (store : σ) : Path.isName node.name = true → node.isDir = true → Storage.MakesDirectory node store

/-- The same is found at a path in whatever form. -/
theorem Candid.sight_congr {σ : Type} [Storage σ] [Candid σ] {a b : String} (h : Path.segments a = Path.segments b) (store : σ) :
    Storage.sight a store = Storage.sight b store := by
  rw [← sight_normalize a, (Path.normalize_eq_iff a b).mpr h, sight_normalize]

/-- A lookup in a store of which no call is to fail is what is found. -/
private theorem info_tells_of_steady {σ : Type} [Storage σ] [Sighted σ] {store : σ} (h : Sighted.steady store = store) (path : String) :
    (Storage.info path).Ends store (fun _ => True) fun found _ => (Storage.sight path store).1 = .ok found := by
  rw [Storage.sight, h]
  cases he : (Storage.info path).on store with
  | mk result after =>
    rw [Ends, he]
    cases result <;> trivial

/-! ### The tree in memory -/

namespace Tree

private theorem on_alter (f : Entry → Option Entry) (path : String) (tree : Tree) : (alter f path).on tree =
    match tree.root.bind (Entry.alter f (Path.segments path)) with
    | some root => (.ok true, ⟨some root⟩)
    | none => (.ok false, tree) := by
  obtain ⟨_ | root⟩ := tree
  · rfl
  · rw [alter, on_bind_ok (on_get _)]
    dsimp only [Option.bind_some]
    cases root.alter f (Path.segments path) <;> rfl

private theorem makesDirectory {node : Node} (tree : Tree) (hname : Path.isName node.name = true) (hdir : node.isDir = true) :
    Storage.MakesDirectory node tree := by
  have hon : (Storage.create node).on tree = (alter (adding node) node.parentPath).on tree := by
    change (if !Path.isName node.name then pure false else alter (adding node) node.parentPath).on tree = _
    rw [if_neg (by simp [hname])]
  rw [Storage.MakesDirectory, Ends, hon, on_alter]
  cases ha : tree.root.bind (Entry.alter (adding node) (Path.segments node.parentPath)) with
  | none => rfl
  | some altered =>
    obtain ⟨root,hroot,halter⟩ := Option.bind_eq_some_iff.mp ha
    cases hb : (root.find? (Path.segments node.parentPath)).bind (adding node) with
    | none => simp [Entry.alter_of_none hb] at halter
    | some replaced =>
      obtain ⟨found,hf,hr⟩ := Option.bind_eq_some_iff.mp hb
      obtain ⟨_,_,_,_,hfaces,_⟩ := adding_eq_some hr
      obtain ⟨other,hother,hupdate,_⟩ := Entry.faces_alter_at hf hr hfaces
      obtain rfl : altered = other := Option.some.inj (halter.symm.trans hother)
      have hface : (newEntry node).face = ({ node with parentPath := Path.normalize node.parentPath },none) := by
        simp [newEntry, hdir, Entry.face]
      refine ⟨{ node with parentPath := Path.normalize node.parentPath },?_,hdir,Node.path_placed hname⟩
      rw [sight_eq, node.segments_path hname, Option.bind_some, hupdate, Node.target, Function.update_self, hface]
      rfl

instance : Candid Tree where
  sight_normalize path tree := by rw [sight_eq, sight_eq, Path.segments_normalize]
  info_tells path _ := info_tells_of_steady rfl path
  makesDirectory := makesDirectory

end Tree

/-! ### The table -/

namespace Table

private theorem on_rowsOf_elim (table : Table) :
    rowsOf.on table = (table.rows.elim (.error (.database "no such table: nodes")) .ok,table) := by
  obtain ⟨_,_,_ | rows⟩ := table <;> rfl

private theorem sight_of_rows {table : Table} {rows : List Row} (h : table.rows = some rows) (path : String) :
    Storage.sight path table = (.ok ((at? (Path.normalize path) rows).map Row.node),
      .ok ((rows.find? fun row => row.path == Path.normalize path && !row.isDir).map Row.content)) := by
  obtain ⟨_,_,_⟩ := table
  cases h
  rfl

private theorem makesDirectory {node : Node} (table : Table) (hname : Path.isName node.name = true) (hdir : node.isDir = true) :
    Storage.MakesDirectory node table := by
  have hpath : Path.join (Path.normalize node.parentPath) node.name = Path.normalize node.path := by
    have hplaced := Node.path_placed hname
    rwa [Node.path, if_neg (by simp [Path.name_nonempty hname])] at hplaced
  change (if !Path.isName node.name then pure false else rowsOf >>= _ : Storing Table Bool).Ends table _ _
  rw [if_neg (by simp [hname])]
  cases hrows : table.rows with
  | none =>
    have hon : rowsOf.on table = (.error (.database "no such table: nodes"),table) := by rw [on_rowsOf_elim, hrows, Option.elim_none]
    rw [Ends, on_bind_error hon]
  | some rows =>
    refine .bind_ok (by rw [on_rowsOf_elim, hrows, Option.elim_some]) ?_
    split
    · exact .pure rfl
    split
    · exact .pure rfl
    rename_i htaken
    rw [hpath] at htaken ⊢
    have hfree : at? (Path.normalize node.path) rows = none := by simpa using htaken
    have hno : ∀ row ∈ rows, row.path ≠ Path.normalize node.path := by simpa [at?] using hfree
    have hplain : rows.find? (fun row => row.path == Path.normalize node.path && !row.isDir) = none := by
      simpa using fun row hrow he => absurd he (hno row hrow)
    refine ⟨Row.node (newRow node (Path.normalize node.parentPath) (Path.normalize node.path)),?_,hdir,?_⟩
    · rw [sight_of_rows rfl, at?, List.find?_append, ← at?, hfree, List.find?_append, hplain]
      simp [newRow, hdir]
    · rw [← hpath, Node.path, if_neg (by simp [Row.node, newRow, Path.name_nonempty hname])]
      rfl

instance : Candid Table where
  sight_normalize path table := by simp only [Storage.sight, Storage.info, Storage.read, Path.normalize_normalize]
  info_tells path _ := info_tells_of_steady rfl path
  makesDirectory := makesDirectory

end Table

/-! ### The store over an object service -/

namespace Objects

/-- A request for a sidecar that goes through gives what is there. -/
private theorem info_tells (path : String) (store : Objects) : (load (Path.normalize path)).Ends store (fun _ => True) fun found _ =>
    (Storage.sight path store).1 = .ok found := by
  cases hb : Keyed.find? store.bucket store.client.buckets with
  | none =>
    have hlacks : Lacks store.client.fails store.bucket store.keyPrefix store := ⟨rfl,rfl,rfl,hb⟩
    exact (hlacks.load _).mono (fun _ _ => trivial) fun _ _ hf => hf.elim
  | some objects =>
    have hstocks : Stocks store.client.fails store.bucket store.keyPrefix objects store := ⟨rfl,rfl,rfl,hb⟩
    have hfetch := (fetch_ends hstocks (store.nodeKey (Path.normalize path))).mono (fun _ _ => trivial) fun _ _ h => h.1
    refine .get_bind (hfetch.bind fun found _ hfound => ?_)
    rw [sight_eq, hstocks.bodyAt, ← hfound]
    cases found with
    | none => exact .pure rfl
    | some body =>
      simp only [decode, loaded, Option.elim_some]
      cases Node.ofJson (Text.decodeLossy body) <;> trivial

theorem Stocks.sight_congr {fails : Nat → Request → Bool} {bucket keyPrefix : String} {objects : Keyed ByteArray} {a b : Objects}
    (ha : Stocks fails bucket keyPrefix objects a) (hb : Stocks fails bucket keyPrefix objects b) (path : String) :
    Storage.sight path a = Storage.sight path b := by
  have hmissing : a.missing = b.missing := by rw [missing, missing, ha.bucket_eq, hb.bucket_eq]
  rw [sight_eq, sight_eq]
  simp only [ha.bodyAt, hb.bodyAt, loaded, readFrom, nodeKey, contentKey, key_eq, ha.prefix_eq, hb.prefix_eq, hmissing]

theorem Lacks.sight_congr {fails : Nat → Request → Bool} {bucket keyPrefix : String} {a b : Objects}
    (ha : Lacks fails bucket keyPrefix a) (hb : Lacks fails bucket keyPrefix b) (path : String) :
    Storage.sight path a = Storage.sight path b := by
  have hbody {store : Objects} (h : Lacks fails bucket keyPrefix store) (key : String) : bodyAt store key = none := by
    rw [bodyAt, h.bucket_eq, h.missing, Option.map_none]
  have hmissing : a.missing = b.missing := by rw [Objects.missing, Objects.missing, ha.bucket_eq, hb.bucket_eq]
  rw [sight_eq, sight_eq]
  simp only [hbody ha, hbody hb, loaded, readFrom, hmissing]

private theorem makesDirectory {node : Node} (store : Objects) (hname : Path.isName node.name = true) (hdir : node.isDir = true) :
    Storage.MakesDirectory node store := by
  cases hb : Keyed.find? store.bucket store.client.buckets with
  | none =>
    have hlacks : Lacks store.client.fails store.bucket store.keyPrefix store := ⟨rfl,rfl,rfl,hb⟩
    refine (hlacks.create node).mono (fun _ h => h.sight_congr hlacks _) fun done after ⟨hno,h⟩ => ?_
    rw [hno, if_neg (by simp)]
    exact h.sight_congr hlacks _
  | some objects =>
    have hstocks : Stocks store.client.fails store.bucket store.keyPrefix objects store := ⟨rfl,rfl,rfl,hb⟩
    refine (create_ends hstocks node).mono ?_ ?_
    · rintro after (⟨h,_⟩ | ⟨⟨_,hfile⟩,_⟩)
      · exact h.sight_congr hstocks _
      · exact absurd hdir (by simp [hfile])
    · rintro done after (⟨rfl,_,h⟩ | ⟨rfl,_,h⟩)
      · exact h.sight_congr hstocks _
      · have hsegments := node.segments_path hname
        have hcreated : created node = { node with parentPath := Path.normalize node.parentPath } := by simp [created, hdir]
        refine ⟨created node,?_,hdir,by rw [hcreated, Node.path_placed hname]⟩
        rw [if_pos hdir, insertNode] at h
        rw [sight_eq, Path.normalize_eq, hsegments, nodeKey, key_eq, h.prefix_eq, h.bodyAt, Keyed.find?_insert, if_pos rfl]
        have hloaded : loaded after (some (some (created node).toJson.toUTF8)) = .ok (some (created node)) := by
          rw [loaded, Option.elim_some, Option.elim_some, Text.decodeLossy_toUTF8, Node.ofJson_toJson]
        dsimp only
        rw [hloaded, readFrom, if_pos (show (created node).isDir = true from hdir)]

instance : Candid Objects where
  sight_normalize path store := by rw [sight_eq, sight_eq, Path.normalize_normalize]
  info_tells := info_tells
  makesDirectory := makesDirectory

end Objects

/-! ### Calls that are made to fail -/

namespace Faulty
variable {σ : Type}

private theorem attempt_ends {α : Type} {call : Call} {act : Storing σ α} {faulty : Faulty σ} {failed : σ → Prop}
    {wanted : α → σ → Prop} (h : act.Ends faulty.store failed wanted) (hkeep : failed faulty.store) :
    (attempt call act).Ends faulty (fun after => failed after.store) fun a after => wanted a after.store := by
  by_cases hf : faulty.fails faulty.calls call = true
  · rw [Ends, on_attempt, if_pos hf]
    exact hkeep
  · exact h.lift (fun store => { faulty with store, calls := faulty.calls + 1 }) (by rw [on_attempt, if_neg hf])

instance [Storage σ] [Candid σ] : Candid (Faulty σ) where
  sight_normalize path faulty := Candid.sight_normalize path faulty.store
  info_tells path faulty := attempt_ends (Candid.info_tells path faulty.store) trivial
  makesDirectory faulty hname hdir := by
    have h := Candid.makesDirectory faulty.store hname hdir
    rw [Storage.MakesDirectory] at h
    exact attempt_ends h rfl

end Faulty

/-! ### Stores made by name -/

namespace Provider

instance : Candid Provider where
  sight_normalize path
    | .tree store => Candid.sight_normalize path store
    | .table store => Candid.sight_normalize path store
    | .objects store => Candid.sight_normalize path store
    | .faulty store => Candid.sight_normalize path store
  info_tells path
    | .tree store => (Candid.info_tells path store).lift .tree rfl
    | .table store => (Candid.info_tells path store).lift .table rfl
    | .objects store => (Candid.info_tells path store).lift .objects rfl
    | .faulty store => (Candid.info_tells path store).lift .faulty rfl
  makesDirectory
    | .tree store, hname, hdir => Ends.lift .tree rfl (Candid.makesDirectory store hname hdir)
    | .table store, hname, hdir => Ends.lift .table rfl (Candid.makesDirectory store hname hdir)
    | .objects store, hname, hdir => Ends.lift .objects rfl (Candid.makesDirectory store hname hdir)
    | .faulty store, hname, hdir => Ends.lift .faulty rfl (Candid.makesDirectory store hname hdir)

end Provider
end VirtualShell
