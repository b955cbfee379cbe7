import Mathlib.Data.List.Find
import Mathlib.Data.String.Basic
import VirtualShell.Proofs.Storage.Contract
import VirtualShell.Storage.Table

/-!
The table of rows keeps the contract of stores. Rows are found by path, and rows with different paths lie at
different chains of names.
-/
namespace VirtualShell

namespace Row

def item (row : Row) : Item := if row.isDir then .dir else .file row.content

/-- A row names its place, and its columns agree with what it stands for. -/
def Placed (row : Row) : Prop :=
  row.path = Path.normalize row.path ∧
    (Table.Row.node row).untimed = View.node (Path.segments row.path) row.item

theorem isDir_item (row : Row) : row.item.isDir = row.isDir := by
  cases h : row.isDir <;> simp [item, h, Item.isDir]

theorem item_eq_dir (row : Row) : row.item = .dir ↔ row.isDir = true := by
  rw [← isDir_item, Item.isDir_iff]

end Row

namespace Table

/-- The row at a chain of names. -/
def rowAt (names : List String) (rows : List Row) : Option Row :=
  rows.find? fun row => Path.segments row.path == names

def viewOf (rows : List Row) : View := fun names => (rowAt names rows).map Row.item

/-- The rows of tables that are set up. -/
structure SoundRows (rows : List Row) : Prop where
  distinct : (rows.map Row.path).Nodup
  placed : ∀ row ∈ rows, row.Placed
  wellFormed : (viewOf rows).WellFormed

instance : Viewed Table where
  Sound table := table.frozen = false ∧ ∃ rows, table.rows = some rows ∧ SoundRows rows
  view table := viewOf (table.rows.getD [])

variable {rows : List Row} {row : Row} {names : List String}

private theorem path_eq_iff (h : row.Placed) (path : String) :
    row.path = Path.normalize path ↔ Path.segments row.path = Path.segments path := by
  rw [h.1, Path.normalize_eq_iff, Path.segments_normalize]

private theorem at_path (h : row.Placed) (path : String) :
    (row.path == Path.normalize path) = (Path.segments row.path == Path.segments path) := by
  rw [Bool.beq_eq_decide_eq, Bool.beq_eq_decide_eq]
  exact decide_eq_decide.mpr (path_eq_iff h path)

private theorem at?_normalize (h : SoundRows rows) (path : String) :
    at? (Path.normalize path) rows = rowAt (Path.segments path) rows :=
  List.find?_congr fun row hr => at_path (h.placed row hr) path

private theorem eq_of_segments (h : SoundRows rows) {a b : Row} (ha : a ∈ rows) (hb : b ∈ rows)
    (he : Path.segments a.path = Path.segments b.path) : a = b := by
  apply List.inj_on_of_nodup_map h.distinct ha hb
  rw [(h.placed b hb).1, path_eq_iff (h.placed a ha), he]

private theorem find?_of_unique {p : Row → Bool} (hm : row ∈ rows) (hp : p row = true)
    (h : ∀ other ∈ rows, p other = true → other = row) : rows.find? p = some row := by
  cases hf : rows.find? p with
  | none => exact absurd hp (List.find?_eq_none.mp hf row hm)
  | some other => rw [h other (List.mem_of_find?_eq_some hf) (List.find?_some hf)]

theorem rowAt_eq_some_iff (h : SoundRows rows) :
    rowAt names rows = some row ↔ row ∈ rows ∧ Path.segments row.path = names := by
  constructor
  · intro hr
    exact ⟨List.mem_of_find?_eq_some hr,by simpa using List.find?_some hr⟩
  · rintro ⟨hm,rfl⟩
    exact find?_of_unique hm (by simp) fun other ho he => eq_of_segments h ho hm (by simpa using he)

/-- Looking for a row at a place with one property more. -/
theorem find?_at (h : SoundRows rows) (names : List String) (q : Row → Bool) :
    rows.find? (fun row => Path.segments row.path == names && q row) = (rowAt names rows).filter q := by
  cases hr : rowAt names rows with
  | none =>
    have hno := List.find?_eq_none.mp hr
    simp only [Option.filter_none, List.find?_eq_none, Bool.and_eq_true, not_and]
    intro row hm hs
    exact absurd hs (hno row hm)
  | some row =>
    obtain ⟨hm,hs⟩ := (rowAt_eq_some_iff h).mp hr
    cases hq : q row with
    | true =>
      rw [Option.filter_some, hq]
      refine find?_of_unique hm (by simp [hs, hq]) fun other ho he => eq_of_segments h ho hm ?_
      simp only [Bool.and_eq_true, beq_iff_eq] at he
      rw [he.1, hs]
    | false =>
      rw [Option.filter_some, hq]
      simp only [Bool.false_eq_true, if_false, List.find?_eq_none, Bool.and_eq_true, beq_iff_eq, not_and]
      intro other ho he hqo
      rw [eq_of_segments h ho hm (by rw [he, hs]), hq] at hqo
      exact absurd hqo (by simp)

theorem rowAt_filter (h : SoundRows rows) (keep : Row → Bool) (names : List String) :
    rowAt names (rows.filter keep) = (rowAt names rows).filter keep := by
  rw [rowAt, List.find?_filter, ← find?_at h]
  apply List.find?_congr
  intro row _
  simp [Bool.and_comm, Bool.beq_eq_decide_eq]

theorem rowAt_map {change : Row → Row} (hpath : ∀ row, (change row).path = row.path) (names : List String) :
    rowAt names (rows.map change) = (rowAt names rows).map change := by
  rw [rowAt, List.find?_map]
  simp [rowAt, hpath]

theorem rowAt_concat (names : List String) (rows : List Row) (row : Row) :
    rowAt names (rows ++ [row]) = (rowAt names rows).or (if Path.segments row.path = names then some row else none) := by
  rw [rowAt, List.find?_append, List.find?_singleton]
  simp [rowAt]

theorem viewOf_isSome (rows : List Row) (names : List String) : (viewOf rows names).isSome = (rowAt names rows).isSome := by
  simp [viewOf]

@[simp] private theorem on_rowsOf (name : DatabaseName) (frozen : Bool) (rows : List Row) :
    rowsOf.on ⟨name,frozen,some rows⟩ = (.ok rows, ⟨name,frozen,some rows⟩) := rfl

@[simp] private theorem on_setRows (name : DatabaseName) (frozen : Bool) (rows : Option (List Row)) (after : List Row) :
    (setRows after).on ⟨name,frozen,rows⟩ = (.ok (), ⟨name,frozen,some after⟩) := rfl

theorem info_meets {name : DatabaseName} (path : String) (h : SoundRows rows) :
    (Storage.info path : Storing Table (Option Node)).Meets ⟨name,false,some rows⟩ fun node after =>
      after = viewOf rows ∧ node.map Node.untimed = (viewOf rows).node? (Path.segments path) := by
  refine .of_on rfl ⟨⟨rfl,rows,rfl,h⟩,rfl,?_⟩
  rw [at?_normalize h, View.node?, viewOf]
  cases hr : rowAt (Path.segments path) rows with
  | none => rfl
  | some row =>
    obtain ⟨hm,hs⟩ := (rowAt_eq_some_iff h).mp hr
    simp only [Option.map_some, ← hs, (h.placed row hm).2]

theorem read_meets {name : DatabaseName} (path : String) (h : SoundRows rows) :
    (Storage.read path : Storing Table (Option String)).Meets ⟨name,false,some rows⟩ fun content after =>
      after = viewOf rows ∧ content = (viewOf rows).content? (Path.segments path) := by
  refine .of_on rfl ⟨⟨rfl,rows,rfl,h⟩,rfl,?_⟩
  have hfind : rows.find? (fun row => row.path == Path.normalize path && !row.isDir) =
      (rowAt (Path.segments path) rows).filter fun row => !row.isDir := by
    rw [← find?_at h]
    exact List.find?_congr fun row hr => by rw [at_path (h.placed row hr)]
  rw [hfind, View.content?, viewOf]
  cases rowAt (Path.segments path) rows with
  | none => rfl
  | some row => cases hd : row.isDir <;> simp [Option.filter_some, hd, Row.item, Item.content?]

private theorem at?_isDir (h : SoundRows rows) (path : String) :
    (at? (Path.normalize path) rows).any Row.isDir = true ↔ viewOf rows (Path.segments path) = some .dir := by
  rw [at?_normalize h, viewOf]
  cases rowAt (Path.segments path) rows with
  | none => simp
  | some row => simp [Row.item_eq_dir]

/-- A row is a child of the directory that its parent column names. -/
private theorem parentPath_eq_iff (h : row.Placed) (dir : String) :
    row.parentPath = Path.normalize dir ↔ ∃ name, Path.segments row.path = Path.segments dir ++ [name] := by
  have hp : row.parentPath = if (Path.segments row.path).isEmpty then "" else
      Path.ofSegments (Path.segments row.path).dropLast := congrArg Node.parentPath h.2
  rw [hp, Path.normalize_eq]
  have hnamed := Path.named_segments row.path
  rcases List.eq_nil_or_concat (Path.segments row.path) with hs | ⟨above,name,hs⟩
  · obtain ⟨rest,hr⟩ := Path.head_ofSegments (Path.segments dir)
    have hne : "" ≠ Path.ofSegments (Path.segments dir) := by
      rw [ne_eq, ← String.toList_inj, hr]
      simp
    simp [hs, hne]
  · rw [List.concat_eq_append] at hs
    rw [hs] at hnamed ⊢
    rw [if_neg (by simp), List.dropLast_concat,
      Path.ofSegments_inj (Path.named_concat.mp hnamed).1 (Path.named_segments dir)]
    constructor
    · rintro rfl
      exact ⟨name,rfl⟩
    · rintro ⟨n,hn⟩
      exact List.append_inj_left' hn rfl

/-- The row of a new node is placed at the node's target. -/
private theorem placed_newRow (node : Node) (hname : Path.isName node.name = true) :
    (newRow node (Path.normalize node.parentPath) (Path.ofSegments node.target)).Placed ∧
      (newRow node (Path.normalize node.parentPath) (Path.ofSegments node.target)).item = .new node.isDir := by
  have hnamed : Path.Named node.target := Path.named_concat.mpr ⟨Path.named_segments _,hname⟩
  have hitem : (newRow node (Path.normalize node.parentPath) (Path.ofSegments node.target)).item = .new node.isDir := by
    cases hd : node.isDir <;> simp [newRow, Row.item, hd, Item.new]
  refine ⟨⟨(Path.normalize_ofSegments hnamed).symm,?_⟩,hitem⟩
  rw [hitem, newRow, Path.segments_ofSegments hnamed]
  refine View.untimed_created rfl rfl rfl ?_
  cases hd : node.isDir <;> simp [Row.node, Item.new, Item.size]

private theorem sound_concat (h : SoundRows rows) (hfree : rowAt (Path.segments row.path) rows = none)
    (hrow : row.Placed) (hwf : (viewOf (rows ++ [row])).WellFormed) : SoundRows (rows ++ [row]) where
  distinct := by
    rw [List.map_append, List.map_singleton, List.nodup_append]
    refine ⟨h.distinct,List.nodup_singleton _,?_⟩
    rintro path hp _ hq rfl
    obtain ⟨other,hm,he⟩ := List.mem_map.mp hp
    rw [List.mem_singleton.mp hq] at he
    exact List.find?_eq_none.mp hfree other hm (by simp [he])
  placed other hm := by
    rcases List.mem_append.mp hm with hm | hm
    · exact h.placed other hm
    · exact List.mem_singleton.mp hm ▸ hrow
  wellFormed := hwf

theorem create_meets {name : DatabaseName} (node : Node) (h : SoundRows rows) :
    (Storage.create node : Storing Table Bool).Meets ⟨name,false,some rows⟩ ((viewOf rows).Creates node) := by
  have hparent := at?_isDir h node.parentPath
  by_cases hname : Path.isName node.name = true
  swap
  · refine .of_on (a := false) (by simp [Storage.create, hname]; rfl) ⟨⟨rfl,rows,rfl,h⟩,?_,rfl⟩
    simpa using fun hc : (viewOf rows).CanCreate node => hname hc.1
  have hnamed : Path.Named node.target := Path.named_concat.mpr ⟨Path.named_segments _,hname⟩
  have hjoin : Path.join (Path.normalize node.parentPath) node.name = Path.ofSegments node.target := by
    rw [Path.normalize_eq, Path.join_ofSegments (Path.named_segments _) hname]
    rfl
  have hat : at? (Path.ofSegments node.target) rows = rowAt node.target rows := by
    rw [← Path.normalize_ofSegments hnamed, at?_normalize h, Path.segments_ofSegments hnamed]
  by_cases hdir : (at? (Path.normalize node.parentPath) rows).any Row.isDir = true
  swap
  · refine .of_on (a := false) (by simp [Storage.create, Storing.on_bind, hname, hdir]; rfl) ⟨⟨rfl,rows,rfl,h⟩,?_,rfl⟩
    simpa using fun hc : (viewOf rows).CanCreate node => hdir (hparent.mpr hc.2.1)
  cases hfree : rowAt node.target rows with
  | some row =>
    refine .of_on (a := false) (by simp [Storage.create, Storing.on_bind, hname, hdir, hjoin, hat, hfree]; rfl)
      ⟨⟨rfl,rows,rfl,h⟩,?_,rfl⟩
    simp only [Bool.false_eq_true, false_iff]
    rintro ⟨_,_,hc⟩
    simp [viewOf, hfree] at hc
  | none =>
    obtain ⟨hplaced,hitem⟩ := placed_newRow node hname
    have hcan : (viewOf rows).CanCreate node := ⟨hname,hparent.mp hdir,by simp [viewOf, hfree]⟩
    have hview : viewOf (rows ++ [newRow node (Path.normalize node.parentPath) (Path.ofSegments node.target)]) =
        (viewOf rows).set node.target (some (.new node.isDir)) := by
      funext names
      rw [View.set_apply, viewOf, rowAt_concat, newRow, Path.segments_ofSegments hnamed]
      by_cases hn : names = node.target
      · subst hn
        simp only [hfree, Option.none_or, if_true, Option.map_some]
        rw [← hitem, newRow]
      · simp [Ne.symm hn, hn, viewOf]
    refine .of_on (a := true) (by simp [Storage.create, Storing.on_bind, hname, hdir, hjoin, hat, hfree, Except.map]; rfl) ⟨⟨rfl,_,rfl,?_⟩,by simpa using hcan,hview⟩
    refine sound_concat h ?_ hplaced (hview ▸ h.wellFormed.create hcan)
    rwa [newRow, Path.segments_ofSegments hnamed]

/-- What updating comes to, if the change keeps the paths of rows and fits their places. -/
private theorem update_meets {name : DatabaseName} (path : String) (kind : Row → Bool) (change : Row → Row)
    {wanted : Bool → View → Prop} (h : SoundRows rows) (hpath : ∀ row, (change row).path = row.path)
    (hplaced : ∀ row ∈ rows, kind row = true → (change row).Placed)
    (hwanted : ∀ done after, (done = true ↔ ∃ row, rowAt (Path.segments path) rows = some row ∧ kind row = true) →
      (∀ names, after names = (rowAt names rows).map fun row =>
        if names = Path.segments path ∧ kind row = true then (change row).item else row.item) →
      after.WellFormed ∧ wanted done after) :
    (update (fun row => row.path == Path.normalize path && kind row) change).Meets ⟨name,false,some rows⟩ wanted := by
  let picked (row : Row) : Bool := row.path == Path.normalize path && kind row
  let changed := rows.map fun row => if picked row then change row else row
  have hpicked (row : Row) (hm : row ∈ rows) : picked row = true ↔ Path.segments row.path = Path.segments path ∧ kind row = true := by
    simp [picked, at_path (h.placed row hm)]
  have hsame (row : Row) : (if picked row then change row else row).path = row.path := by
    split
    · exact hpath row
    · rfl
  have hdone : rows.any picked = true ↔ ∃ row, rowAt (Path.segments path) rows = some row ∧ kind row = true := by
    simp only [List.any_eq_true, rowAt_eq_some_iff h]
    exact exists_congr fun row => by
      rw [and_assoc]
      exact and_congr_right (hpicked row)
  have hview (names : List String) : viewOf changed names = (rowAt names rows).map fun row =>
      if names = Path.segments path ∧ kind row = true then (change row).item else row.item := by
    rw [viewOf, rowAt_map hsame, Option.map_map]
    cases hr : rowAt names rows with
    | none => rfl
    | some row =>
      obtain ⟨hm,hs⟩ := (rowAt_eq_some_iff h).mp hr
      simp only [Option.map_some, Function.comp_apply, hpicked row hm, hs]
      split <;> rfl
  obtain ⟨hwf,hw⟩ := hwanted (rows.any picked) (viewOf changed) hdone hview
  refine .of_on (a := rows.any picked) (t := ⟨name,false,some changed⟩) ?_ ⟨⟨rfl,_,rfl,?_,?_,hwf⟩,hw⟩
  · simp [update, Storing.on_bind, Except.map, picked, changed]
  · rw [List.map_map, show Row.path ∘ (fun row => if picked row then change row else row) = Row.path from funext hsame]
    exact h.distinct
  · intro row hm
    obtain ⟨old,ho,rfl⟩ := List.mem_map.mp hm
    split
    · exact hplaced old ho ((hpicked old ho).mp ‹_›).2
    · exact h.placed old ho

theorem write_meets {name : DatabaseName} (now : Timestamp) (path content : String) (h : SoundRows rows) :
    (Storage.write now path content : Storing Table Bool).Meets ⟨name,false,some rows⟩
      ((viewOf rows).Writes (Path.segments path) content) := by
  refine update_meets path (fun row => !row.isDir) _ h (fun _ => rfl) ?_ ?_
  · intro row hm hk
    refine ⟨(h.placed row hm).1,?_⟩
    have hnode := (h.placed row hm).2
    have hd : ¬ row.isDir = true := by simpa using hk
    rw [Row.item, if_neg hd] at hnode ⊢
    exact View.untimed_rewritten hnode now content
  · intro done after hdone hafter
    have hfile : (viewOf rows).IsFile (Path.segments path) ↔
        ∃ row, rowAt (Path.segments path) rows = some row ∧ (!row.isDir) = true := by
      simp only [View.IsFile, viewOf, Option.map_eq_some_iff]
      constructor
      · rintro ⟨old,row,hr,ho⟩
        exact ⟨row,hr,by rw [← Row.isDir_item, ho]; rfl⟩
      · rintro ⟨row,hr,hd⟩
        exact ⟨row.content,row,hr,by simp_all [Row.item]⟩
    have hwrites : (viewOf rows).Writes (Path.segments path) content done after := by
      refine ⟨hdone.trans hfile.symm,?_⟩
      funext names
      rw [hafter]
      by_cases hn : names = Path.segments path
      · subst hn
        cases hr : rowAt (Path.segments path) rows with
        | none => simp_all [viewOf]
        | some row => cases hd : row.isDir <;> simp_all [Row.item, viewOf]
      · cases done <;> simp [hn, viewOf, View.set_ne]
    exact ⟨h.wellFormed.of_writes hwrites,hwrites⟩

theorem touch_meets {name : DatabaseName} (now : Timestamp) (path : String) (h : SoundRows rows) :
    (Storage.touch now path : Storing Table Bool).Meets ⟨name,false,some rows⟩
      ((viewOf rows).Touches (Path.segments path)) := by
  have hat : (Storage.touch now path : Storing Table Bool) =
      update (fun row => row.path == Path.normalize path && true) fun row => { row with modifiedAt := now } := by
    simp [Storage.touch]
  rw [hat]
  refine update_meets path (fun _ => true) _ h (fun _ => rfl) (fun row hm _ => h.placed row hm) ?_
  intro done after hdone hafter
  have hview : after = viewOf rows := by
    funext names
    rw [hafter, viewOf]
    congr 1
    funext row
    split <;> rfl
  subst hview
  exact ⟨h.wellFormed,by simp [hdone, viewOf_isSome, Option.isSome_iff_exists],rfl⟩

/-- Rows are taken out together with all below them. -/
private theorem sound_filter (h : SoundRows rows) {keep : Row → Bool} (hwf : (viewOf (rows.filter keep)).WellFormed) :
    SoundRows (rows.filter keep) where
  distinct := h.distinct.sublist (List.filter_sublist.map _)
  placed row hm := h.placed row (List.mem_of_mem_filter hm)
  wellFormed := hwf

private theorem any_child (h : SoundRows rows) (path : String) :
    rows.any (fun row => row.parentPath == Path.normalize path) = true ↔
      ∃ name, (viewOf rows (Path.segments path ++ [name])).isSome := by
  simp only [List.any_eq_true, beq_iff_eq, viewOf_isSome, Option.isSome_iff_exists, rowAt_eq_some_iff h]
  constructor
  · rintro ⟨row,hm,hp⟩
    obtain ⟨name,hn⟩ := (parentPath_eq_iff (h.placed row hm) path).mp hp
    exact ⟨name,row,hm,hn⟩
  · rintro ⟨name,row,hm,hn⟩
    exact ⟨row,hm,(parentPath_eq_iff (h.placed row hm) path).mpr ⟨name,hn⟩⟩

theorem delete_meets {name : DatabaseName} (path : String) (h : SoundRows rows) :
    (Storage.delete path : Storing Table Bool).Meets ⟨name,false,some rows⟩
      ((viewOf rows).Deletes (Path.segments path)) := by
  by_cases hroot : Path.segments path = []
  · have hpath : Path.normalize path = "/" := (Path.normalize_eq_root_iff path).mpr hroot
    refine .of_on (a := false) (by simp [Storage.delete, hpath]; rfl) ⟨⟨rfl,rows,rfl,h⟩,?_,rfl⟩
    simp [View.CanDelete, hroot]
  have hpath : Path.normalize path ≠ "/" := fun he => hroot ((Path.normalize_eq_root_iff path).mp he)
  cases hr : rowAt (Path.segments path) rows with
  | none =>
    refine .of_on (a := false) (by simp [Storage.delete, Storing.on_bind, hpath, at?_normalize h, hr]; rfl) ⟨⟨rfl,rows,rfl,h⟩,?_,rfl⟩
    simp [View.CanDelete, viewOf, hr]
  | some row =>
    have hchild := any_child h path
    have hdir : row.isDir = true ↔ viewOf rows (Path.segments path) = some .dir := by
      simp [viewOf, hr, Row.item_eq_dir]
    by_cases hfull : (row.isDir && rows.any fun row => row.parentPath == Path.normalize path) = true
    · refine .of_on (a := false) (by
        simp only [Storage.delete, beq_iff_eq, hpath, if_false, Storing.on_bind, on_rowsOf, at?_normalize h, hr, hfull, if_true]
        rfl) ⟨⟨rfl,rows,rfl,h⟩,?_,rfl⟩
      obtain ⟨name,hn⟩ := hchild.mp (Bool.and_eq_true_iff.mp hfull).2
      simp only [Bool.false_eq_true, false_iff]
      rintro ⟨_,_,hleaf⟩
      simp [hleaf name] at hn
    · have hcan : (viewOf rows).CanDelete (Path.segments path) := by
        refine ⟨hroot,by simp [viewOf, hr],fun name => ?_⟩
        by_contra hs
        have hs := Option.isSome_iff_ne_none.mpr hs
        exact hfull (Bool.and_eq_true_iff.mpr ⟨hdir.mpr (h.wellFormed.parent _ _ hs),hchild.mpr ⟨name,hs⟩⟩)
      have hview : viewOf (rows.filter fun row => row.path != Path.normalize path) =
          (viewOf rows).set (Path.segments path) none := by
        funext names
        rw [viewOf, rowAt_filter h, View.set_apply]
        cases hn : rowAt names rows with
        | none => simp [viewOf, hn]
        | some other =>
          obtain ⟨hm,hs⟩ := (rowAt_eq_some_iff h).mp hn
          have hat := at_path (h.placed other hm) path
          rw [hs] at hat
          by_cases he : names = Path.segments path <;> simp_all [viewOf, Option.filter_some, bne]
      refine .of_on (a := true) (by
        simp only [Storage.delete, beq_iff_eq, hpath, if_false, Storing.on_bind, on_rowsOf, at?_normalize h, hr, hfull]
        rfl) ⟨⟨rfl,_,rfl,sound_filter h (hview ▸ h.wellFormed.delete hcan)⟩,by simpa using hcan,hview⟩

private theorem name_eq (h : row.Placed) {dir : List String} {name : String}
    (hs : Path.segments row.path = dir ++ [name]) : row.name = name := by
  have hn : row.name = (Path.segments row.path).getLast?.getD "" := congrArg Node.name h.2
  simp [hn, hs]

theorem list_meets {name : DatabaseName} (path : String) (h : SoundRows rows) :
    (Storage.list path : Storing Table (List String)).Meets ⟨name,false,some rows⟩ fun names after =>
      after = viewOf rows ∧ (viewOf rows).Lists (Path.segments path) names := by
  refine .of_on rfl ⟨⟨rfl,rows,rfl,h⟩,rfl,?_⟩
  have hdir := at?_isDir h path
  by_cases hd : (at? (Path.normalize path) rows).any Row.isDir = true
  swap
  · rw [if_neg hd]
    refine ⟨.nil,fun name => ?_⟩
    simp [h.wellFormed.none_below (fun he => hd (hdir.mpr he)) name]
  rw [if_pos hd]
  have hmem (name : String) : name ∈ childNames (Path.normalize path) rows ↔
      (viewOf rows (Path.segments path ++ [name])).isSome := by
    simp only [childNames, List.mem_mergeSort, List.mem_map, List.mem_filter, viewOf_isSome, Option.isSome_iff_exists,
      rowAt_eq_some_iff h, Bool.and_eq_true, beq_iff_eq, bne_iff_ne, ne_eq]
    constructor
    · rintro ⟨row,⟨hm,hp,_⟩,rfl⟩
      obtain ⟨name,hn⟩ := (parentPath_eq_iff (h.placed row hm) path).mp hp
      exact ⟨row,hm,by rw [hn, name_eq (h.placed row hm) hn]⟩
    · rintro ⟨row,hm,hn⟩
      refine ⟨row,⟨hm,(parentPath_eq_iff (h.placed row hm) path).mpr ⟨name,hn⟩,fun hroot => ?_⟩,name_eq (h.placed row hm) hn⟩
      rw [hroot, Path.segments_root] at hn
      simp at hn
  have hnodup : (childNames (Path.normalize path) rows).Nodup := by
    rw [childNames, (List.mergeSort_perm _ _).nodup_iff]
    apply List.Nodup.map_on
    · intro a ha b hb he
      simp only [List.mem_filter, Bool.and_eq_true, beq_iff_eq] at ha hb
      obtain ⟨n,hn⟩ := (parentPath_eq_iff (h.placed a ha.1) path).mp ha.2.1
      obtain ⟨m,hm⟩ := (parentPath_eq_iff (h.placed b hb.1) path).mp hb.2.1
      rw [name_eq (h.placed a ha.1) hn, name_eq (h.placed b hb.1) hm] at he
      exact eq_of_segments h ha.1 hb.1 (by rw [hn, hm, he])
    · exact h.distinct.of_map.filter _
  refine ⟨?_,hmem⟩
  have hsorted : (childNames (Path.normalize path) rows).Pairwise (· ≤ ·) := by
    have hpairs (names : List String) : (names.mergeSort fun a b => decide (a ≤ b)).Pairwise fun a b => decide (a ≤ b) = true :=
      List.pairwise_mergeSort (by simpa using fun a b c : String => le_trans) (by simpa using fun a b : String => le_total a b)
        names
    simpa [childNames] using hpairs _
  exact (hsorted.and hnodup).imp fun hle => lt_of_le_of_ne hle.1 hle.2

/-! ### Counting -/

def entriesOf (rows : List Row) : List (List String × Item) := rows.map fun row => (Path.segments row.path, row.item)

theorem enumerates_entriesOf (h : SoundRows rows) : (viewOf rows).Enumerates (entriesOf rows) := by
  constructor
  · rw [entriesOf, List.map_map]
    exact h.distinct.of_map.map_on fun a ha b hb he => eq_of_segments h ha hb he
  · intro names item
    simp only [entriesOf, List.mem_map, Prod.mk.injEq, viewOf, Option.map_eq_some_iff, rowAt_eq_some_iff h, and_assoc]

private theorem counts_entriesOf (h : ∀ row ∈ rows, row.Placed) :
    (rows.filter fun row => !row.isDir).length = View.fileCount (entriesOf rows) ∧
      (rows.filter Row.isDir).length = View.dirCount (entriesOf rows) ∧
      View.Counts (bytesOf (rows.filter fun row => !row.isDir)) (entriesOf rows) := by
  induction rows with
  | nil => exact ⟨rfl,rfl,.of_eq rfl⟩
  | cons row rows ih =>
    obtain ⟨hfiles,hdirs,hle,hmod⟩ := ih fun other ho => h other (by simp [ho])
    have hsize : row.size = row.item.size := congrArg Node.size (h row (by simp)).2
    rw [show entriesOf (row :: rows) = (Path.segments row.path, row.item) :: entriesOf rows from rfl,
      View.fileCount_cons, View.dirCount_cons, View.Counts, View.byteCount_cons, Row.isDir_item]
    cases hd : row.isDir with
    | true =>
      have hitem : row.item = .dir := (Row.item_eq_dir row).mpr hd
      simp only [List.filter_cons, hd, Bool.not_true, Bool.false_eq_true, if_false, if_true, hitem, Item.bytes,
        List.length_cons, hfiles, hdirs, Nat.add_zero, true_and]
      exact ⟨hle,hmod⟩
    | false =>
      have hitem : row.item = .file row.content := by simp [Row.item, hd]
      have hbytes (files : List Row) : bytesOf (row :: files) = row.content.utf8ByteSize % 2 ^ 64 + bytesOf files := by
        simp [bytesOf, hsize, hitem, Item.size]
      simp only [List.filter_cons, hd, Bool.not_false, if_true, hbytes, hitem, Item.bytes, List.length_cons, hfiles, hdirs,
        Bool.false_eq_true, if_false, true_and]
      omega

theorem stats_meets {name : DatabaseName} (h : SoundRows rows) :
    (Storage.stats : Storing Table StorageStats).Meets ⟨name,false,some rows⟩ (viewOf rows).Measures := by
  obtain ⟨hfiles,hdirs,hbytes⟩ := counts_entriesOf h.placed
  refine .of_on rfl ⟨⟨rfl,rows,rfl,h⟩,rfl,_,enumerates_entriesOf h,?_⟩
  change (rows.partition Row.isDir).2.length = _ ∧ (rows.partition Row.isDir).1.length = _ ∧
    View.Counts (bytesOf (rows.partition Row.isDir).2) _
  rw [List.partition_eq_filter_filter]
  exact ⟨hfiles,hdirs,hbytes⟩

private theorem isTemporary_iff (h : row.Placed) :
    isTemporary row = true ↔ View.Temporary (Path.segments row.path) := by
  have htmp : Path.Named ["tmp"] := by simp only [Path.Named, List.mem_singleton, forall_eq]; decide
  have hpath : row.path = Path.ofSegments (Path.segments row.path) := by rw [← Path.normalize_eq]; exact h.1
  rw [isTemporary, List.isPrefixOf_iff_prefix, hpath, Path.segments_ofSegments (Path.named_segments _)]
  exact Path.slash_prefix_iff htmp (Path.named_segments _) (by simp)

theorem cleanup_meets {name : DatabaseName} (h : SoundRows rows) :
    (Storage.cleanup : Storing Table CleanupStats).Meets ⟨name,false,some rows⟩ (viewOf rows).CleansUp := by
  have hview : viewOf (rows.filter fun row => !isTemporary row) = (viewOf rows).cleared := by
    funext names
    rw [viewOf, rowAt_filter h, View.cleared]
    cases hr : rowAt names rows with
    | none => simp [viewOf, hr]
    | some row =>
      obtain ⟨hm,rfl⟩ := (rowAt_eq_some_iff h).mp hr
      have htemp := isTemporary_iff (h.placed row hm)
      by_cases ht : View.Temporary (Path.segments row.path) <;> simp_all [viewOf, Option.filter_some]
  have hgone : entriesOf (rows.filter isTemporary) =
      (entriesOf rows).filter fun entry => View.Temporary entry.1 := by
    rw [entriesOf, entriesOf, List.filter_map]
    congr 1
    apply List.filter_congr
    intro row hm
    exact Bool.eq_iff_iff.mpr (by simpa using isTemporary_iff (h.placed row hm))
  have hplaced : ∀ row ∈ rows.filter isTemporary, row.Placed := fun row hm => h.placed row (List.mem_of_mem_filter hm)
  have hcounts := counts_entriesOf hplaced
  rw [List.filter_filter, hgone] at hcounts
  refine .of_on rfl ⟨⟨rfl,_,rfl,sound_filter h (hview ▸ h.wellFormed.cleared)⟩,hview,_,(enumerates_entriesOf h).temporary,?_⟩
  simp only [Bool.and_comm]
  exact ⟨hcounts.1,hcounts.2.2⟩

/-- Every number of rows bounds the number of nodes. -/
private theorem length_le (h : SoundRows rows) {names : List (List String)} (hnodup : names.Nodup)
    (hmem : ∀ n ∈ names, (viewOf rows n).isSome) : names.length ≤ rows.length := by
  simpa [entriesOf] using (enumerates_entriesOf h).length_le hnodup hmem

/-- A table that is set up stays as it is. -/
theorem on_setUp {name : DatabaseName} (now : Timestamp) (h : SoundRows rows) :
    (Storage.setUp now).on (Table.mk name false (some rows)) = (.ok true, ⟨name,false,some rows⟩) := by
  have hroot : at? "/" rows = rowAt [] rows := by
    simpa [Path.segments_root, (Path.normalize_eq_root_iff "/").mpr Path.segments_root] using at?_normalize h "/"
  have hsome : (at? "/" rows).isSome = true := by
    rw [hroot, ← viewOf_isSome, h.wellFormed.root]
    rfl
  simp [Storage.setUp, Storing.on_bind, hsome, Except.map]

private theorem sound_iff {table : Table} (h : Viewed.Sound table) :
    ∃ rows, table = ⟨table.name,false,some rows⟩ ∧ SoundRows rows := by
  obtain ⟨hf,rows,hr,hs⟩ := h
  exact ⟨rows,by rw [← hf, ← hr],hs⟩

instance : LawfulStorage Table where
  wellFormed h := by obtain ⟨rows,he,hr⟩ := sound_iff h; rw [he]; exact hr.wellFormed
  length_le_capacity h _ hn hm := by obtain ⟨rows,he,hr⟩ := sound_iff h; rw [he] at hm ⊢; exact length_le hr hn hm
  setUp now h := by obtain ⟨rows,he,hr⟩ := sound_iff h; rw [he]; exact .of_on (on_setUp now hr) ⟨⟨rfl,rows,rfl,hr⟩,rfl,rfl⟩
  info path h := by obtain ⟨rows,he,hr⟩ := sound_iff h; rw [he]; exact info_meets path hr
  create node h _ := by obtain ⟨rows,he,hr⟩ := sound_iff h; rw [he]; exact create_meets node hr
  list path h := by obtain ⟨rows,he,hr⟩ := sound_iff h; rw [he]; exact list_meets path hr
  write now path content h := by obtain ⟨rows,he,hr⟩ := sound_iff h; rw [he]; exact write_meets now path content hr
  read path h := by obtain ⟨rows,he,hr⟩ := sound_iff h; rw [he]; exact read_meets path hr
  delete path h := by obtain ⟨rows,he,hr⟩ := sound_iff h; rw [he]; exact delete_meets path hr
  touch now path h := by obtain ⟨rows,he,hr⟩ := sound_iff h; rw [he]; exact touch_meets now path hr
  stats h := by obtain ⟨rows,he,hr⟩ := sound_iff h; rw [he]; exact stats_meets hr
  cleanup h := by obtain ⟨rows,he,hr⟩ := sound_iff h; rw [he]; exact cleanup_meets hr

/-- A table that was not yet created shows a bare root when it is set up. -/
theorem setUp_fresh (name : DatabaseName) (now : Timestamp) :
    (Storage.setUp now).Meets (Table.mk name false none) fun done after => done = true ∧ after = View.bare := by
  have hview : viewOf [rootRow now] = View.bare := by
    funext names
    rw [viewOf, rowAt, List.find?_singleton, View.bare]
    by_cases hn : names = [] <;> simp [rootRow, Path.segments_root, hn, Row.item, Ne.symm]
  refine .of_on (a := true) (t := ⟨name,false,some [rootRow now]⟩) rfl ⟨⟨rfl,_,rfl,?_,?_,?_⟩,rfl,hview⟩
  · simp
  · intro row hm
    rw [List.mem_singleton.mp hm]
    refine ⟨((Path.normalize_eq_root_iff _).mpr Path.segments_root).symm,?_⟩
    rw [rootRow, Path.segments_root]
    rfl
  · rw [hview]
    exact View.wellFormed_bare

end Table
end VirtualShell
