import VirtualShell.Proofs.Storage.ObjectsSizes

/-!
The sizes that stores show. Files have the size of their text, in whatever way it came to be; a table gives directories
none, while the other stores keep for a directory what its creation asked for.
-/
namespace VirtualShell

/-! ### What is shown -/

/-- What can be said of an answer that is known. -/
theorem Storing.yields_iff {σ α : Type} {act : Storing σ α} {store : σ} {a : α} {wanted : α → Prop}
    (h : act.Yields store fun answer _ => answer = a) : (act.Yields store fun answer _ => wanted answer) ↔ wanted a := by
  obtain ⟨_,after,he,rfl⟩ := h
  constructor
  · rintro ⟨b,_,he',hb⟩
    rw [he] at he'
    rwa [Except.ok.inj (Prod.mk.inj he').1]
  · exact fun ha => ⟨_,after,he,ha⟩

namespace Storage
open Storing Viewed
variable {σ : Type} [Storage σ]

/-- What is found at a path with what is read there: a file has the size of its text, a directory the one on record. -/
inductive Measured (recorded : Option UInt64) : Option Node → Option String → Prop where
  | nothing : Measured recorded none none
  | file {node : Node} {text : String} (hfile : node.isDir = false)
      (hsize : node.size = some text.utf8ByteSize.toUInt64) : Measured recorded (some node) (some text)
  | directory {node : Node} (hdir : node.isDir = true) (hsize : node.size = recorded) : Measured recorded (some node) none

/-- The bytes of texts at their chains of names. -/
def bytesOf (files : List (List String × String)) : Nat := (files.map fun file => file.2.utf8ByteSize).sum

/-- Every size is right at every path, and so is their sum, which may have been kept in 64 bits. -/
structure ShowsSizes (recorded : List String → Option UInt64) (store : σ) : Prop where
  found (path : String) : (info path).Yields store fun node _ =>
    (read path).Yields store fun text _ => Measured (recorded (Path.segments path)) node text
  total : stats.Yields store fun stats _ => ∃ files, (files.map Prod.fst).Nodup ∧
    (∀ names text, (names,text) ∈ files ↔
      ∃ path, Path.segments path = names ∧ (read path).Yields store fun found _ => found = some text) ∧
    stats.files = files.length ∧ stats.bytes ≤ bytesOf files ∧ stats.bytes % 2 ^ 64 = bytesOf files % 2 ^ 64

private def filesOf (entries : List (List String × Item)) : List (List String × String) :=
  entries.filterMap fun entry => entry.2.content?.map (entry.1, ·)

private theorem filesOf_cons (names : List String) (item : Item) (entries : List (List String × Item)) :
    filesOf ((names,item) :: entries) = (item.content?.map (names, ·)).toList ++ filesOf entries := by
  cases item <;> simp [filesOf, Item.content?]

private theorem length_filesOf (entries : List (List String × Item)) : (filesOf entries).length = View.fileCount entries := by
  induction entries with
  | nil => rfl
  | cons entry entries ih =>
    obtain ⟨names,item⟩ := entry
    rw [filesOf_cons, View.fileCount_cons, ← ih]
    cases item <;> simp [Item.content?, Item.isDir]

private theorem bytesOf_filesOf (entries : List (List String × Item)) : bytesOf (filesOf entries) = View.byteCount entries := by
  induction entries with
  | nil => rfl
  | cons entry entries ih =>
    obtain ⟨names,item⟩ := entry
    rw [filesOf_cons, View.byteCount_cons, ← ih]
    cases item <;> simp [Item.content?, Item.bytes, bytesOf, Nat.add_comm]

private theorem mem_filesOf {entries : List (List String × Item)} {names : List String} {text : String} :
    (names,text) ∈ filesOf entries ↔ (names,.file text) ∈ entries := by
  induction entries with
  | nil => simp [filesOf]
  | cons entry entries ih =>
    obtain ⟨other,item⟩ := entry
    rw [filesOf_cons, List.mem_append, ih, List.mem_cons]
    cases item <;> simp [Item.content?]

private theorem nodup_filesOf {entries : List (List String × Item)} (h : (entries.map Prod.fst).Nodup) :
    ((filesOf entries).map Prod.fst).Nodup := by
  induction entries with
  | nil => exact .nil
  | cons entry entries ih =>
    obtain ⟨names,item⟩ := entry
    obtain ⟨hnew,hrest⟩ := List.nodup_cons.mp h
    rw [filesOf_cons]
    cases item with
    | dir => exact ih hrest
    | file text =>
      refine List.nodup_cons.mpr ⟨fun hm => hnew ?_,ih hrest⟩
      obtain ⟨⟨_,other⟩,hother,rfl⟩ := List.mem_map.mp hm
      exact List.mem_map.mpr ⟨_,mem_filesOf.mp hother,rfl⟩

/-- What stands for an item is measured by it, given what is on record for directories. -/
private theorem measured_of_node? {view : View} {names : List String} {node : Option Node} {recorded : Option UInt64}
    (hnode : node.map (Node.untimed ∘ Node.trimmed) = view.node? names)
    (hdir : ∀ dir, node = some dir → dir.isDir = true → dir.size = recorded) :
    Measured recorded node (view.content? names) := by
  rw [View.node?] at hnode
  rw [View.content?]
  cases hv : view names with
  | none =>
    rw [hv, Option.map_none, Option.map_eq_none_iff] at hnode
    subst hnode
    exact .nothing
  | some item =>
    rw [hv, Option.map_some] at hnode
    obtain ⟨node,rfl,heq⟩ := Option.map_eq_some_iff.mp hnode
    have hkind : node.isDir = item.isDir := congrArg Node.isDir heq
    cases item with
    | dir => exact .directory hkind (hdir node rfl hkind)
    | file text =>
      rw [Function.comp_apply, Node.trimmed_of_file hkind] at heq
      exact .file hkind (congrArg Node.size heq)

/-- A store that reads what it shows shows all sizes, if it finds directories with the sizes on record. -/
theorem showsSizes_of_used [LenientNodes σ] {store : σ} {recorded : List String → Option UInt64}
    (h : LenientNodes.Used store) (hnamed : ∀ names, (view store names).isSome → Path.Named names)
    (hread : ∀ path, (read path).Yields store fun text _ => text = (view store).content? (Path.segments path))
    (hdirs : ∀ path, (info path).Yields store fun node _ =>
      ∀ dir, node = some dir → dir.isDir = true → dir.size = recorded (Path.segments path)) :
    ShowsSizes recorded store where
  found path := by
    obtain ⟨node,after,he,_,hnode⟩ := LenientNodes.info path h
    have hdir := (yields_iff ⟨node,after,he,rfl⟩).mp (hdirs path)
    exact ⟨node,after,he,(yields_iff (hread path)).mpr (measured_of_node? hnode hdir)⟩
  total := by
    refine (LenientNodes.stats h).mono fun stats _ ⟨_,entries,⟨hnodup,hall⟩,hfiles,_,hbytes⟩ => ?_
    refine ⟨filesOf entries,nodup_filesOf hnodup,fun names text => ?_,by rw [hfiles, length_filesOf],?_⟩
    · rw [mem_filesOf, hall]
      constructor
      · intro hv
        have hsegments := Path.segments_ofSegments (hnamed names (by rw [hv]; rfl))
        refine ⟨_,hsegments,(yields_iff (hread _)).mpr ?_⟩
        rw [hsegments, View.content?, hv]
        rfl
      · rintro ⟨path,rfl,hy⟩
        obtain ⟨item,hv,hcontent⟩ := Option.bind_eq_some_iff.mp ((yields_iff (hread path)).mp hy)
        cases item with
        | dir => simp [Item.content?] at hcontent
        | file other => rw [hv, Option.some.inj hcontent]
    · rw [bytesOf_filesOf]
      exact hbytes

/-! ### Sizes on record -/

namespace Operation

/-- What is on record after a call: a directory that is created gets the size that was asked for it. -/
def noted (store : σ) (recorded : List String → Option UInt64) : Operation → List String → Option UInt64
  | create node =>
    if node.isDir = true ∧ ((Storage.create node).on store).1 = .ok true then Function.update recorded node.target node.size
    else recorded
  | _ => recorded

/-- What is on record after calls, each at its own time. -/
def record : List (Timestamp × Operation) → σ → (List String → Option UInt64) → List String → Option UInt64
  | [], _, recorded => recorded
  | call :: calls, store, recorded => record calls (call.2.after call.1 store) (call.2.noted store recorded)

theorem play_record {inv : (List String → Option UInt64) → σ → Prop}
    (h : ∀ now call {recorded store}, inv recorded store → inv (noted store recorded call) (after now call store))
    (calls : List (Timestamp × Operation)) {recorded : List String → Option UInt64} {store : σ} (hs : inv recorded store) :
    inv (record calls store recorded) (play calls store) := by
  induction calls generalizing recorded store with
  | nil => exact hs
  | cons call calls ih => exact ih (h call.1 call.2 hs)

end Operation

end Storage

/-! ### The table of rows -/

namespace Table
open Storing Viewed

/-- A table gives no directory a size. -/
private theorem showsSizes {table : Table} (h : Sound table) : Storage.ShowsSizes (fun _ => none) table := by
  refine Storage.showsSizes_of_used h (LawfulNodes.wellFormed h).named (fun path => ?_) fun path => ?_
  · exact (LawfulNodes.read path h).mono fun _ _ hread => hread.2.2
  · refine (LawfulNodes.info path h).mono fun node _ hnode dir hd => ?_
    obtain ⟨item,_,hitem⟩ := Option.map_eq_some_iff.mp (hnode.2.2.symm.trans (congrArg (Option.map Node.untimed) hd))
    exact View.sized_of_untimed hitem.symm

open Storage.Operation in
theorem play_showsSizes {table : Table} (h : Sound table) (calls : List (Timestamp × Storage.Operation)) :
    Storage.ShowsSizes (fun _ => none) (play calls table) := by
  have hused : LenientNodes.Used (play calls table) := play_preserves LenientNodes.preserves calls h
  exact showsSizes hused

end Table

/-! ### The tree in memory -/

namespace Entry
variable {recorded recorded' : List String → Option UInt64} {entry : Entry} {names : List String}

/-- Directories have the sizes on record. -/
def Recorded (recorded : List String → Option UInt64) (entry : Entry) : Prop :=
  ∀ names node, entry.faces names = some (node,none) → node.size = recorded names

/-- What is put in place of an entry has to be right below it. -/
theorem Recorded.alter {f : Entry → Option Entry} {found replaced : Entry} (h : entry.Recorded recorded)
    (hf : entry.find? names = some found) (hr : f found = some replaced)
    (hnew : ∀ rest node, replaced.faces rest = some (node,none) → node.size = recorded' (names ++ rest))
    (hother : ∀ other, ¬ names <+: other → recorded' other = recorded other) :
    ∃ altered, entry.alter f names = some altered ∧ altered.Recorded recorded' ∧
      (entry.Rising → replaced.Rising → altered.Rising) := by
  obtain ⟨altered,ha,hbelow,hsame,hrising⟩ := faces_alter hf hr
  refine ⟨altered,ha,fun other node hface => ?_,hrising⟩
  by_cases ho : names <+: other
  · obtain ⟨rest,rfl⟩ := ho
    exact hnew rest node (hbelow rest ▸ hface)
  · rw [hother other ho]
    exact h other node (hsame other ho ▸ hface)

theorem Recorded.below (h : entry.Recorded recorded) {found : Entry} (hf : entry.find? names = some found) {rest : List String}
    {node : Node} (hface : found.faces rest = some (node,none)) : node.size = recorded (names ++ rest) :=
  h _ node (by rw [faces_of_find? hf, hface])

end Entry

namespace Tree
open Entry Storing Viewed

variable {recorded recorded' : List String → Option UInt64}

/-- The tree is set up, and its directories have the sizes on record. -/
def Recorded (recorded : List String → Option UInt64) (tree : Tree) : Prop :=
  ∃ root, tree.root = some root ∧ root.Rising ∧ root.Recorded recorded

/-- Altering is done or not, and either way the sizes are on record afterwards. -/
private theorem alter_recorded {f : Entry → Option Entry} {path : String} {tree : Tree} (h : tree.Recorded recorded)
    (hf : ∀ {root found replaced : Entry}, root.Recorded recorded → root.find? (Path.segments path) = some found →
      f found = some replaced → found.Rising → replaced.Rising ∧
        ∀ rest node, replaced.faces rest = some (node,none) → node.size = recorded' (Path.segments path ++ rest))
    (hother : ∀ other, ¬ Path.segments path <+: other → recorded' other = recorded other) :
    (alter f path).Yields tree fun done after => after.Recorded (if done then recorded' else recorded) := by
  obtain ⟨root,hroot,hrising,hrecorded⟩ := h
  obtain rfl : tree = ⟨some root⟩ := by rw [← hroot]
  cases hb : (root.find? (Path.segments path)).bind f with
  | none =>
    exact .of_on (a := false) (t := ⟨some root⟩) (by simp [alter, on_bind, alter_of_none hb]) ⟨root,rfl,hrising,hrecorded⟩
  | some replaced =>
    obtain ⟨found,hfound,hr⟩ := Option.bind_eq_some_iff.mp hb
    obtain ⟨hrise,hnew⟩ := hf hrecorded hfound hr (hrising.find? hfound)
    obtain ⟨altered,ha,hafter,haltered⟩ := hrecorded.alter hfound hr hnew hother
    exact .of_on (a := true) (t := ⟨some altered⟩) (by simp [alter, on_bind, ha, Except.map])
      ⟨altered,rfl,haltered hrising hrise,hafter⟩

/-- A change of an entry that gives no directory another size. -/
private def KeepsSizes (f : Entry → Option Entry) : Prop :=
  ∀ found replaced : Entry, f found = some replaced → found.Rising → replaced.Rising ∧
    ∀ rest node, replaced.faces rest = some (node,none) → ∃ old, found.faces rest = some (old,none) ∧ node.size = old.size

private theorem KeepsSizes.preserves {f : Entry → Option Entry} (hf : KeepsSizes f) (path : String) :
    (alter f path).Preserves (Recorded recorded) := by
  intro tree h
  have hyields : (alter f path).Yields tree fun done after => after.Recorded (if done then recorded else recorded) := by
    refine alter_recorded h (fun hrecorded hfound hr hrising => ?_) fun _ _ => rfl
    obtain ⟨hrise,hsame⟩ := hf _ _ hr hrising
    refine ⟨hrise,fun rest node hface => ?_⟩
    obtain ⟨old,hold,hsize⟩ := hsame rest node hface
    rw [hsize, hrecorded.below hfound hold]
  obtain ⟨_,after,he,hafter⟩ := hyields
  rw [he]
  rwa [ite_self] at hafter

private theorem keepsSizes_rewriting (now : Timestamp) (content : String) : KeepsSizes (rewriting now content) := by
  intro found replaced hr _
  cases found with
  | dir node below => simp [rewriting] at hr
  | file node old =>
    obtain rfl := Option.some.inj hr
    refine ⟨trivial,fun rest node hface => ?_⟩
    rw [faces_file] at hface
    split at hface <;> simp at hface

private theorem keepsSizes_touching (now : Timestamp) : KeepsSizes (touching now) := by
  intro found replaced hr hrising
  obtain rfl := Option.some.inj hr
  cases found with
  | file node content =>
    refine ⟨trivial,fun rest node hface => ?_⟩
    rw [show (Entry.file _ content).withNode _ = .file _ content from rfl, faces_file] at hface
    split at hface <;> simp at hface
  | dir node below =>
    refine ⟨hrising,fun rest new hface => ?_⟩
    cases rest with
    | nil =>
      obtain ⟨rfl,_⟩ := Prod.mk.inj (Option.some.inj hface)
      exact ⟨node,rfl,rfl⟩
    | cons name rest => exact ⟨new,hface,rfl⟩

private theorem keepsSizes_removing (name : String) : KeepsSizes (removing name) := by
  intro found replaced hr hrising
  obtain ⟨_,_,_,_,_,_,hone,hrise⟩ := removing_eq_some hrising hr
  refine ⟨hrise,fun rest node hface => ?_⟩
  rw [hone] at hface
  split at hface
  · simp at hface
  · exact ⟨node,hface,rfl⟩

private theorem keepsSizes_emptying : KeepsSizes emptying := by
  intro found replaced hr _
  cases found with
  | file node content => simp [emptying] at hr
  | dir node below =>
    obtain rfl := Option.some.inj hr
    refine ⟨trivial,fun rest new hface => ?_⟩
    cases rest with
    | nil => exact ⟨new,hface,rfl⟩
    | cons name rest => simp [faces_dir_cons, Forest.find?] at hface

/-- A new directory has the size that was asked for it. -/
private theorem adding_recorded (node : Node) {root found replaced : Entry} {names : List String} (h : root.Recorded recorded)
    (hf : root.find? names = some found) (hr : adding node found = some replaced) (hrising : found.Rising) :
    replaced.Rising ∧ ∀ rest new, replaced.faces rest = some (new,none) → new.size =
      (if node.isDir = true then Function.update recorded (names ++ [node.name]) node.size else recorded) (names ++ rest) := by
  obtain ⟨_,_,_,_,hone,hrise⟩ := adding_eq_some hr
  refine ⟨hrise hrising,fun rest new hface => ?_⟩
  rw [hone] at hface
  split at hface
  · subst rest
    have hnew := Option.some.inj hface
    cases hd : node.isDir with
    | false => simp [newEntry, hd, face] at hnew
    | true =>
      simp only [newEntry, hd, if_true, face, Prod.mk.injEq, and_true] at hnew ⊢
      rw [Function.update_self, ← hnew]
  · rename_i hne
    rw [h.below hf hface]
    split
    · rw [Function.update_of_ne (by simpa using hne)]
    · rfl

private theorem create_recorded (node : Node) {tree : Tree} (h : tree.Recorded recorded) :
    (Storage.create node : Storing Tree Bool).Yields tree fun done after =>
      after.Recorded (if node.isDir = true ∧ done = true then Function.update recorded node.target node.size else recorded) := by
  change (if !Path.isName node.name then (pure false : Storing Tree Bool) else alter (adding node) node.parentPath).Yields _ _
  split
  · exact .pure (by simpa using h)
  · refine (alter_recorded h (fun h hf hr hrising => adding_recorded node h hf hr hrising) fun other ho => ?_).mono
      fun done after hafter => ?_
    · split
      · rw [Function.update_of_ne]
        rintro rfl
        exact ho (List.prefix_append _ _)
      · rfl
    · cases done <;> cases hd : node.isDir <;> simpa [hd, Node.target] using hafter

open Storage in
private theorem after_recorded (now : Timestamp) (call : Storage.Operation) {tree : Tree} (h : tree.Recorded recorded) :
    (call.after now tree).Recorded (call.noted tree recorded) := by
  cases call with
  | setUp =>
    obtain ⟨root,hroot,hrest⟩ := h
    obtain rfl : tree = ⟨some root⟩ := by rw [← hroot]
    exact ⟨root,rfl,hrest⟩
  | create node =>
    obtain ⟨done,after,he,hafter⟩ := create_recorded node h
    rw [Storage.Operation.after, Storage.Operation.run, on_map, Storage.Operation.noted, he]
    simpa using hafter
  | write path content => exact (((keepsSizes_rewriting now content).preserves path).map _) tree h
  | touch path => exact (((keepsSizes_touching now).preserves path).map _) tree h
  | delete path => exact (Preserves.map _ (.ite (.pure false) ((keepsSizes_removing _).preserves _))) tree h
  | cleanup => exact (Preserves.map _ (.bind .get fun _ => (keepsSizes_emptying.preserves _).bind fun _ => .pure _)) tree h
  | info path => exact h
  | list path => exact h
  | read path => exact (Preserves.map _ fun tree h => by rwa [on_read]) tree h
  | stats => exact h

/-- A sound tree has no sizes of directories. -/
theorem recorded_of_sound {tree : Tree} (h : Sound tree) : tree.Recorded fun _ => none := by
  obtain ⟨root,hroot,hs⟩ := h
  refine ⟨root,hroot,hs.rising,fun names node hface => ?_⟩
  have hplace : node.untimed = View.node names .dir := (hs.placed names _ hface).2
  exact congrArg Node.size hplace

private theorem showsSizes {tree : Tree} (hused : LenientNodes.Used tree) (h : tree.Recorded recorded) :
    Storage.ShowsSizes recorded tree := by
  obtain ⟨root,hroot,_,hrecorded⟩ := h
  obtain rfl : tree = ⟨some root⟩ := by rw [← hroot]
  refine Storage.showsSizes_of_used hused ?_ (fun path => .of_on (on_read path _) ?_) fun path => ?_
  · obtain hempty | hsound := hused
    · cases hempty
    · rw [← view_trim]
      exact (LawfulNodes.wellFormed hsound).named
  · change (root.find? _).bind _ = (Entry.view root _).bind _
    rw [Entry.view, faces]
    cases root.find? (Path.segments path) with
    | none => rfl
    | some found => cases found <;> rfl
  · obtain ⟨node,after,he,_,hnode⟩ := LenientNodes.info path hused
    refine .of_on he fun dir hd hdir => ?_
    subst hd
    obtain ⟨found,hfound,rfl⟩ := Option.map_eq_some_iff.mp (Except.ok.inj (Prod.mk.inj he).1)
    change root.find? _ = _ at hfound
    obtain ⟨item,hitem,heq⟩ := Option.map_eq_some_iff.mp hnode.symm
    have hview : view (Tree.mk (some root)) (Path.segments path) = some found.item := view_of_find? hfound
    obtain rfl := Option.some.inj (hitem.symm.trans hview)
    have hface : found.face = (found.node,none) := by
      have hkind : found.item.isDir = found.node.isDir := congrArg Node.isDir heq
      rw [hdir] at hkind
      cases found with
      | file node content => simp [Entry.item, face, Item.ofContent, Item.isDir] at hkind
      | dir node below => rfl
    exact hrecorded _ _ (by rw [faces, hfound, Option.map_some, hface])

open Storage.Operation in
theorem play_showsSizes {tree : Tree} (h : Sound tree) (calls : List (Timestamp × Storage.Operation)) :
    Storage.ShowsSizes (record calls tree fun _ => none) (play calls tree) :=
  showsSizes (play_preserves LenientNodes.preserves calls (LenientNodes.of_sound h))
    (play_record (fun now call _ _ => after_recorded now call) calls (recorded_of_sound h))

end Tree

/-! ### The store over an object service -/

namespace Objects
open Storing Viewed

variable {bucket keyPrefix : String} {recorded : List String → Option UInt64} {objects : Keyed ByteArray} {store : Objects}

/-- The sidecars of directories have the sizes on record. -/
def SizesAt (keyPrefix : String) (recorded : List String → Option UInt64) (objects : Keyed ByteArray) : Prop :=
  ∀ names node, nodeAt keyPrefix objects names = some node → node.isDir = true → node.size = recorded names

/-- A change of one sidecar. -/
theorem SizesAt.update {recorded' : List String → Option UInt64} (h : SizesAt keyPrefix recorded objects)
    {after : Keyed ByteArray} {names : List String} {new : Option Node} (hchanged : Changed keyPrefix names new objects after)
    (hnew : ∀ node, new = some node → node.isDir = true → node.size = recorded' names)
    (hother : ∀ other, other ≠ names → recorded' other = recorded other) : SizesAt keyPrefix recorded' after := by
  intro other node hn hd
  rw [hchanged.node] at hn
  split at hn
  · subst other
    exact hnew node hn hd
  · rw [hother other ‹_›]
    exact h other node hn hd

/-- Requests go through, and the bucket holds a tree of sidecars with the sizes on record. -/
def Recorded (bucket keyPrefix : String) (recorded : List String → Option UInt64) (store : Objects) : Prop :=
  ∃ objects, Holds bucket keyPrefix objects store ∧ Planted keyPrefix True objects ∧ SizesAt keyPrefix recorded objects

/-- What a call answers decides what is on record afterwards. -/
private theorem recorded_after {α : Type} {act : Storing Objects α} (noted : α → List String → Option UInt64)
    (hstands : act.Preserves (Stands (fun _ _ => false) bucket keyPrefix True))
    (h : ∀ {objects store}, Stocks (fun _ _ => false) bucket keyPrefix objects store → Tidy keyPrefix objects →
      SizesAt keyPrefix recorded objects → act.Yields store fun a after =>
        ∃ left, Stocks (fun _ _ => false) bucket keyPrefix left after ∧ SizesAt keyPrefix (noted a) left)
    (hs : Recorded bucket keyPrefix recorded store) : act.Yields store fun a after => Recorded bucket keyPrefix (noted a) after := by
  obtain ⟨objects,hholds,hplanted,hsizes⟩ := hs
  obtain ⟨a,after,he,left,hleft,hafter⟩ := h (holds_iff.mp hholds) hplanted.tidy hsizes
  obtain ⟨left',hleft',hplanted'⟩ := hstands store ⟨objects,holds_iff.mp hholds,hplanted⟩
  rw [he] at hleft'
  obtain rfl : left = left' := Option.some.inj (hleft.client.found.symm.trans hleft'.client.found)
  exact .of_on he ⟨left,holds_iff.mpr hleft,hplanted',hafter⟩

/-- A call that leaves the bucket as it is. -/
private theorem look_recorded {α : Type} {act : Storing Objects α} {wanted : Keyed ByteArray → α → Prop}
    (hends : ∀ {objects store}, Stocks (fun _ _ => false) bucket keyPrefix objects store →
      act.Ends store (Halts (fun _ _ => false) bucket keyPrefix objects)
        fun a after => wanted objects a ∧ Stocks (fun _ _ => false) bucket keyPrefix objects after) :
    act.Preserves (Recorded bucket keyPrefix recorded) := by
  intro store ⟨objects,hs,hp,hsizes⟩
  obtain ⟨_,after,he,_,hafter⟩ := (hends (holds_iff.mp hs)).yields (not_halts hp.tidy)
  rw [he]
  exact ⟨objects,holds_iff.mpr hafter,hp,hsizes⟩

/-- A call that notes nothing. -/
private theorem preserves_recorded {α : Type} {act : Storing Objects α}
    (hstands : act.Preserves (Stands (fun _ _ => false) bucket keyPrefix True))
    (h : ∀ {objects store}, Stocks (fun _ _ => false) bucket keyPrefix objects store → Tidy keyPrefix objects →
      SizesAt keyPrefix recorded objects → act.Yields store fun _ after =>
        ∃ left, Stocks (fun _ _ => false) bucket keyPrefix left after ∧ SizesAt keyPrefix recorded left) :
    act.Preserves (Recorded bucket keyPrefix recorded) := by
  intro store hs
  obtain ⟨_,after,he,hafter⟩ := recorded_after (fun _ => recorded) hstands h hs
  rwa [he]

private theorem recorded_load (path : String) : (load (Path.normalize path)).Preserves (Recorded bucket keyPrefix recorded) := by
  rw [Path.normalize_eq]
  exact look_recorded fun h => load_ends h (Path.named_segments path)

private theorem recorded_list (path : String) : (listPath path).Preserves (Recorded bucket keyPrefix recorded) :=
  look_recorded fun h => list_ends h path

private theorem recorded_write (now : Timestamp) (path content : String) :
    (writePath now path content).Preserves (Recorded bucket keyPrefix recorded) := by
  refine preserves_recorded (stands_write now path content) fun {objects store} hs ht hsizes => ?_
  refine ((write_ends hs now path content).yields fun after hf =>
    hf.elim (not_halts ht after) fun hf => not_refused _ hf.2.2).mono ?_
  rintro done after (⟨_,_,h⟩ | ⟨_,node,⟨hnode,hd⟩,h⟩)
  · exact ⟨objects,h,hsizes⟩
  · refine ⟨_,h,hsizes.update (changed_write ht (Path.named_segments path) _ content) (fun new hn hdir => ?_) fun _ _ => rfl⟩
    obtain rfl := Option.some.inj hn
    exact absurd (hd.symm.trans hdir) (by simp)

private theorem recorded_touch (now : Timestamp) (path : String) :
    (touchPath now path).Preserves (Recorded bucket keyPrefix recorded) := by
  refine preserves_recorded (stands_touch now path) fun {objects store} hs ht hsizes => ?_
  refine ((touch_ends hs now path).yields (not_halts ht)).mono ?_
  rintro done after (⟨_,_,h⟩ | ⟨_,node,hnode,h⟩)
  · exact ⟨objects,h,hsizes⟩
  · refine ⟨_,h,hsizes.update (changed_insertNode ht (Path.named_segments path) _) (fun new hn hdir => ?_) fun _ _ => rfl⟩
    obtain rfl := Option.some.inj hn
    exact hsizes _ node hnode hdir

private theorem recorded_delete (path : String) : (deletePath path).Preserves (Recorded bucket keyPrefix recorded) := by
  refine preserves_recorded (stands_delete path) fun {objects store} hs ht hsizes => ?_
  refine ((delete_ends hs path).yields fun after hf => hf.elim (not_halts ht after) fun hf => not_refused _ hf.2.2).mono ?_
  rintro done after (⟨_,_,h⟩ | ⟨_,node,_,h⟩)
  · exact ⟨objects,h,hsizes⟩
  · exact ⟨_,h,hsizes.update (changed_delete ht (Path.named_segments path) node.isDir) (by simp) fun _ _ => rfl⟩

private theorem recorded_setUp (now : Timestamp) : (setUp now).Preserves (Recorded bucket keyPrefix recorded) := by
  refine .of_ends fun store ⟨objects,hs,hp,hsizes⟩ => ?_
  obtain ⟨node,hroot,_⟩ := hp.ground trivial
  refine (setUp_stocks (holds_iff.mp hs) now).mono (fun _ h => ⟨objects,holds_iff.mpr h,hp,hsizes⟩) fun _ after ⟨_,h⟩ => ?_
  rw [hroot, Option.isSome_some, if_pos rfl] at h
  exact ⟨objects,holds_iff.mpr h,hp,hsizes⟩

private theorem recorded_create (node : Node) (hs : Recorded bucket keyPrefix recorded store) :
    (createNode node).Yields store fun done after => Recorded bucket keyPrefix
      (if node.isDir = true ∧ done = true then Function.update recorded node.target node.size else recorded) after := by
  refine recorded_after (fun done =>
    if node.isDir = true ∧ done = true then Function.update recorded node.target node.size else recorded)
    (stands_create node) (fun {objects store} hs ht hsizes => ?_) hs
  refine ((create_ends hs node).yields fun after hf => hf.elim (not_halts ht after) fun hf => not_refused _ hf.2.2).mono ?_
  rintro done after (⟨rfl,_,h⟩ | ⟨rfl,hc,h⟩)
  · exact ⟨objects,h,by simpa using hsizes⟩
  · have hn : Path.Named node.target := Path.named_concat.mpr ⟨Path.named_segments _,hc.1⟩
    refine ⟨_,h,hsizes.update (changed_create ht hn).1 (fun new hnew hdir => ?_) fun other ho => ?_⟩
    · obtain rfl := Option.some.inj hnew
      have hd : node.isDir = true := hdir
      rw [if_pos ⟨hd,rfl⟩, Function.update_self, created, if_pos hd]
    · split
      · rw [Function.update_of_ne ho]
      · rfl

private theorem recorded_keepsTemporary : @Storage.KeepsTemporary Objects basic (Recorded bucket keyPrefix recorded) :=
  letI := basic
  { info := recorded_load
    list := recorded_list
    delete := fun path _ => recorded_delete path
    placed := fun ⟨objects,hs,hp,_⟩ he => placed_load ⟨objects,holds_iff.mp hs,hp⟩ he
    named := fun ⟨objects,hs,hp,_⟩ he => named_list ⟨objects,holds_iff.mp hs,hp⟩ he }

open Storage in
private theorem after_recorded (now : Timestamp) (call : Storage.Operation) (h : Recorded bucket keyPrefix recorded store) :
    Recorded bucket keyPrefix (call.noted store recorded) (call.after now store) := by
  cases call with
  | setUp => exact ((recorded_setUp now).map _) store h
  | create node =>
    obtain ⟨done,after,he,hafter⟩ := recorded_create node h
    change (Storage.create node).on store = _ at he
    rw [Storage.Operation.after, Storage.Operation.run, on_map, Storage.Operation.noted, he]
    simpa using hafter
  | write path content => exact ((recorded_write now path content).map _) store h
  | touch path => exact ((recorded_touch now path).map _) store h
  | delete path => exact ((recorded_delete path).map _) store h
  | cleanup => exact ((@KeepsTemporary.cleanupByDelete Objects basic _ recorded_keepsTemporary).map _) store h
  | info path => exact ((recorded_load path).map _) store h
  | list path => exact ((recorded_list path).map _) store h
  | read path => exact ((look_recorded fun h => read_ends h path).map _) store h
  | stats => exact ((look_recorded stats_ends).map _) store h

private theorem showsSizes (hused : LenientNodes.Used store) (h : Recorded bucket keyPrefix recorded store) :
    Storage.ShowsSizes recorded store := by
  obtain ⟨objects,hs,hp,hsizes⟩ := h
  refine Storage.showsSizes_of_used hused (fun names hsome => ?_) (fun path => ?_) fun path => ?_
  · rw [view_eq hs, isSome_viewOf] at hsome
    obtain ⟨node,hn⟩ := Option.isSome_iff_exists.mp hsome
    exact named_of_nodeAt hn
  · rw [view_eq hs]
    exact ((read_ends (holds_iff.mp hs) path).yields (not_halts hp.tidy)).mono fun _ _ hr => hr.1
  · have hload := load_ends (holds_iff.mp hs) (Path.named_segments path)
    rw [← Path.normalize_eq] at hload
    exact (hload.yields (not_halts hp.tidy)).mono fun node _ hn dir hd => hsizes _ dir (by rw [← hn.1, hd])

/-- A sound bucket has no sizes of directories. -/
theorem recorded_of_sound (h : Sound store) : Recorded store.bucket store.keyPrefix (fun _ => none) store := by
  obtain ⟨objects,hs,hsound⟩ := h
  exact ⟨objects,hs,hsound.planted,fun names node hn => View.sized_of_untimed (hsound.placed names node hn)⟩

open Storage.Operation in
theorem play_showsSizes (h : Sound store) (calls : List (Timestamp × Storage.Operation)) :
    Storage.ShowsSizes (record calls store fun _ => none) (play calls store) :=
  showsSizes (play_preserves LenientNodes.preserves calls (LenientNodes.of_sound h))
    (play_record (fun now call _ _ => after_recorded now call) calls (recorded_of_sound h))

end Objects

/-! ### All runs -/

namespace Storage.Operation
open Storing Viewed

private theorem after_setUp {σ : Type} [Storage σ] [Viewed σ] {store : σ} {now : Timestamp} {wanted : Bool → View → Prop}
    (h : (Storage.setUp now).Meets store wanted) : Sound (after now .setUp store) := by
  obtain ⟨_,ready,he,hsound,_⟩ := h
  rwa [after, run, on_map, he]

/-- Whatever a new store that is set up first is asked for, files have the size of their text and sizes add up. In a table no
directory has a size; a tree in memory and a bucket whose requests go through keep what was asked for it. -/
theorem sizes_shown (database : DatabaseName) (bucket keyPrefix : String) (now : Timestamp)
    (calls : List (Timestamp × Storage.Operation)) :
    let calls := (now,.setUp) :: calls
    let start := Objects.new Client.new bucket keyPrefix
    ShowsSizes (fun _ => none) (play calls (Table.mk database false none)) ∧
      ShowsSizes (record calls Tree.empty fun _ => none) (play calls Tree.empty) ∧
      ShowsSizes (record calls start fun _ => none) (play calls start) := by
  intro calls start
  exact ⟨Table.play_showsSizes (after_setUp (Table.setUp_fresh database now)) _,
    Tree.play_showsSizes (after_setUp (Tree.setUp_empty now)) _,
    Objects.play_showsSizes (after_setUp (Objects.setUp_fresh bucket keyPrefix now)) _⟩

/-- The calls that make a directory of size 5. -/
private def sizedDirectory : List (Timestamp × Storage.Operation) := [(0,.setUp),(0,.create ⟨"d",true,"/",0,0,some 5⟩)]

/-- A directory that was asked for with a size is shown with it, but by a table. -/
theorem sized_directory_shown :
    ((Storage.info "/d").on (play sizedDirectory Tree.empty)).1 = .ok (some ⟨"d",true,"/",0,0,some 5⟩) ∧
      ((Storage.info "/d").on (play sizedDirectory (Objects.new Client.new "b" ""))).1 =
        .ok (some ⟨"d",true,"/",0,0,some 5⟩) ∧
      ((Storage.info "/d").on (play sizedDirectory (Table.mk ⟨"t",none,.memory,false,none⟩ false none))).1 =
        .ok (some ⟨"d",true,"/",0,0,none⟩) := by
  decide +kernel

end Storage.Operation
end VirtualShell
