import VirtualShell.Proofs.Storage.Descent
import VirtualShell.Proofs.Storage.ObjectsCalls

/-!
The store over an object service keeps the contract of stores as long as no request fails.
-/
namespace VirtualShell.Objects

variable {keyPrefix bucket : String} {objects : Keyed ByteArray} {names : List String} {store : Objects}

/-- The buckets of stores that are set up. -/
structure SoundObjects (keyPrefix : String) (objects : Keyed ByteArray) : Prop where
  tidy : Tidy keyPrefix objects
  placed : ∀ names node, nodeAt keyPrefix objects names = some node →
    node.untimed = View.node names (itemOf node (textAt keyPrefix objects names))
  wellFormed : (viewOf keyPrefix objects).WellFormed

/-- Every sidecar fits its place and its body, but for the size of a directory. -/
def Fits (keyPrefix : String) (objects : Keyed ByteArray) : Prop :=
  ∀ names node, nodeAt keyPrefix objects names = some node →
    node.trimmed.untimed = View.node names (itemOf node (textAt keyPrefix objects names))

theorem SoundObjects.fits (h : SoundObjects keyPrefix objects) : Fits keyPrefix objects := fun names node hn => by
  have hplaced := h.placed names node hn
  rwa [Node.trimmed_of_sized (View.sized_of_untimed hplaced)]

/-- No request fails, and the store has its bucket with these objects. -/
structure Holds (bucket keyPrefix : String) (objects : Keyed ByteArray) (store : Objects) : Prop where
  bucket_eq : store.bucket = bucket
  prefix_eq : store.keyPrefix = keyPrefix
  has : Client.Has bucket objects store.client

theorem holds_iff : Holds bucket keyPrefix objects store ↔ Stocks (fun _ _ => false) bucket keyPrefix objects store :=
  ⟨fun h => ⟨h.bucket_eq,h.prefix_eq,Client.has_iff.mp h.has⟩,fun h => ⟨h.bucket_eq,h.prefix_eq,Client.has_iff.mpr h.client⟩⟩

theorem not_refused (request : Request) : ¬ Client.Refused (fun _ _ => false) request := by simp [Client.Refused]

/-- Where all requests go through and all sidecars can be read, no call is stopped. -/
theorem not_halts (h : Tidy keyPrefix objects) (after : Objects) :
    ¬ Halts (fun _ _ => false) bucket keyPrefix objects after := fun ⟨_,hstop⟩ => by
  obtain ⟨request,hr⟩ := hstop h
  exact not_refused request hr

theorem isSome_viewOf (names : List String) :
    (viewOf keyPrefix objects names).isSome = (nodeAt keyPrefix objects names).isSome := by
  simp [viewOf]

theorem lists_namesIn (h : Tidy keyPrefix objects) {dir : List String} (hd : Path.Named dir) :
    (viewOf keyPrefix objects).Lists dir (namesIn keyPrefix objects dir) :=
  ⟨namesIn_pairwise h.rising dir,fun name => by rw [mem_namesIn h hd, isSome_viewOf]⟩

/-! ### What a store shows -/

instance : Viewed Objects where
  Sound store := ∃ objects, Holds store.bucket store.keyPrefix objects store ∧ SoundObjects store.keyPrefix objects
  view store := viewOf store.keyPrefix ((Keyed.find? store.bucket store.client.buckets).getD [])

theorem view_eq (h : Holds bucket keyPrefix objects store) : Viewed.view store = viewOf keyPrefix objects := by
  change viewOf store.keyPrefix ((Keyed.find? store.bucket store.client.buckets).getD []) = _
  rw [h.bucket_eq, h.has.found, h.prefix_eq]
  rfl

/-- An answer with a sound bucket left behind. -/
def Leaves {α : Type} (bucket keyPrefix : String) (wanted : α → View → Prop) (a : α) (store : Objects) : Prop :=
  ∃ objects, Holds bucket keyPrefix objects store ∧ SoundObjects keyPrefix objects ∧
    wanted a (viewOf keyPrefix objects)

private theorem meets_of_leaves {α : Type} {act : Storing Objects α} {wanted : α → View → Prop}
    (h : act.Yields store (Leaves bucket keyPrefix wanted)) : act.Meets store wanted := by
  refine h.mono fun a after ⟨objects,hh,hs,hw⟩ => ⟨⟨objects,?_,?_⟩,view_eq hh ▸ hw⟩
  · rw [hh.bucket_eq, hh.prefix_eq]
    exact hh
  · rw [hh.prefix_eq]
    exact hs

/-! ### Changes at one chain of names -/

/-- The second bucket is the first with another node at a chain of names, and perhaps another text. -/
structure Changed (keyPrefix : String) (names : List String) (new : Option Node) (before after : Keyed ByteArray) : Prop where
  tidy : Tidy keyPrefix after
  node : ∀ other, nodeAt keyPrefix after other = if other = names then new else nodeAt keyPrefix before other
  text : ∀ other, Path.Named other → other ≠ names → textAt keyPrefix after other = textAt keyPrefix before other

theorem changed_insertNode (ht : Tidy keyPrefix objects) (hn : Path.Named names) (node : Node) :
    Changed keyPrefix names (some node) objects (insertNode keyPrefix names node objects) where
  tidy := ht.insertNode hn node
  node := nodeAt_insertNode hn node
  text other _ _ := textAt_insertNode node other

theorem changed_write (ht : Tidy keyPrefix objects) (hn : Path.Named names) (node : Node) (text : String) :
    Changed keyPrefix names (some node) objects (insertNode keyPrefix names node (insertText keyPrefix names text objects)) where
  tidy := (ht.insertText names text).insertNode hn node
  node other := (nodeAt_insertNode hn node other).trans (by rw [nodeAt_insertText])
  text other ho hne := by rw [textAt_insertNode, textAt_insertText hn _ ho, if_neg hne]

theorem changed_delete (ht : Tidy keyPrefix objects) (hn : Path.Named names) (isDir : Bool) :
    Changed keyPrefix names none objects
      (eraseNode keyPrefix names (if isDir then objects else eraseText keyPrefix names objects)) := by
  cases isDir with
  | true =>
    exact ⟨ht.erase _,nodeAt_eraseNode ht.rising hn,fun other _ _ => textAt_eraseNode ht.rising other⟩
  | false =>
    have hleft : Tidy keyPrefix (eraseText keyPrefix names objects) := ht.erase _
    refine ⟨hleft.erase _,fun other => ?_,fun other ho hne => ?_⟩
    · exact (nodeAt_eraseNode hleft.rising hn other).trans (by rw [nodeAt_eraseText ht.rising])
    · exact (textAt_eraseNode hleft.rising other).trans (textAt_eraseText ht.rising hn ho hne)

/-- A new node, with an empty text if it is a file, has its item at its target. -/
theorem changed_create (ht : Tidy keyPrefix objects) {node : Node} (hn : Path.Named node.target) :
    let after := insertNode keyPrefix node.target (created node)
      (if node.isDir then objects else insertText keyPrefix node.target "" objects)
    Changed keyPrefix node.target (some (created node)) objects after ∧
      itemOf (created node) (textAt keyPrefix after node.target) = .new node.isDir := by
  cases hd : node.isDir with
  | true => exact ⟨changed_insertNode ht hn _,by simp [itemOf, created, hd, Item.new]⟩
  | false =>
    refine ⟨changed_write ht hn _ "",?_⟩
    rw [if_neg (by simp), textAt_insertNode, textAt_insertText hn _ hn, if_pos rfl]
    simp [itemOf, created, hd, Item.new]

/-- A change of a bucket at one chain of names changes the view there. -/
theorem Changed.view_eq {new : Option Node} {after : Keyed ByteArray} (h : Changed keyPrefix names new objects after) :
    viewOf keyPrefix after =
      (viewOf keyPrefix objects).set names (new.map fun node => itemOf node (textAt keyPrefix after names)) := by
  funext other
  rw [View.set_apply, viewOf, h.node]
  by_cases ho : other = names
  · rw [if_pos ho, if_pos ho, ho]
  · rw [if_neg ho, if_neg ho, viewOf]
    cases hn : nodeAt keyPrefix objects other with
    | none => rfl
    | some node => rw [Option.map_some, Option.map_some, h.text other (named_of_nodeAt hn) ho]

/-- What fits everywhere else and at the chain of names where the bucket is changed fits everywhere. -/
private theorem Changed.placed {new : Option Node} {after : Keyed ByteArray} (h : Changed keyPrefix names new objects after)
    (fits : List String → Node → Item → Prop)
    (hbefore : ∀ other node, nodeAt keyPrefix objects other = some node → fits other node (itemOf node (textAt keyPrefix objects other)))
    (hnew : ∀ node, new = some node → fits names node (itemOf node (textAt keyPrefix after names))) (other : List String)
    (node : Node) (hn : nodeAt keyPrefix after other = some node) : fits other node (itemOf node (textAt keyPrefix after other)) := by
  rw [h.node] at hn
  by_cases ho : other = names
  · rw [if_pos ho] at hn
    exact ho ▸ hnew node hn
  · rw [if_neg ho] at hn
    rw [h.text other (named_of_nodeAt hn) ho]
    exact hbefore other node hn

/-- A bucket that is changed at one chain of names stays sound if the change fits there. -/
private theorem sound_update (hs : SoundObjects keyPrefix objects) {new : Option Node} {after : Keyed ByteArray}
    (h : Changed keyPrefix names new objects after)
    (hplaced : ∀ node, new = some node → node.untimed = View.node names (itemOf node (textAt keyPrefix after names)))
    (hwf : (viewOf keyPrefix after).WellFormed) : SoundObjects keyPrefix after where
  tidy := h.tidy
  placed := h.placed (fun names node item => node.untimed = View.node names item) hs.placed hplaced
  wellFormed := hwf

theorem fits_update (hf : Fits keyPrefix objects) {new : Option Node} {after : Keyed ByteArray}
    (h : Changed keyPrefix names new objects after)
    (hplaced : ∀ node, new = some node → node.trimmed.untimed = View.node names (itemOf node (textAt keyPrefix after names))) :
    Fits keyPrefix after :=
  h.placed (fun names node item => node.trimmed.untimed = View.node names item) hf hplaced

/-! ### The calls -/

theorem isDir_iff {node : Node} (hn : nodeAt keyPrefix objects names = some node) :
    node.isDir = true ↔ viewOf keyPrefix objects names = some .dir := by
  rw [viewOf, hn, Option.map_some, itemOf]
  split <;> simp [*]

theorem isFile_iff {node : Node} (hn : nodeAt keyPrefix objects names = some node) :
    node.isDir = false ↔ (viewOf keyPrefix objects).IsFile names := by
  rw [View.IsFile, viewOf, hn, Option.map_some, itemOf]
  split <;> simp [*]

theorem canCreate_iff (node : Node) : Creatable keyPrefix objects node ↔ (viewOf keyPrefix objects).CanCreate node := by
  have hfree : nodeAt keyPrefix objects node.target = none ↔ viewOf keyPrefix objects node.target = none := by simp [viewOf]
  have hparent : (∃ parent, nodeAt keyPrefix objects (Path.segments node.parentPath) = some parent ∧ parent.isDir = true) ↔
      viewOf keyPrefix objects (Path.segments node.parentPath) = some .dir := by
    cases hp : nodeAt keyPrefix objects (Path.segments node.parentPath) with
    | none => simp [viewOf, hp]
    | some parent => simp [← isDir_iff hp]
  exact ⟨fun hc => ⟨hc.1,hparent.mp hc.2.2,hfree.mp hc.2.1⟩,fun hc => ⟨hc.1,hfree.mpr hc.2.2,hparent.mpr hc.2.1⟩⟩

theorem canDelete_iff (hs : SoundObjects keyPrefix objects) (hn : Path.Named names) :
    (∃ node, Removable keyPrefix objects names node) ↔ (viewOf keyPrefix objects).CanDelete names := by
  have hl := lists_namesIn hs.tidy hn
  constructor
  · rintro ⟨node,hne,hnode,hempty⟩
    refine ⟨hne,by rw [isSome_viewOf, hnode]; rfl,fun name => ?_⟩
    by_cases hd : node.isDir = true
    · rw [← Option.not_isSome_iff_eq_none, ← hl.2, hempty hd]
      simp
    · exact hs.wellFormed.none_below (fun he => hd ((isDir_iff hnode).mpr he)) name
  · rintro ⟨hne,hsome,hnone⟩
    rw [isSome_viewOf] at hsome
    obtain ⟨node,hnode⟩ := Option.isSome_iff_exists.mp hsome
    refine ⟨node,hne,hnode,fun _ => List.eq_nil_iff_forall_not_mem.mpr fun name hm => ?_⟩
    have hchild := (hl.2 name).mp hm
    simp [hnone name] at hchild

theorem info_leaves (path : String) (hs : SoundObjects keyPrefix objects) (h : Holds bucket keyPrefix objects store) :
    (load (Path.normalize path)).Yields store (Leaves bucket keyPrefix fun node after =>
      after = viewOf keyPrefix objects ∧
        node.map Node.untimed = (viewOf keyPrefix objects).node? (Path.segments path)) := by
  rw [Path.normalize_eq]
  refine ((load_ends (holds_iff.mp h) (Path.named_segments path)).yields (not_halts hs.tidy)).mono
    fun node after ⟨hnode,h⟩ => ⟨objects,holds_iff.mpr h,hs,rfl,?_⟩
  rw [hnode, View.node?, viewOf]
  cases hn : nodeAt keyPrefix objects (Path.segments path) with
  | none => rfl
  | some node => simp [hs.placed _ node hn]

theorem read_leaves (path : String) (hs : SoundObjects keyPrefix objects) (h : Holds bucket keyPrefix objects store) :
    (readPath path).Yields store (Leaves bucket keyPrefix fun content after =>
      after = viewOf keyPrefix objects ∧ content = (viewOf keyPrefix objects).content? (Path.segments path)) :=
  ((read_ends (holds_iff.mp h) path).yields (not_halts hs.tidy)).mono
    fun _ _ ⟨hc,h⟩ => ⟨objects,holds_iff.mpr h,hs,rfl,hc⟩

theorem list_leaves (path : String) (hs : SoundObjects keyPrefix objects) (h : Holds bucket keyPrefix objects store) :
    (listPath path).Yields store (Leaves bucket keyPrefix fun names after =>
      after = viewOf keyPrefix objects ∧ (viewOf keyPrefix objects).Lists (Path.segments path) names) := by
  refine ((list_ends (holds_iff.mp h) path).yields (not_halts hs.tidy)).mono
    fun names after ⟨hl,h⟩ => ⟨objects,holds_iff.mpr h,hs,rfl,?_⟩
  rw [hl]
  split
  · exact lists_namesIn hs.tidy (Path.named_segments path)
  · rename_i hno
    have hd : viewOf keyPrefix objects (Path.segments path) ≠ some .dir := fun he => hno <| by
      obtain ⟨node,hnode⟩ := Option.isSome_iff_exists.mp ((isSome_viewOf _).symm.trans (Option.isSome_of_eq_some he))
      simpa [hnode] using (isDir_iff hnode).mpr he
    exact ⟨.nil,fun name => by simp [hs.wellFormed.none_below hd name]⟩

theorem touch_leaves (now : Timestamp) (path : String) (hs : SoundObjects keyPrefix objects)
    (h : Holds bucket keyPrefix objects store) :
    (touchPath now path).Yields store (Leaves bucket keyPrefix
      ((viewOf keyPrefix objects).Touches (Path.segments path))) := by
  have hn := Path.named_segments path
  refine ((touch_ends (holds_iff.mp h) now path).yields (not_halts hs.tidy)).mono ?_
  rintro done after (⟨rfl,hnode,h⟩ | ⟨rfl,node,hnode,h⟩)
  · exact ⟨objects,holds_iff.mpr h,hs,by simp [isSome_viewOf, hnode],rfl⟩
  · have hview : viewOf keyPrefix objects (Path.segments path) = some (itemOf node (textAt keyPrefix objects (Path.segments path))) := by
      rw [viewOf, hnode]
      rfl
    have hchanged := changed_insertNode hs.tidy hn { node with modifiedAt := now }
    have hsame : viewOf keyPrefix (insertNode keyPrefix (Path.segments path) { node with modifiedAt := now } objects) =
        viewOf keyPrefix objects := by
      rw [hchanged.view_eq, textAt_insertNode]
      exact View.set_eq_self hview
    refine ⟨_,holds_iff.mpr h,sound_update hs hchanged ?_ (hsame ▸ hs.wellFormed),by simp [hview],hsame⟩
    intro changed hc
    obtain rfl := Option.some.inj hc
    rw [textAt_insertNode]
    exact hs.placed _ node hnode

theorem write_leaves (now : Timestamp) (path content : String) (hs : SoundObjects keyPrefix objects)
    (h : Holds bucket keyPrefix objects store) :
    (writePath now path content).Yields store (Leaves bucket keyPrefix
      ((viewOf keyPrefix objects).Writes (Path.segments path) content)) := by
  have hn := Path.named_segments path
  refine ((write_ends (holds_iff.mp h) now path content).yields fun after hf =>
    hf.elim (not_halts hs.tidy after) fun hf => not_refused _ hf.2.2).mono ?_
  rintro done after (⟨rfl,hfile,h⟩ | ⟨rfl,node,⟨hnode,hd⟩,h⟩)
  · suffices hno : ¬ (viewOf keyPrefix objects).IsFile (Path.segments path) from
      ⟨objects,holds_iff.mpr h,hs,by simpa using hno,rfl⟩
    rintro ⟨old,ho⟩
    obtain ⟨node,hnode⟩ := Option.isSome_iff_exists.mp ((isSome_viewOf _).symm.trans (Option.isSome_of_eq_some ho))
    exact hfile node ⟨hnode,(isFile_iff hnode).mpr ⟨old,ho⟩⟩
  · have hfile := (isFile_iff hnode).mp hd
    have hplaced := hs.placed _ node hnode
    rw [itemOf, if_neg (by simp [hd])] at hplaced
    let rewritten : Node := { node with size := some content.utf8ByteSize.toUInt64, modifiedAt := now }
    have hchanged := changed_write hs.tidy hn rewritten content
    have hitem : itemOf rewritten (textAt keyPrefix (insertNode keyPrefix (Path.segments path) rewritten
        (insertText keyPrefix (Path.segments path) content objects)) (Path.segments path)) = .file content := by
      rw [textAt_insertNode, textAt_insertText hn _ hn, if_pos rfl, itemOf, if_neg (by simp [rewritten, hd])]
    have hview := hchanged.view_eq
    rw [Option.map_some, hitem] at hview
    refine ⟨_,holds_iff.mpr h,sound_update hs hchanged ?_ (hview ▸ hs.wellFormed.write hfile content),by simpa using hfile,hview⟩
    intro changed hc
    obtain rfl := Option.some.inj hc
    rw [hitem]
    exact View.untimed_rewritten hplaced now content

theorem delete_leaves (path : String) (hs : SoundObjects keyPrefix objects) (h : Holds bucket keyPrefix objects store) :
    (deletePath path).Yields store (Leaves bucket keyPrefix
      ((viewOf keyPrefix objects).Deletes (Path.segments path))) := by
  have hn := Path.named_segments path
  refine ((delete_ends (holds_iff.mp h) path).yields fun after hf =>
    hf.elim (not_halts hs.tidy after) fun hf => not_refused _ hf.2.2).mono ?_
  rintro done after (⟨rfl,hnone,h⟩ | ⟨rfl,node,hr,h⟩)
  · have hno : ¬ (viewOf keyPrefix objects).CanDelete (Path.segments path) := fun hc => by
      obtain ⟨node,hr⟩ := (canDelete_iff hs hn).mpr hc
      exact hnone node hr
    exact ⟨objects,holds_iff.mpr h,hs,by simpa using hno,rfl⟩
  · have hcan := (canDelete_iff hs hn).mp ⟨node,hr⟩
    have hchanged := changed_delete hs.tidy hn node.isDir
    have hview := hchanged.view_eq
    rw [Option.map_none] at hview
    exact ⟨_,holds_iff.mpr h,sound_update hs hchanged (by simp) (hview ▸ hs.wellFormed.delete hcan),by simpa using hcan,hview⟩

theorem create_leaves (node : Node) (hs : SoundObjects keyPrefix objects) (h : Holds bucket keyPrefix objects store)
    (hsized : node.Sized) :
    (createNode node).Yields store (Leaves bucket keyPrefix ((viewOf keyPrefix objects).Creates node)) := by
  refine ((create_ends (holds_iff.mp h) node).yields fun after hf =>
    hf.elim (not_halts hs.tidy after) fun hf => not_refused _ hf.2.2).mono ?_
  rintro done after (⟨rfl,hnot,h⟩ | ⟨rfl,hc,h⟩)
  · exact ⟨objects,holds_iff.mpr h,hs,by simpa [canCreate_iff] using hnot,rfl⟩
  · have hnew := (canCreate_iff node).mp hc
    have hn : Path.Named node.target := Path.named_concat.mpr ⟨Path.named_segments _,hnew.1⟩
    have hplaced : (created node).untimed = View.node node.target (.new node.isDir) := by
      refine View.untimed_created rfl rfl rfl ?_
      cases hd : node.isDir with
      | true => simpa [created, hd, Item.new, Item.size] using hsized hd
      | false => simp [created, hd, Item.new, Item.size]
    obtain ⟨hchanged,hitem⟩ := changed_create hs.tidy hn
    have hview := hchanged.view_eq
    rw [Option.map_some, hitem] at hview
    refine ⟨_,holds_iff.mpr h,sound_update hs hchanged ?_ (hview ▸ hs.wellFormed.create hnew),by simpa using hnew,hview⟩
    intro changed hc
    obtain rfl := Option.some.inj hc
    rw [hitem]
    exact hplaced

theorem setUp_leaves (now : Timestamp) (hs : SoundObjects keyPrefix objects) (h : Holds bucket keyPrefix objects store) :
    (setUp now).Yields store (Leaves bucket keyPrefix fun done after => done = true ∧ after = viewOf keyPrefix objects) := by
  obtain ⟨rfl,rfl,hc⟩ := holds_iff.mp h
  have hends := setUp_ends hc.fails_eq now
  rw [hc.found, Option.getD_some] at hends
  refine (hends.yields fun after hf => hf.elim (not_halts hs.tidy after) fun hf => not_refused _ hf.2.2.2).mono
    fun done after ⟨hdone,h⟩ => ?_
  have hroot : (nodeAt store.keyPrefix objects []).isSome := by rw [← isSome_viewOf, hs.wellFormed.root]; rfl
  rw [if_pos hroot] at h
  exact ⟨objects,holds_iff.mpr h,hs,hdone,rfl⟩

/-! ### Counting -/

/-- The chain of names that the key of a sidecar stands for. -/
def namesOf (keyPrefix key : String) : List String :=
  Path.segments (.ofList (key.toList.drop (keyIn keyPrefix "nodes" "").toList.length))

private theorem namesOf_key (hn : Path.Named names) :
    namesOf keyPrefix (keyIn keyPrefix "nodes" (Path.ofSegments names)) = names := by
  have hkey : keyIn keyPrefix "nodes" (Path.ofSegments names) = keyIn keyPrefix "nodes" "" ++ Path.ofSegments names := by
    rw [← keyIn_append, String.empty_append]
  rw [namesOf, hkey, String.toList_append, List.drop_left, String.ofList_toList, Path.segments_ofSegments hn]

/-- The chains of names of all nodes, in the order of their keys. -/
def chains (keyPrefix : String) (objects : Keyed ByteArray) : List (List String) :=
  (Client.startingWith (keyIn keyPrefix "nodes" "") objects).keys.map (namesOf keyPrefix)

private theorem mem_sidecars (ht : Tidy keyPrefix objects) (key : String) :
    key ∈ (Client.startingWith (keyIn keyPrefix "nodes" "") objects).keys ↔
      ∃ names, key = keyIn keyPrefix "nodes" (Path.ofSegments names) ∧ (nodeAt keyPrefix objects names).isSome := by
  simp only [Keyed.keys, List.mem_map, Client.startingWith_eq_filter ht.rising, List.mem_filter,
    List.isPrefixOf_iff_prefix]
  constructor
  · rintro ⟨⟨_,body⟩,⟨hm,hp⟩,rfl⟩
    obtain ⟨names,node,hn,hkey,rfl⟩ := ht.known _ _ hm hp
    refine ⟨names,hkey,Option.isSome_iff_exists.mpr ⟨node,(ht.nodeAt_eq_some_iff hn).mpr ?_⟩⟩
    exact ht.rising.find?_iff.mpr (hkey ▸ hm)
  · rintro ⟨names,rfl,hs⟩
    obtain ⟨node,hnode⟩ := Option.isSome_iff_exists.mp hs
    have hfound := (ht.nodeAt_eq_some_iff (named_of_nodeAt hnode)).mp hnode
    exact ⟨_,⟨Keyed.mem_of_find? hfound,starts_with _ _⟩,rfl⟩

private theorem keys_eq_map_chains (ht : Tidy keyPrefix objects) :
    (chains keyPrefix objects).map (fun names => keyIn keyPrefix "nodes" (Path.ofSegments names)) =
      (Client.startingWith (keyIn keyPrefix "nodes" "") objects).keys := by
  have hback : ∀ key ∈ (Client.startingWith (keyIn keyPrefix "nodes" "") objects).keys,
      keyIn keyPrefix "nodes" (Path.ofSegments (namesOf keyPrefix key)) = key := by
    intro key hk
    obtain ⟨names,rfl,hs⟩ := (mem_sidecars ht key).mp hk
    obtain ⟨node,hnode⟩ := Option.isSome_iff_exists.mp hs
    rw [namesOf_key (named_of_nodeAt hnode)]
  rw [chains, List.map_map]
  exact (List.map_congr_left hback).trans (List.map_id _)

theorem nodup_chains (ht : Tidy keyPrefix objects) : (chains keyPrefix objects).Nodup := by
  apply List.Nodup.of_map fun names => keyIn keyPrefix "nodes" (Path.ofSegments names)
  rw [keys_eq_map_chains ht, Client.startingWith_eq_filter ht.rising]
  exact (Keyed.Rising.keys_pairwise (ht.rising.sublist List.filter_sublist)).imp fun hlt => hlt.ne

theorem mem_chains (ht : Tidy keyPrefix objects) (names : List String) :
    names ∈ chains keyPrefix objects ↔ (viewOf keyPrefix objects names).isSome := by
  rw [isSome_viewOf, chains, List.mem_map]
  constructor
  · rintro ⟨key,hk,rfl⟩
    obtain ⟨names,rfl,hs⟩ := (mem_sidecars ht key).mp hk
    obtain ⟨node,hnode⟩ := Option.isSome_iff_exists.mp hs
    rwa [namesOf_key (named_of_nodeAt hnode)]
  · intro hs
    obtain ⟨node,hnode⟩ := Option.isSome_iff_exists.mp hs
    exact ⟨_,(mem_sidecars ht _).mpr ⟨names,rfl,hs⟩,namesOf_key (named_of_nodeAt hnode)⟩

private theorem tally_counts (stats : StorageStats) {node : Node} {item : Item}
    (h : node.trimmed.untimed = View.node names item) :
    (tally stats node).files = stats.files + (if item.isDir then 0 else 1) ∧
      (tally stats node).directories = stats.directories + (if item.isDir then 1 else 0) ∧
      (tally stats node).bytes ≤ stats.bytes + item.bytes ∧
      (tally stats node).bytes % 2 ^ 64 = (stats.bytes + item.bytes) % 2 ^ 64 := by
  have hdir : node.isDir = item.isDir := congrArg Node.isDir h
  rw [tally, hdir]
  cases item with
  | dir => simp [Item.isDir, Item.bytes]
  | file content =>
    rw [Node.trimmed_of_file hdir] at h
    have hsize : node.size = some content.utf8ByteSize.toUInt64 := congrArg Node.size h
    simp [hsize, Item.isDir, Item.bytes, addBytes]
    omega

/-- Adding up the nodes of some chains of names counts the items there. -/
private theorem foldl_tallied (hfits : Fits keyPrefix objects) {chains : List (List String)}
    (hchains : ∀ names ∈ chains, (viewOf keyPrefix objects names).isSome) (stats : StorageStats) :
    let total := (chains.map fun names => keyIn keyPrefix "nodes" (Path.ofSegments names)).foldl (tallied objects) stats
    let entries := chains.filterMap fun n => (viewOf keyPrefix objects n).map (n,·)
    total.files = stats.files + View.fileCount entries ∧
      total.directories = stats.directories + View.dirCount entries ∧
      total.bytes ≤ stats.bytes + View.byteCount entries ∧
      total.bytes % 2 ^ 64 = (stats.bytes + View.byteCount entries) % 2 ^ 64 := by
  induction chains generalizing stats with
  | nil => exact ⟨rfl,rfl,le_refl _,rfl⟩
  | cons names chains ih =>
    have hsome := hchains names (by simp)
    rw [isSome_viewOf] at hsome
    obtain ⟨node,hnode⟩ := Option.isSome_iff_exists.mp hsome
    have htallied : tallied objects stats (keyIn keyPrefix "nodes" (Path.ofSegments names)) = tally stats node := by
      rw [nodeAt, if_pos (named_of_nodeAt hnode)] at hnode
      rw [tallied, hnode]
    have hentry : viewOf keyPrefix objects names = some (itemOf node (textAt keyPrefix objects names)) := by
      rw [viewOf, hnode]
      rfl
    obtain ⟨hfiles,hdirs,hle,hmod⟩ := tally_counts stats (hfits names node hnode)
    obtain ⟨hfiles',hdirs',hle',hmod'⟩ := ih (fun n hn => hchains n (by simp [hn])) (tally stats node)
    simp only [List.map_cons, List.foldl_cons, htallied, List.filterMap_cons, hentry, Option.map_some, View.fileCount_cons,
      View.dirCount_cons, View.byteCount_cons]
    refine ⟨by omega,by omega,by omega,?_⟩
    rw [hmod', Nat.add_mod, hmod, ← Nat.add_mod]
    congr 1
    omega

/-- The numbers of a store are right whatever sizes its directories have. -/
theorem stats_measures (ht : Tidy keyPrefix objects) (hfits : Fits keyPrefix objects) (h : Holds bucket keyPrefix objects store) :
    statsOf.Yields store fun stats after => Holds bucket keyPrefix objects after ∧
      (viewOf keyPrefix objects).Measures stats (viewOf keyPrefix objects) := by
  refine ((stats_ends (holds_iff.mp h)).yields (not_halts ht)).mono fun total after ⟨htotal,h⟩ =>
    ⟨holds_iff.mpr h,rfl,_,View.enumerates_of_names (nodup_chains ht) (mem_chains ht),?_⟩
  rw [← keys_eq_map_chains ht] at htotal
  obtain ⟨hfiles,hdirs,hle,hmod⟩ := foldl_tallied hfits (fun names hm => (mem_chains ht names).mp hm)
    ⟨"s3",0,0,0,some (.bucket bucket keyPrefix),none⟩
  rw [htotal]
  exact ⟨by simpa using hfiles,by simpa using hdirs,by simpa using hle,by simpa using hmod⟩

theorem stats_leaves (hs : SoundObjects keyPrefix objects) (h : Holds bucket keyPrefix objects store) :
    statsOf.Yields store (Leaves bucket keyPrefix (viewOf keyPrefix objects).Measures) :=
  (stats_measures hs.tidy hs.fits h).mono fun _ _ ⟨h,hm⟩ => ⟨objects,h,hs,hm⟩

private theorem length_le (hs : SoundObjects keyPrefix objects) {names : List (List String)} (hnodup : names.Nodup)
    (hmem : ∀ n ∈ names, (viewOf keyPrefix objects n).isSome) : names.length ≤ objects.length := by
  have hsub : names ⊆ chains keyPrefix objects := fun n hn => (mem_chains hs.tidy n).mpr (hmem n hn)
  calc names.length ≤ (chains keyPrefix objects).length := (hnodup.subperm hsub).length_le
    _ = (Client.startingWith (keyIn keyPrefix "nodes" "") objects).length := by simp [chains, Keyed.keys]
    _ ≤ objects.length := by
      rw [Client.startingWith_eq_filter hs.tidy.rising]
      exact List.length_filter_le _ _

/-! ### The contract -/

/-- The contract without cleaning up. -/
@[reducible] def basicLaws : @LawfulNodes Objects basic :=
  letI := basic
  { wellFormed := fun ⟨objects,h,hs⟩ => by
      rw [view_eq h]
      exact hs.wellFormed
    length_le_capacity := fun ⟨objects,h,hs⟩ names hn hm => by
      rw [view_eq h] at hm
      have hlength := length_le hs hn hm
      change names.length ≤ ((Keyed.find? _ _).getD []).length
      rw [h.has.found]
      exact hlength
    setUp := fun now ⟨objects,h,hs⟩ => by rw [view_eq h]; exact meets_of_leaves (setUp_leaves now hs h)
    info := fun path ⟨objects,h,hs⟩ => by rw [view_eq h]; exact meets_of_leaves (info_leaves path hs h)
    create := fun node ⟨objects,h,hs⟩ hsized => by rw [view_eq h]; exact meets_of_leaves (create_leaves node hs h hsized)
    list := fun path ⟨objects,h,hs⟩ => by rw [view_eq h]; exact meets_of_leaves (list_leaves path hs h)
    write := fun now path content ⟨objects,h,hs⟩ => by
      rw [view_eq h]; exact meets_of_leaves (write_leaves now path content hs h)
    read := fun path ⟨objects,h,hs⟩ => by rw [view_eq h]; exact meets_of_leaves (read_leaves path hs h)
    delete := fun path ⟨objects,h,hs⟩ => by rw [view_eq h]; exact meets_of_leaves (delete_leaves path hs h)
    touch := fun now path ⟨objects,h,hs⟩ => by rw [view_eq h]; exact meets_of_leaves (touch_leaves now path hs h)
    stats := fun ⟨objects,h,hs⟩ => by rw [view_eq h]; exact meets_of_leaves (stats_leaves hs h) }

instance : LawfulStorage Objects where
  wellFormed := basicLaws.wellFormed
  length_le_capacity := basicLaws.length_le_capacity
  setUp := basicLaws.setUp
  info := basicLaws.info
  create := basicLaws.create
  list := basicLaws.list
  write := basicLaws.write
  read := basicLaws.read
  delete := basicLaws.delete
  touch := basicLaws.touch
  stats := basicLaws.stats
  cleanup h := @Storage.cleanupByDelete_meets Objects basic basicLaws _ h

/-- A store without a bucket shows a bare root when it is set up. -/
theorem setUp_fresh (bucket keyPrefix : String) (now : Timestamp) :
    (Storage.setUp now).Meets (new Client.new bucket keyPrefix) fun done after => done = true ∧ after = View.bare := by
  obtain ⟨start,hstart⟩ : ∃ start, new Client.new bucket keyPrefix = ⟨Client.new,bucket,start⟩ := ⟨_,rfl⟩
  rw [hstart]
  have htidy : Tidy start [] := ⟨Keyed.rising_nil,by simp⟩
  have hnone (names : List String) : nodeAt start [] names = none := by simp [nodeAt, Keyed.find?]
  suffices h : (setUp now).Yields ⟨Client.new,bucket,start⟩
    (Leaves bucket start fun done after => done = true ∧ after = View.bare) from meets_of_leaves h
  have hends : (setUp now).Ends ⟨Client.new,bucket,start⟩ _ _ := setUp_ends rfl now
  refine (hends.yields fun after hf => hf.elim (not_halts htidy after) fun hf => not_refused _ hf.2.2.2).mono
    fun done after h => ?_
  obtain ⟨hdone,h⟩ := h
  change Stocks _ bucket start (if (nodeAt start [] []).isSome then [] else insertNode start [] (Node.root now) []) after at h
  rw [hnone, if_neg (by simp)] at h
  have hnode (other : List String) : nodeAt start (insertNode start [] (Node.root now) []) other =
    if other = [] then some (Node.root now) else nodeAt start [] other := nodeAt_insertNode Path.named_nil _ other
  have hview : viewOf start (insertNode start [] (Node.root now) []) = View.bare := by
    funext names
    rw [viewOf, hnode, View.bare, hnone]
    split <;> rfl
  refine ⟨_,holds_iff.mpr h,⟨htidy.insertNode Path.named_nil _,fun names node hn => ?_,hview ▸ View.wellFormed_bare⟩,hdone,hview⟩
  rw [hnode, hnone] at hn
  split at hn
  · rename_i he
    rw [← Option.some.inj hn, he]
    rfl
  · simp at hn

end VirtualShell.Objects
