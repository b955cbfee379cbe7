import VirtualShell.Proofs.Storage.Sizes

/-!
The store over an object service, asked for nodes of any size. The sidecar of a directory keeps the size it was asked for;
every other sidecar fits its place and its body.
-/
namespace VirtualShell.Objects
open Storing

variable {bucket keyPrefix : String} {objects : Keyed ByteArray} {store : Objects}

/-- No request fails, and the bucket holds a tree of sidecars that fit. -/
def Holding (bucket keyPrefix : String) (store : Objects) : Prop :=
  ∃ objects, Holds bucket keyPrefix objects store ∧ Planted keyPrefix True objects ∧ Fits keyPrefix objects

/-- An action that leaves a tree of sidecars, and sidecars that fit, wherever it finds them. -/
private theorem preserves_holding {α : Type} {act : Storing Objects α}
    (hstands : act.Preserves (Stands (fun _ _ => false) bucket keyPrefix True))
    (h : ∀ {objects store}, Stocks (fun _ _ => false) bucket keyPrefix objects store → Tidy keyPrefix objects →
      Fits keyPrefix objects → act.Yields store fun _ after =>
        ∃ left, Stocks (fun _ _ => false) bucket keyPrefix left after ∧ Fits keyPrefix left) :
    act.Preserves (Holding bucket keyPrefix) := by
  intro store ⟨objects,hs,hp,hf⟩
  obtain ⟨left,hleft,hplanted⟩ := hstands store ⟨objects,holds_iff.mp hs,hp⟩
  obtain ⟨_,after,he,left',hleft',hfits⟩ := h (holds_iff.mp hs) hp.tidy hf
  rw [he] at hleft ⊢
  obtain rfl : left = left' := Option.some.inj (hleft.client.found.symm.trans hleft'.client.found)
  exact ⟨left,holds_iff.mpr hleft,hplanted,hfits⟩

/-- A call that leaves the bucket as it is. -/
private theorem holding_of_look {α : Type} {act : Storing Objects α} {wanted : Keyed ByteArray → α → Prop}
    (hends : ∀ {objects store}, Stocks (fun _ _ => false) bucket keyPrefix objects store →
      act.Ends store (Halts (fun _ _ => false) bucket keyPrefix objects)
        fun a after => wanted objects a ∧ Stocks (fun _ _ => false) bucket keyPrefix objects after) :
    act.Preserves (Holding bucket keyPrefix) := by
  intro store ⟨objects,hs,hp,hf⟩
  obtain ⟨_,after,he,_,hafter⟩ := (hends (holds_iff.mp hs)).yields (not_halts hp.tidy)
  rw [he]
  exact ⟨objects,holds_iff.mpr hafter,hp,hf⟩

private theorem holding_load (path : String) : (load (Path.normalize path)).Preserves (Holding bucket keyPrefix) := by
  rw [Path.normalize_eq]
  exact holding_of_look fun h => load_ends h (Path.named_segments path)

private theorem holding_list (path : String) : (listPath path).Preserves (Holding bucket keyPrefix) :=
  holding_of_look fun h => list_ends h path

private theorem create_creates (ht : Tidy keyPrefix objects) (hf : Fits keyPrefix objects)
    (hs : Stocks (fun _ _ => false) bucket keyPrefix objects store) (node : Node) :
    (createNode node).Yields store fun done after => (∃ left, Stocks (fun _ _ => false) bucket keyPrefix left after ∧
      Fits keyPrefix left ∧ (viewOf keyPrefix objects).Creates node done (viewOf keyPrefix left)) := by
  refine ((create_ends hs node).yields fun after hf => hf.elim (not_halts ht after) fun hf => not_refused _ hf.2.2).mono ?_
  rintro done after (⟨rfl,hnot,h⟩ | ⟨rfl,hc,h⟩)
  · exact ⟨objects,h,hf,by simpa [canCreate_iff] using hnot,rfl⟩
  · have hnew := (canCreate_iff node).mp hc
    have hn : Path.Named node.target := Path.named_concat.mpr ⟨Path.named_segments _,hnew.1⟩
    obtain ⟨hchanged,hitem⟩ := changed_create ht hn
    have hview := hchanged.view_eq
    rw [Option.map_some, hitem] at hview
    refine ⟨_,h,fits_update hf hchanged ?_,by simpa using hnew,hview⟩
    intro changed hc
    obtain rfl := Option.some.inj hc
    rw [hitem]
    refine View.untimed_created rfl rfl rfl ?_
    cases hd : node.isDir <;> simp [Node.trimmed, created, hd, Item.new, Item.size]

private theorem holding_write (now : Timestamp) (path content : String) :
    (writePath now path content).Preserves (Holding bucket keyPrefix) := by
  refine preserves_holding (stands_write now path content) fun {objects store} hs ht hf => ?_
  have hn := Path.named_segments path
  refine ((write_ends hs now path content).yields fun after hf =>
    hf.elim (not_halts ht after) fun hf => not_refused _ hf.2.2).mono ?_
  rintro done after (⟨_,_,h⟩ | ⟨_,node,⟨hnode,hd⟩,h⟩)
  · exact ⟨objects,h,hf⟩
  · refine ⟨_,h,fits_update hf (changed_write ht hn _ content) fun changed hc => ?_⟩
    obtain rfl := Option.some.inj hc
    have hfit := hf _ node hnode
    rw [Node.trimmed_of_file hd, itemOf, if_neg (by simp [hd])] at hfit
    rw [textAt_insertNode, textAt_insertText hn _ hn, if_pos rfl, itemOf, if_neg (by simp [hd]), Node.trimmed_of_file]
    · exact View.untimed_rewritten hfit now content
    · exact hd

private theorem holding_touch (now : Timestamp) (path : String) : (touchPath now path).Preserves (Holding bucket keyPrefix) := by
  refine preserves_holding (stands_touch now path) fun {objects store} hs ht hf => ?_
  refine ((touch_ends hs now path).yields (not_halts ht)).mono ?_
  rintro done after (⟨_,_,h⟩ | ⟨_,node,hnode,h⟩)
  · exact ⟨objects,h,hf⟩
  · refine ⟨_,h,fits_update hf (changed_insertNode ht (Path.named_segments path) _) fun changed hc => ?_⟩
    obtain rfl := Option.some.inj hc
    rw [textAt_insertNode]
    exact hf _ node hnode

private theorem holding_delete (path : String) : (deletePath path).Preserves (Holding bucket keyPrefix) := by
  refine preserves_holding (stands_delete path) fun {objects store} hs ht hf => ?_
  refine ((delete_ends hs path).yields fun after hf => hf.elim (not_halts ht after) fun hf => not_refused _ hf.2.2).mono ?_
  rintro done after (⟨_,_,h⟩ | ⟨_,node,_,h⟩)
  · exact ⟨objects,h,hf⟩
  · exact ⟨_,h,fits_update hf (changed_delete ht (Path.named_segments path) node.isDir) (by simp)⟩

private theorem holding_setUp (now : Timestamp) : (setUp now).Preserves (Holding bucket keyPrefix) := by
  refine .of_ends fun store ⟨objects,hs,hp,hf⟩ => ?_
  obtain ⟨node,hroot,_⟩ := hp.ground trivial
  refine (setUp_stocks (holds_iff.mp hs) now).mono (fun _ h => ⟨objects,holds_iff.mpr h,hp,hf⟩) fun _ after ⟨_,h⟩ => ?_
  rw [hroot, Option.isSome_some, if_pos rfl] at h
  exact ⟨objects,holds_iff.mpr h,hp,hf⟩

private theorem holding_keepsTemporary : @Storage.KeepsTemporary Objects basic (Holding bucket keyPrefix) :=
  letI := basic
  { info := holding_load
    list := holding_list
    delete := fun path _ => holding_delete path
    placed := fun ⟨objects,hs,hp,_⟩ he => placed_load ⟨objects,holds_iff.mp hs,hp⟩ he
    named := fun ⟨objects,hs,hp,_⟩ he => named_list ⟨objects,holds_iff.mp hs,hp⟩ he }

private theorem holding_run (now : Timestamp) (call : Storage.Operation) :
    (call.run now : Storing Objects Unit).Preserves (Holding bucket keyPrefix) := by
  cases call with
  | setUp => exact (holding_setUp now).map _
  | info path => exact (holding_load path).map _
  | create node =>
    refine (preserves_holding (stands_create node) fun hs ht hf => ?_).map _
    exact (create_creates ht hf hs node).mono fun _ _ ⟨left,h,hfits,_⟩ => ⟨left,h,hfits⟩
  | list path => exact (holding_list path).map _
  | write path content => exact (holding_write now path content).map _
  | read path => exact (holding_of_look fun h => read_ends h path).map _
  | delete path => exact (holding_delete path).map _
  | touch path => exact (holding_touch now path).map _
  | stats => exact (holding_of_look stats_ends).map _
  | cleanup => exact (@Storage.KeepsTemporary.cleanupByDelete Objects basic _ holding_keepsTemporary).map _

private theorem Holding.here (h : Holding bucket keyPrefix store) : Holding store.bucket store.keyPrefix store := by
  obtain ⟨objects,⟨rfl,rfl,hhas⟩,hp,hf⟩ := h
  exact ⟨objects,⟨rfl,rfl,hhas⟩,hp,hf⟩

instance : LenientNodes Objects where
  Used store := Holding store.bucket store.keyPrefix store
  of_sound := fun ⟨objects,h,hs⟩ => ⟨objects,h,hs.planted,hs.fits⟩
  preserves now call store h := (holding_run now call store h).here
  info {store} path := fun ⟨objects,hs,hp,hf⟩ => by
    have hload := load_ends (holds_iff.mp hs) (Path.named_segments path)
    rw [← Path.normalize_eq] at hload
    rw [view_eq hs]
    refine (hload.yields (not_halts hp.tidy)).mono fun node after ⟨hnode,h⟩ => ⟨view_eq (holds_iff.mpr h),?_⟩
    rw [hnode, View.node?, viewOf]
    cases hn : nodeAt store.keyPrefix objects (Path.segments path) with
    | none => rfl
    | some node => exact congrArg some (hf _ node hn)
  create node := fun ⟨objects,hs,hp,hf⟩ => by
    rw [view_eq hs]
    refine (create_creates hp.tidy hf (holds_iff.mp hs) node).mono fun done after ⟨left,h,_,hcreates⟩ => ?_
    rwa [view_eq (holds_iff.mpr h)]
  stats := fun ⟨objects,hs,hp,hf⟩ => by
    rw [view_eq hs]
    refine (stats_measures hp.tidy hf hs).mono fun stats after ⟨h,hm⟩ => ?_
    rwa [view_eq h]

end VirtualShell.Objects
