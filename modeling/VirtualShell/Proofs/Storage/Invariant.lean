import VirtualShell.Proofs.Storage.View

/-!
Invariants of stores. What the single calls of a store keep, the actions that are made of them keep as well.
-/
namespace VirtualShell.Storage
open Storing
variable {σ : Type} [Storage σ] {inv : σ → Prop}

/-- The calls that take nothing away keep an invariant. -/
structure KeepsGrowing (inv : σ → Prop) : Prop where
  info (path : String) : Preserves inv (Storage.info path : Storing σ (Option Node))
  create (node : Node) : node.Sized → Preserves inv (Storage.create node : Storing σ Bool)
  list (path : String) : Preserves inv (Storage.list path : Storing σ (List String))
  write (now : Timestamp) (path content : String) : Preserves inv (Storage.write now path content : Storing σ Bool)
  read (path : String) : Preserves inv (Storage.read path : Storing σ (Option String))
  touch (now : Timestamp) (path : String) : Preserves inv (Storage.touch now path : Storing σ Bool)
  stats : Preserves inv (Storage.stats : Storing σ StorageStats)

/-- The calls that the operations of a file system are made of keep an invariant. -/
structure Keeps (inv : σ → Prop) : Prop extends KeepsGrowing inv where
  delete (path : String) : Preserves inv (Storage.delete path : Storing σ Bool)

/-- They keep it as long as nothing is deleted that holds a given directory. -/
structure KeepsAround (cwd : String) (inv : σ → Prop) : Prop extends KeepsGrowing inv where
  delete (path : String) : Path.isWithin cwd path = false → Preserves inv (Storage.delete path : Storing σ Bool)

/-- What does not depend on the store is kept. -/
theorem keeps_constant {fixed : Prop} : Keeps (fun _ : σ => fixed) where
  info _ _ h := h
  create _ _ _ h := h
  list _ _ h := h
  write _ _ _ _ h := h
  read _ _ h := h
  touch _ _ _ h := h
  stats _ h := h
  delete _ _ h := h

theorem Keeps.around (h : Keeps inv) (cwd : String) : KeepsAround cwd inv := ⟨h.toKeepsGrowing,fun path _ => h.delete path⟩

namespace KeepsGrowing

theorem createDirs (h : KeepsGrowing inv) (now : Timestamp) (parts : List String) (current : String) :
    Preserves inv (Storage.createDirs now current parts : Storing σ Bool) := by
  induction parts generalizing current with
  | nil => exact .pure true
  | cons part rest ih =>
    refine (h.info _).bind fun found => ?_
    cases found with
    | some node => exact .ite (ih _) (.pure false)
    | none => exact (h.create _ (Node.sized_new _ _ _ _)).bind fun done => .ite (ih _) (.pure false)

theorem createDirAll (h : KeepsGrowing inv) (now : Timestamp) (dir : String) :
    Preserves inv (Storage.createDirAll now dir : Storing σ Bool) :=
  h.createDirs now _ _

omit [Storage σ] in
private theorem walkEach {walk : String → Storing σ Traversal} (h : ∀ name, Preserves inv (walk name))
    (names : List String) : Preserves inv (Storage.walkEach walk names) := by
  induction names with
  | nil => exact .pure _
  | cons name rest ih => exact (h name).bind fun _ => ih.bind fun _ => .pure _

theorem walk (h : KeepsGrowing inv) (deep : Bool) (wanted : String → Bool) (fuel : Nat) (dir : String) :
    Preserves inv (Storage.walk deep wanted fuel dir : Storing σ Traversal) := by
  induction fuel generalizing dir with
  | zero => exact .pure _
  | succ fuel ih =>
    refine (h.list dir).caught.bind fun listed => ?_
    cases listed with
    | error e => exact .pure _
    | ok names =>
      refine walkEach (fun name => .ite (.pure _) ?_) names
      refine (h.info _).caught.bind fun found => ?_
      rcases found with e | _ | node
      · exact .pure _
      · exact .pure _
      · exact .ite ((ih _).bind fun _ => .pure _) (.pure _)

end KeepsGrowing

/-- Cleaning up by single deletions looks only where it finds what it looks for, and deletes what is temporary. -/
structure KeepsTemporary (inv : σ → Prop) : Prop where
  info (path : String) : Preserves inv (Storage.info path : Storing σ (Option Node))
  list (path : String) : Preserves inv (Storage.list path : Storing σ (List String))
  delete (path : String) : View.Temporary (Path.segments path) → Preserves inv (Storage.delete path : Storing σ Bool)
  placed {store after : σ} {path : String} {node : Node} : inv store →
    (Storage.info path).on store = (.ok (some node), after) → Path.segments node.path = Path.segments path
  named {store after : σ} {path : String} {names : List String} : inv store →
    (Storage.list path).on store = (.ok names, after) → ∀ name ∈ names, Path.isName name = true

namespace KeepsTemporary

/-- The directory for temporary data, or something below it. -/
private def Inside (path : String) : Prop := ∃ more, Path.segments path = "tmp" :: more

private def Found (child : String × Node) : Prop :=
  View.Temporary (Path.segments child.1) ∧ Path.segments child.2.path = Path.segments child.1

private theorem temporary_join {dir name : String} (hd : Inside dir) (hn : Path.isName name = true) :
    View.Temporary (Path.segments (Path.join dir name)) := by
  obtain ⟨more,hm⟩ := hd
  exact ⟨more ++ [name],by simp,by rw [Path.segments_join _ hn, hm, List.cons_append]⟩

private theorem lookUp (h : KeepsTemporary inv) {dir : String} (hd : Inside dir) {names : List String}
    (hnames : ∀ name ∈ names, Path.isName name = true) {store : σ} (hs : inv store) :
    (Storage.lookUp dir names : Storing σ _).Ends store inv fun found after => inv after ∧ ∀ child ∈ found, Found child := by
  induction names generalizing store with
  | nil => exact .pure ⟨hs,by simp⟩
  | cons name rest ih =>
    have hrest (name : String) (hn : name ∈ rest) := hnames name (by simp [hn])
    have htemporary := temporary_join hd (hnames name (by simp))
    have hinfo : (Storage.info (Path.join dir name) : Storing σ (Option Node)).Ends store inv fun found after =>
        inv after ∧ ∀ node, found = some node → Path.segments node.path = Path.segments (Path.join dir name) := by
      refine (h.info _).ends hs fun found after he node hf => ?_
      subst hf
      exact h.placed hs he
    refine hinfo.bind fun found after ⟨hs,hplaced⟩ => ?_
    cases found with
    | none => exact ih hrest hs
    | some node =>
      refine (ih hrest hs).bind fun found after hrest => .pure ⟨hrest.1,?_⟩
      exact List.forall_mem_cons.mpr ⟨⟨htemporary,hplaced node rfl⟩,hrest.2⟩

private theorem descend (h : KeepsTemporary inv) (fuel : Nat) {stack : List String} (hstack : ∀ dir ∈ stack, Inside dir)
    {found : List Node} (hfound : ∀ node ∈ found, View.Temporary (Path.segments node.path)) {store : σ} (hs : inv store) :
    (Storage.descend fuel stack found : Storing σ _).Ends store inv fun found after =>
      inv after ∧ ∀ node ∈ found, View.Temporary (Path.segments node.path) := by
  induction fuel generalizing stack found store with
  | zero => exact .pure ⟨hs,hfound⟩
  | succ fuel ih =>
    cases stack with
    | nil => exact .pure ⟨hs,hfound⟩
    | cons dir stack =>
      refine ((h.list dir).ends hs fun _ _ he => h.named hs he).bind fun names after ⟨hs,hnames⟩ => ?_
      refine (h.lookUp (hstack dir (by simp)) hnames hs).bind fun children after ⟨hs,hchildren⟩ => ?_
      refine ih (fun inner hi => ?_) (fun node hn => ?_) hs
      · rcases List.mem_append.mp hi with hi | hi
        · simp only [List.mem_reverse, List.mem_map, List.mem_filter] at hi
          obtain ⟨child,⟨hc,_⟩,rfl⟩ := hi
          obtain ⟨more,_,hm⟩ := (hchildren child hc).1
          exact ⟨more,hm⟩
        · exact hstack inner (by simp [hi])
      · rcases List.mem_append.mp hn with hn | hn
        · exact hfound node hn
        · obtain ⟨child,hc,rfl⟩ := List.mem_map.mp hn
          rw [(hchildren child hc).2]
          exact (hchildren child hc).1

private theorem deleteAll (h : KeepsTemporary inv) {nodes : List Node}
    (hnodes : ∀ node ∈ nodes, View.Temporary (Path.segments node.path)) (done : CleanupStats) :
    Preserves inv (Storage.deleteAll nodes done : Storing σ CleanupStats) := by
  induction nodes generalizing done with
  | nil => exact .pure _
  | cons node rest ih =>
    have hrest (node : Node) (hn : node ∈ rest) := hnodes node (by simp [hn])
    exact (h.delete _ (hnodes node (by simp))).bind fun _ => .ite (ih hrest _) (ih hrest _)

theorem cleanupByDelete (h : KeepsTemporary inv) : Preserves inv (Storage.cleanupByDelete : Storing σ CleanupStats) := by
  have hstack : ∀ dir ∈ [tempDir], Inside dir := by
    simp only [List.mem_singleton, forall_eq]
    exact ⟨[],by decide⟩
  have hfound (store : σ) (hs : inv store) : (Storage.tempDescendants : Storing σ (List Node)).Ends store inv fun nodes after =>
      inv after ∧ ∀ node ∈ nodes, View.Temporary (Path.segments node.path) := by
    refine .get_bind ((h.descend _ hstack (by simp) hs).bind fun found after hf => .pure ⟨hf.1,fun node hn => ?_⟩)
    exact hf.2 node (List.mem_mergeSort.mp hn)
  refine .of_ends fun store hs => (hfound store hs).bind fun nodes after hf => ?_
  exact ((h.deleteAll hf.2 _).ends hf.1 fun _ _ _ => trivial).mono (fun _ h => h) fun _ _ h => h.1

end KeepsTemporary
end VirtualShell.Storage
