import VirtualShell.Proofs.Storage.ObjectsFrame

/-!
The tree of sidecars in a bucket stays a tree, whatever requests fail. A call makes at most one change of a sidecar,
and that one comes last; so a call that breaks off leaves the tree as it was, and at most a body that nobody reads.
-/
namespace VirtualShell

/-! ### Runs of a store -/

namespace Storage

/-- The calls of a store. -/
inductive Operation where
  | setUp
  | info (path : String)
  | create (node : Node)
  | list (path : String)
  | write (path content : String)
  | read (path : String)
  | delete (path : String)
  | touch (path : String)
  | stats
  | cleanup

namespace Operation
variable {σ : Type} [Storage σ]

def run (now : Timestamp) : Operation → Storing σ Unit
  | setUp => (fun _ => ()) <$> Storage.setUp now
  | info path => (fun _ => ()) <$> Storage.info path
  | create node => (fun _ => ()) <$> Storage.create node
  | list path => (fun _ => ()) <$> Storage.list path
  | write path content => (fun _ => ()) <$> Storage.write now path content
  | read path => (fun _ => ()) <$> Storage.read path
  | delete path => (fun _ => ()) <$> Storage.delete path
  | touch path => (fun _ => ()) <$> Storage.touch now path
  | stats => (fun _ => ()) <$> Storage.stats
  | cleanup => (fun _ => ()) <$> Storage.cleanup

/-- The store after a call, whatever the call answers. -/
def after (now : Timestamp) (call : Operation) (store : σ) : σ := ((call.run now).on store).2

/-- The store after calls, each at its own time. -/
def play (calls : List (Timestamp × Operation)) (store : σ) : σ :=
  calls.foldl (fun store call => call.2.after call.1 store) store

/-- Where a call on a store that is set up may change something. -/
def places : Operation → Set (List String)
  | create node => {Path.segments node.path}
  | write path _ => {Path.segments path}
  | delete path => {Path.segments path}
  | touch path => {Path.segments path}
  | cleanup => {names | View.Temporary names}
  | _ => ∅

/-- A call changes something only at its places; this is left open for setting up and for cleaning up. -/
theorem run_confined [Framed σ] (now : Timestamp) {call : Operation} (hsetUp : call ≠ .setUp) (hcleanup : call ≠ .cleanup) :
    (call.run now : Storing σ Unit).Confined call.places := by
  cases call with
  | setUp => exact absurd rfl hsetUp
  | info path => exact (Framed.info path).map _
  | create node => exact (Framed.create node).map _
  | list path => exact (Framed.list path).map _
  | write path content => exact (Framed.write now path content).map _
  | read path => exact (Framed.read path).map _
  | delete path => exact (Framed.delete path).map _
  | touch path => exact (Framed.touch now path).map _
  | stats => exact Framed.stats.map _
  | cleanup => exact absurd rfl hcleanup

theorem play_preserves {inv : σ → Prop} (h : ∀ now call, (run now call : Storing σ Unit).Preserves inv)
    (calls : List (Timestamp × Operation)) {store : σ} (hs : inv store) : inv (play calls store) := by
  induction calls generalizing store with
  | nil => exact hs
  | cons call calls ih => exact ih (h call.1 call.2 store hs)

end Operation
end Storage

namespace Objects
open Storing

variable {bucket keyPrefix : String} {objects : Keyed ByteArray} {names : List String} {rooted : Prop}

/-! ### Trees of sidecars -/

/-- A directory stands at a chain of names. -/
def DirAt (keyPrefix : String) (objects : Keyed ByteArray) (names : List String) : Prop :=
  ∃ node, nodeAt keyPrefix objects names = some node ∧ node.isDir = true

/-- The sidecars of a bucket make a tree, which has its root if it is to have one. -/
structure Planted (keyPrefix : String) (rooted : Prop) (objects : Keyed ByteArray) : Prop where
  tidy : Tidy keyPrefix objects
  ground : rooted → DirAt keyPrefix objects []
  root : ∀ node, nodeAt keyPrefix objects [] = some node → node.isDir = true
  placed : ∀ names node, nodeAt keyPrefix objects names = some node → node.path = Path.ofSegments names
  parent : ∀ dir name, (nodeAt keyPrefix objects (dir ++ [name])).isSome → DirAt keyPrefix objects dir

namespace Planted

theorem bare (h : Tidy keyPrefix objects) (hbare : ∀ names, nodeAt keyPrefix objects names = none) :
    Planted keyPrefix False objects where
  tidy := h
  ground := False.elim
  root _ hn := by simp [hbare] at hn
  placed _ _ hn := by simp [hbare] at hn
  parent _ _ hs := by simp [hbare] at hs

/-- Bodies of files are no matter of the tree. -/
theorem of_same (h : Planted keyPrefix rooted objects) {after : Keyed ByteArray} (ht : Tidy keyPrefix after)
    (hnode : ∀ other, nodeAt keyPrefix after other = nodeAt keyPrefix objects other) : Planted keyPrefix rooted after where
  tidy := ht
  ground hr := by
    rw [DirAt, hnode]
    exact h.ground hr
  root := by
    rw [hnode]
    exact h.root
  placed other := by
    rw [hnode]
    exact h.placed other
  parent dir name := by
    rw [hnode, DirAt, hnode]
    exact h.parent dir name

/-- A tree stays one when one node is changed: a directory that others stand in stays a directory. -/
theorem update (h : Planted keyPrefix rooted objects) {after : Keyed ByteArray} (ht : Tidy keyPrefix after) {new : Option Node}
    (hnode : ∀ other, nodeAt keyPrefix after other = if other = names then new else nodeAt keyPrefix objects other)
    (hplaced : ∀ node, new = some node → node.path = Path.ofSegments names)
    (hroot : names = [] → ∀ node, new = some node → node.isDir = true)
    (hparent : ∀ dir name, names = dir ++ [name] → new.isSome → DirAt keyPrefix objects dir)
    (hdir : DirAt keyPrefix objects names → (∃ node, new = some node ∧ node.isDir = true) ∨
      names ≠ [] ∧ ∀ name, nodeAt keyPrefix objects (names ++ [name]) = none) : Planted keyPrefix rooted after := by
  have hother {other : List String} (ho : other ≠ names) : nodeAt keyPrefix after other = nodeAt keyPrefix objects other := by
    rw [hnode, if_neg ho]
  have hsame : nodeAt keyPrefix after names = new := by rw [hnode, if_pos rfl]
  refine ⟨ht,fun hr => ?_,fun node hn => ?_,fun other node hn => ?_,fun dir name hs => ?_⟩
  · by_cases he : names = []
    · obtain hnew | ⟨hne,_⟩ := hdir (he ▸ h.ground hr)
      · subst he
        rwa [DirAt, hsame]
      · exact absurd he hne
    · rw [DirAt, hother (Ne.symm he)]
      exact h.ground hr
  · by_cases he : names = []
    · subst he
      exact hroot rfl node (hsame.symm.trans hn)
    · exact h.root node (hother (Ne.symm he) ▸ hn)
  · by_cases he : other = names
    · subst he
      exact hplaced node (hsame.symm.trans hn)
    · exact h.placed other node (hother he ▸ hn)
  · have hbefore : DirAt keyPrefix objects dir := by
      by_cases he : dir ++ [name] = names
      · subst he
        exact hparent dir name rfl (hsame ▸ hs)
      · exact h.parent dir name (hother he ▸ hs)
    by_cases he : dir = names
    · subst he
      obtain hnew | ⟨_,hnone⟩ := hdir hbefore
      · rwa [DirAt, hsame]
      · rw [hother (by simp), hnone name] at hs
        simp at hs
    · rwa [DirAt, hother he]

theorem insertText (h : Planted keyPrefix rooted objects) (names : List String) (text : String) :
    Planted keyPrefix rooted (insertText keyPrefix names text objects) :=
  h.of_same (h.tidy.insertText names text) fun _ => nodeAt_insertText text _

theorem eraseText (h : Planted keyPrefix rooted objects) (names : List String) :
    Planted keyPrefix rooted (eraseText keyPrefix names objects) :=
  h.of_same (h.tidy.erase _) fun _ => nodeAt_eraseText h.tidy.rising _

/-- A node may be written anew in its place. -/
theorem rewrite (h : Planted keyPrefix rooted objects) {node new : Node} (hn : nodeAt keyPrefix objects names = some node)
    (hpath : new.path = node.path) (hdir : new.isDir = node.isDir) :
    Planted keyPrefix rooted (insertNode keyPrefix names new objects) := by
  have hnamed := named_of_nodeAt hn
  refine h.update (h.tidy.insertNode hnamed new) (nodeAt_insertNode hnamed new) ?_ ?_ ?_ ?_
  · intro other ho
    obtain rfl := Option.some.inj ho
    rw [hpath, h.placed names node hn]
  · intro he other ho
    obtain rfl := Option.some.inj ho
    rw [hdir, h.root node (he ▸ hn)]
  · intro dir name he _
    exact h.parent dir name (by rw [← he, hn]; rfl)
  · rintro ⟨other,ho,hd⟩
    obtain rfl := Option.some.inj (hn.symm.trans ho)
    exact .inl ⟨new,rfl,hdir.trans hd⟩

theorem create (h : Planted keyPrefix rooted objects) {node : Node} (hc : Creatable keyPrefix objects node) :
    Planted keyPrefix rooted (insertNode keyPrefix node.target (created node) objects) := by
  obtain ⟨hname,hfree,hparent⟩ := hc
  have hnamed : Path.Named node.target := Path.named_concat.mpr ⟨Path.named_segments _,hname⟩
  refine h.update (h.tidy.insertNode hnamed _) (nodeAt_insertNode hnamed _) ?_ ?_ ?_ ?_
  · intro other ho
    obtain rfl := Option.some.inj ho
    exact path_created hname
  · intro he
    simp [Node.target] at he
  · intro dir name he _
    rw [Node.target] at he
    rwa [← List.append_inj_left' he rfl]
  · rintro ⟨other,ho,_⟩
    simp [hfree] at ho

theorem delete (h : Planted keyPrefix rooted objects) {node : Node} (hr : Removable keyPrefix objects names node) :
    Planted keyPrefix rooted (eraseNode keyPrefix names objects) := by
  obtain ⟨hne,hn,hempty⟩ := hr
  have hnamed := named_of_nodeAt hn
  refine h.update (h.tidy.erase _) (nodeAt_eraseNode h.tidy.rising hnamed) (by simp) (by simp) (by simp) ?_
  rintro ⟨other,ho,hd⟩
  obtain rfl := Option.some.inj (hn.symm.trans ho)
  refine .inr ⟨hne,fun name => ?_⟩
  have hno := (mem_namesIn h.tidy hnamed name).not
  rw [hempty hd] at hno
  simpa using hno

/-- The root, once it is there, is ground for the rest. -/
theorem settle (h : Planted keyPrefix rooted objects) (now : Timestamp) :
    Planted keyPrefix True (if (nodeAt keyPrefix objects []).isSome then objects
      else insertNode keyPrefix [] (Node.root now) objects) := by
  cases hn : nodeAt keyPrefix objects [] with
  | some root => exact { h with ground := fun _ => ⟨root,hn,h.root root hn⟩ }
  | none =>
    have hnode : ∀ other, nodeAt keyPrefix (insertNode keyPrefix [] (Node.root now) objects) other =
        if other = [] then some (Node.root now) else nodeAt keyPrefix objects other :=
      nodeAt_insertNode Path.named_nil (Node.root now)
    have hplanted : Planted keyPrefix rooted (insertNode keyPrefix [] (Node.root now) objects) := by
      refine h.update (h.tidy.insertNode Path.named_nil _) hnode ?_ ?_ (by simp) ?_
      · intro node hs
        obtain rfl := Option.some.inj hs
        rfl
      · intro _ node hs
        obtain rfl := Option.some.inj hs
        rfl
      · rintro ⟨other,ho,_⟩
        simp [hn] at ho
    rw [if_neg (by simp)]
    exact { hplanted with ground := fun _ => ⟨Node.root now,by rw [hnode, if_pos rfl],rfl⟩ }

end Planted

theorem dirAt_iff {names : List String} : DirAt keyPrefix objects names ↔ viewOf keyPrefix objects names = some .dir := by
  cases hn : nodeAt keyPrefix objects names with
  | none => simp [DirAt, viewOf, hn]
  | some node => rw [← isDir_iff hn, DirAt, hn]; simp

/-- The sidecars of a sound bucket make a tree. -/
theorem SoundObjects.planted (h : SoundObjects keyPrefix objects) : Planted keyPrefix True objects where
  tidy := h.tidy
  ground _ := dirAt_iff.mpr h.wellFormed.root
  root node hn := (isDir_iff hn).mpr h.wellFormed.root
  placed names node hn := Node.path_of_untimed (h.placed names node hn) (named_of_nodeAt hn)
  parent dir name hs := dirAt_iff.mpr (h.wellFormed.parent dir name (by rwa [isSome_viewOf]))

/-! ### Calls on a bucket with a tree -/

variable {fails : Nat → Request → Bool} {store : Objects}

/-- The store has its bucket, with a tree of sidecars in it. -/
def Stands (fails : Nat → Request → Bool) (bucket keyPrefix : String) (rooted : Prop) (store : Objects) : Prop :=
  ∃ objects, Stocks fails bucket keyPrefix objects store ∧ Planted keyPrefix rooted objects

private theorem creatable_insertText {node : Node} (h : Creatable keyPrefix objects node) (names : List String) (text : String) :
    Creatable keyPrefix (insertText keyPrefix names text objects) node := by
  obtain ⟨hname,hfree,parent,hparent,hdir⟩ := h
  exact ⟨hname,by rwa [nodeAt_insertText],parent,by rwa [nodeAt_insertText],hdir⟩

theorem stands_load (path : String) : (load (Path.normalize path)).Preserves (Stands fails bucket keyPrefix rooted) := by
  refine .of_ends fun store ⟨objects,hs,hp⟩ => ?_
  rw [Path.normalize_eq]
  exact (load_ends hs (Path.named_segments path)).mono (fun _ h => ⟨objects,h.1,hp⟩) fun _ _ h => ⟨objects,h.2,hp⟩

theorem stands_list (path : String) : (listPath path).Preserves (Stands fails bucket keyPrefix rooted) :=
  .of_ends fun _ ⟨objects,hs,hp⟩ => (list_ends hs path).mono (fun _ h => ⟨objects,h.1,hp⟩) fun _ _ h => ⟨objects,h.2,hp⟩

theorem stands_read (path : String) : (readPath path).Preserves (Stands fails bucket keyPrefix rooted) :=
  .of_ends fun _ ⟨objects,hs,hp⟩ => (read_ends hs path).mono (fun _ h => ⟨objects,h.1,hp⟩) fun _ _ h => ⟨objects,h.2,hp⟩

theorem stands_stats : statsOf.Preserves (Stands fails bucket keyPrefix rooted) :=
  .of_ends fun _ ⟨objects,hs,hp⟩ => (stats_ends hs).mono (fun _ h => ⟨objects,h.1,hp⟩) fun _ _ h => ⟨objects,h.2,hp⟩

theorem stands_create (node : Node) : (createNode node).Preserves (Stands fails bucket keyPrefix rooted) := by
  refine .of_ends fun store ⟨objects,hs,hp⟩ => (create_ends hs node).mono ?_ ?_
  · rintro after (h | ⟨_,h,_⟩)
    · exact ⟨objects,h.1,hp⟩
    · exact ⟨_,h,hp.insertText _ _⟩
  · rintro done after (⟨_,_,h⟩ | ⟨_,hc,h⟩)
    · exact ⟨objects,h,hp⟩
    · refine ⟨_,h,?_⟩
      split
      · exact hp.create hc
      · exact (hp.insertText _ _).create (creatable_insertText hc _ _)

theorem stands_write (now : Timestamp) (path content : String) :
    (writePath now path content).Preserves (Stands fails bucket keyPrefix rooted) := by
  refine .of_ends fun store ⟨objects,hs,hp⟩ => (write_ends hs now path content).mono ?_ ?_
  · rintro after (h | ⟨_,h,_⟩)
    · exact ⟨objects,h.1,hp⟩
    · exact ⟨_,h,hp.insertText _ _⟩
  · rintro done after (⟨_,_,h⟩ | ⟨_,node,⟨hn,_⟩,h⟩)
    · exact ⟨objects,h,hp⟩
    · exact ⟨_,h,(hp.insertText _ _).rewrite ((nodeAt_insertText _ _).trans hn) rfl rfl⟩

theorem stands_touch (now : Timestamp) (path : String) :
    (touchPath now path).Preserves (Stands fails bucket keyPrefix rooted) := by
  refine .of_ends fun store ⟨objects,hs,hp⟩ => (touch_ends hs now path).mono (fun _ h => ⟨objects,h.1,hp⟩) ?_
  rintro done after (⟨_,_,h⟩ | ⟨_,node,hn,h⟩)
  · exact ⟨objects,h,hp⟩
  · exact ⟨_,h,hp.rewrite hn rfl rfl⟩

/-- What a file loses with its body changes nothing in the way of its deletion. -/
private theorem removable_eraseText (h : Planted keyPrefix rooted objects) {node : Node}
    (hr : Removable keyPrefix objects names node) (hfile : node.isDir = false) :
    Removable keyPrefix (eraseText keyPrefix names objects) names node :=
  ⟨hr.1,(nodeAt_eraseText h.tidy.rising _).trans hr.2.1,by simp [hfile]⟩

theorem stands_delete (path : String) : (deletePath path).Preserves (Stands fails bucket keyPrefix rooted) := by
  refine .of_ends fun store ⟨objects,hs,hp⟩ => (delete_ends hs path).mono ?_ ?_
  · rintro after (h | ⟨_,h,_⟩)
    · exact ⟨objects,h.1,hp⟩
    · exact ⟨_,h,hp.eraseText _⟩
  · rintro done after (⟨_,_,h⟩ | ⟨_,node,hr,h⟩)
    · exact ⟨objects,h,hp⟩
    · refine ⟨_,h,?_⟩
      cases hd : node.isDir with
      | true => exact hp.delete hr
      | false => exact (hp.eraseText _).delete (removable_eraseText hp hr hd)

theorem setUp_stocks (hs : Stocks fails bucket keyPrefix objects store) (now : Timestamp) :
    (setUp now).Ends store (Stocks fails bucket keyPrefix objects) fun done after => done = true ∧
      Stocks fails bucket keyPrefix (if (nodeAt keyPrefix objects []).isSome then objects
        else insertNode keyPrefix [] (Node.root now) objects) after := by
  obtain ⟨rfl,rfl,hc⟩ := hs
  have hends := setUp_ends hc.fails_eq now
  rw [hc.found, Option.getD_some] at hends
  refine hends.mono ?_ fun _ _ h => h
  rintro after (h | ⟨hb,hp,⟨hfails,hbuckets⟩,_⟩)
  · exact h.1
  · exact ⟨hb,hp,hfails,by rw [hbuckets, hc.found]⟩

/-! ### Cleaning up -/

theorem placed_load {path : String} {node : Node} {after : Objects} (h : Stands fails bucket keyPrefix rooted store)
    (he : (load (Path.normalize path)).on store = (.ok (some node), after)) : Path.segments node.path = Path.segments path := by
  obtain ⟨objects,hs,hp⟩ := h
  rw [Path.normalize_eq] at he
  obtain ⟨hnode,_⟩ := (load_ends hs (Path.named_segments path)).of_ok he
  rw [hp.placed _ node hnode.symm, Path.segments_ofSegments (Path.named_segments path)]

theorem named_list {path : String} {found : List String} {after : Objects} (h : Stands fails bucket keyPrefix rooted store)
    (he : (listPath path).on store = (.ok found, after)) : ∀ name ∈ found, Path.isName name = true := by
  obtain ⟨objects,hs,hp⟩ := h
  obtain ⟨rfl,_⟩ := (list_ends hs path).of_ok he
  intro name hm
  split at hm
  · obtain ⟨node,hn⟩ := Option.isSome_iff_exists.mp ((mem_namesIn hp.tidy (Path.named_segments path) name).mp hm)
    exact (Path.named_concat.mp (named_of_nodeAt hn)).2
  · simp at hm

private theorem stands_keepsTemporary : @Storage.KeepsTemporary Objects basic (Stands fails bucket keyPrefix rooted) :=
  letI := basic
  { info := fun path => stands_load path
    list := fun path => stands_list path
    delete := fun path _ => stands_delete path
    placed := placed_load
    named := named_list }

open Storage in
theorem stands_run (now : Timestamp) (call : Storage.Operation) : (call.run now).Preserves (Stands fails bucket keyPrefix rooted) := by
  cases call with
  | setUp =>
    refine .map _ (.of_ends fun store ⟨objects,hs,hp⟩ => (setUp_stocks hs now).mono (fun _ h => ⟨objects,h,hp⟩) ?_)
    rintro done after ⟨_,h⟩
    have hplanted := hp.settle now
    exact ⟨_,h,{ hplanted with ground := fun _ => hplanted.ground trivial }⟩
  | info path => exact (stands_load path).map _
  | create node => exact (stands_create node).map _
  | list path => exact (stands_list path).map _
  | write path content => exact (stands_write now path content).map _
  | read path => exact (stands_read path).map _
  | delete path => exact (stands_delete path).map _
  | touch path => exact (stands_touch now path).map _
  | stats => exact stands_stats.map _
  | cleanup => exact (@Storage.KeepsTemporary.cleanupByDelete Objects basic _ stands_keepsTemporary).map _

/-! ### Before the store is set up -/

private theorem lacks_keepsTemporary : @Storage.KeepsTemporary Objects basic (Lacks fails bucket keyPrefix) :=
  letI := basic
  { info := fun _ => .of_never fun _ h => h.load _
    list := fun path => .of_never fun _ h => h.list path
    delete := fun path _ => .of_ends fun _ h => (h.delete path).mono (fun _ h => h) fun _ _ h => h.2
    placed := fun h he => ((h.load _).of_ok he).elim
    named := fun h he => ((h.list _).of_ok he).elim }

open Storage in
/-- Without a bucket nothing can be done but to set the store up. -/
theorem lacks_run (now : Timestamp) {call : Storage.Operation} (hcall : call ≠ .setUp) :
    (call.run now).Preserves (Lacks fails bucket keyPrefix) := by
  cases call with
  | setUp => exact absurd rfl hcall
  | info path => exact .map _ (.of_never fun _ h => h.load _)
  | create node => exact .map _ (.of_ends fun _ h => (h.create node).mono (fun _ h => h) fun _ _ h => h.2)
  | list path => exact .map _ (.of_never fun _ h => h.list path)
  | write path content => exact .map _ (.of_never fun _ h => h.write now path content)
  | read path => exact .map _ (.of_never fun _ h => h.read path)
  | delete path => exact .map _ (.of_ends fun _ h => (h.delete path).mono (fun _ h => h) fun _ _ h => h.2)
  | touch path => exact .map _ (.of_never fun _ h => h.touch now path)
  | stats => exact .map _ (.of_never fun _ h => h.stats)
  | cleanup => exact (@Storage.KeepsTemporary.cleanupByDelete Objects basic _ lacks_keepsTemporary).map _

/-- The store has no bucket yet, or one with a tree that may have no root yet. -/
def Sown (fails : Nat → Request → Bool) (bucket keyPrefix : String) (store : Objects) : Prop :=
  Lacks fails bucket keyPrefix store ∨ Stands fails bucket keyPrefix False store

private theorem Stands.sown (h : Stands fails bucket keyPrefix rooted store) : Sown fails bucket keyPrefix store := by
  obtain ⟨objects,hs,hp⟩ := h
  exact .inr ⟨objects,hs,{ hp with ground := False.elim }⟩

private theorem planted_nil : Planted keyPrefix False [] :=
  .bare ⟨Keyed.rising_nil,by simp⟩ fun names => by simp [nodeAt, Keyed.find?]

/-- Setting up, when it is done, has made the root. -/
theorem setUp_sown (h : Sown fails bucket keyPrefix store) (now : Timestamp) :
    (setUp now).Ends store (Sown fails bucket keyPrefix) fun _ => Stands fails bucket keyPrefix True := by
  obtain h | ⟨objects,hs,hp⟩ := h
  · obtain ⟨rfl,rfl,hfails,hm⟩ := h
    have hends := setUp_ends hfails now
    rw [hm, Option.getD_none] at hends
    refine hends.mono ?_ fun _ _ h => ⟨_,h.2,planted_nil.settle now⟩
    rintro after (h | ⟨hb,hp,⟨hfails,hbuckets⟩,_⟩)
    · exact .inr ⟨[],h.1,planted_nil⟩
    · exact .inl ⟨hb,hp,hfails,by rw [hbuckets, hm]⟩
  · exact (setUp_stocks hs now).mono (fun _ h => .inr ⟨objects,h,hp⟩) fun _ _ h => ⟨_,h.2,hp.settle now⟩

open Storage in
theorem sown_run (now : Timestamp) (call : Storage.Operation) : (call.run now).Preserves (Sown fails bucket keyPrefix) := by
  by_cases hcall : call = .setUp
  · subst hcall
    exact .map _ (.of_ends fun _ h => (setUp_sown h now).mono (fun _ h => h) fun _ _ => Stands.sown)
  · exact (lacks_run now hcall).or (stands_run now call)

/-! ### What is found at the paths -/

/-- Once no request fails any more, what is found at a path is what its sidecar and its body say. -/
theorem sight_of_stocks (h : Stocks fails bucket keyPrefix objects store) (ht : Tidy keyPrefix objects) (path : String) :
    Storage.sight path store = (.ok (nodeAt keyPrefix objects (Path.segments path)),
      .ok ((viewOf keyPrefix objects).content? (Path.segments path))) := by
  have hsteady : Stocks (fun _ _ => false) bucket keyPrefix objects (Sighted.steady store) :=
    ⟨h.bucket_eq,h.prefix_eq,rfl,h.client.found⟩
  have hinfo := load_ends hsteady (Path.named_segments path)
  rw [← Path.normalize_eq] at hinfo
  obtain ⟨_,after,he,hnode,_⟩ := hinfo.yields (not_halts ht)
  obtain ⟨_,after',he',hcontent,_⟩ := (read_ends hsteady path).yields (not_halts ht)
  refine Prod.ext ?_ ?_
  · exact (congrArg Prod.fst he).trans (by rw [hnode])
  · exact (congrArg Prod.fst he').trans (by rw [hcontent])

/-- What the sidecar of a path says. -/
def sidecar? (store : Objects) (path : String) : Option Node :=
  (bodyAt store (store.nodeKey path)).join.bind fun body => (Node.ofJson (Text.decodeLossy body)).toOption

private theorem sidecar?_of_stocks (h : Stocks fails bucket keyPrefix objects store) (hn : Path.Named names) :
    store.sidecar? (Path.ofSegments names) = nodeAt keyPrefix objects names := by
  rw [sidecar?, nodeKey, key_eq, h.bodyAt, h.prefix_eq, Option.join_some, nodeAt, if_pos hn]

/-- The root has a sidecar, and every other key of a sidecar has one under a directory. -/
structure Intact (store : Objects) : Prop where
  root : ∃ node, store.sidecar? "/" = some node ∧ node.isDir = true
  below : ∀ path body, path ≠ "/" → bodyAt store (store.nodeKey path) = some (some body) →
    ∃ node, store.sidecar? path = some node ∧ node.path = path ∧
      ∃ parent, store.sidecar? (Path.split path).1 = some parent ∧ parent.isDir = true

theorem Stands.intact (h : Stands fails bucket keyPrefix True store) : store.Intact := by
  obtain ⟨objects,hs,hp⟩ := h
  constructor
  · rw [← Path.ofSegments_nil, sidecar?_of_stocks hs Path.named_nil]
    exact hp.ground trivial
  · intro path body hpath hbody
    rw [nodeKey, key_eq, hs.bodyAt, hs.prefix_eq, Option.some.injEq] at hbody
    obtain ⟨names,node,hn,hkey,rfl⟩ := hp.tidy.known _ _ (Keyed.mem_of_find? hbody) (starts_with _ _)
    obtain rfl := keyIn_inj.mp hkey
    have hnode := (hp.tidy.nodeAt_eq_some_iff hn).mpr hbody
    refine ⟨node,by rw [sidecar?_of_stocks hs hn, hnode],hp.placed names node hnode,?_⟩
    rcases List.eq_nil_or_concat names with rfl | ⟨dir,name,rfl⟩
    · exact absurd Path.ofSegments_nil hpath
    · rw [List.concat_eq_append] at hn hnode ⊢
      have hsplit : (Path.split (Path.ofSegments (dir ++ [name]))).1 = Path.ofSegments dir := by
        rw [Path.split_eq, Path.segments_ofSegments hn, List.dropLast_concat]
      rw [hsplit, sidecar?_of_stocks hs (Path.named_concat.mp hn).1]
      exact hp.parent dir name (by rw [hnode]; rfl)

private theorem confined_setUp (h : Stands fails bucket keyPrefix True store) (now : Timestamp) (path : String) :
    Storage.sight path ((setUp now).on store).2 = Storage.sight path store := by
  obtain ⟨objects,hs,hp⟩ := h
  obtain ⟨root,hroot,_⟩ := hp.ground trivial
  have hends := setUp_stocks hs now
  rw [hroot, if_pos (by simp)] at hends
  suffices hafter : Stocks fails bucket keyPrefix objects ((setUp now).on store).2 by
    rw [sight_of_stocks hafter hp.tidy, sight_of_stocks hs hp.tidy]
  cases he : (setUp now).on store with
  | mk result after =>
    cases result with
    | error e => exact hends.of_error he
    | ok done => exact (hends.of_ok he).2

/-- The store stands, and what is found at a path is as it was. -/
private def Unmoved (fails : Nat → Request → Bool) (bucket keyPrefix path : String) (before : Sight) (store : Objects) : Prop :=
  Stands fails bucket keyPrefix True store ∧ Sighted.InOrder store ∧ Storage.sight path store = before

private theorem unmoved_keepsTemporary {path : String} (hpath : ¬ View.Temporary (Path.segments path)) (before : Sight) :
    @Storage.KeepsTemporary Objects basic (Unmoved fails bucket keyPrefix path before) := by
  have hinfo (other : String) : (load (Path.normalize other)).Preserves (Unmoved fails bucket keyPrefix path before) :=
    (stands_load other).and ((Framed.info other).preserves (by simp) before)
  have hlist (other : String) : (listPath other).Preserves (Unmoved fails bucket keyPrefix path before) :=
    (stands_list other).and ((Framed.list other).preserves (by simp) before)
  have hdelete (other : String) (ho : View.Temporary (Path.segments other)) :
      (deletePath other).Preserves (Unmoved fails bucket keyPrefix path before) := by
    refine (stands_delete other).and ((Framed.delete other).preserves (fun he => hpath ?_) before)
    rwa [Set.mem_singleton_iff.mp he]
  let := basic
  exact { info := hinfo, list := hlist, delete := hdelete, placed := fun h => placed_load h.1, named := fun h => named_list h.1 }

open Storage in
theorem Stands.confined (h : Stands fails bucket keyPrefix True store) (now : Timestamp) (call : Storage.Operation) {path : String}
    (hpath : Path.segments path ∉ call.places) : sight path (call.after now store) = sight path store := by
  by_cases hsetUp : call = .setUp
  · subst hsetUp
    rw [Storage.Operation.after, Storage.Operation.run, on_map]
    exact confined_setUp h now path
  by_cases hcleanup : call = .cleanup
  · subst hcleanup
    rw [Storage.Operation.after, Storage.Operation.run, on_map]
    have hkeeps : (Storage.cleanup : Storing Objects CleanupStats).Preserves
      (Unmoved fails bucket keyPrefix path (sight path store)) :=
      @KeepsTemporary.cleanupByDelete Objects basic _ (unmoved_keepsTemporary hpath _)
    exact (hkeeps store ⟨h,trivial,rfl⟩).2.2
  · exact (Storage.Operation.run_confined now hsetUp hcleanup store trivial).2 path hpath

/-- A body without a sidecar is not read. -/
private theorem content?_insertText (hn : nodeAt keyPrefix objects names = none) (text : String) {other : List String}
    (hnamed : Path.Named names) (ho : Path.Named other) :
    (viewOf keyPrefix (insertText keyPrefix names text objects)).content? other = (viewOf keyPrefix objects).content? other := by
  rw [View.content?, View.content?, viewOf, viewOf, nodeAt_insertText]
  by_cases he : other = names
  · rw [he, hn]
    rfl
  · rw [textAt_insertText hnamed text ho, if_neg he]

/-- A creation that is not done has left nothing that could be found. -/
theorem Stands.refused (h : Stands fails bucket keyPrefix rooted store) {node : Node}
    (hno : ((createNode node).on store).1 ≠ .ok true) (path : String) :
    Storage.sight path ((createNode node).on store).2 = Storage.sight path store := by
  obtain ⟨objects,hs,hp⟩ := h
  have hends := create_ends hs node
  rw [sight_of_stocks hs hp.tidy]
  cases he : (createNode node).on store with
  | mk result after =>
    rw [he] at hno
    cases result with
    | error e =>
      obtain h | ⟨⟨hc,_⟩,h,_⟩ := hends.of_error he
      · exact sight_of_stocks h.1 hp.tidy path
      · have htarget : Path.Named node.target := Path.named_concat.mpr ⟨Path.named_segments _,hc.1⟩
        rw [sight_of_stocks h (hp.tidy.insertText _ _), nodeAt_insertText,
          content?_insertText hc.2.1 "" htarget (Path.named_segments path)]
    | ok done =>
      obtain ⟨_,_,h⟩ | ⟨rfl,_⟩ := hends.of_ok he
      · exact sight_of_stocks h hp.tidy path
      · exact absurd rfl hno

/-- Where there is no sidecar nothing is found, and nothing is read while requests still fail. -/
theorem Stands.orphaned (h : Stands fails bucket keyPrefix rooted store) {path : String}
    (hnone : bodyAt store (store.nodeKey (Path.normalize path)) = some none) :
    Storage.sight path store = (.ok none, .ok none) ∧
      ∀ content, ((readPath path).on store).1 = .ok content → content = none := by
  obtain ⟨objects,hs,hp⟩ := h
  rw [nodeKey, key_eq, hs.bodyAt, hs.prefix_eq, Option.some.injEq, Path.normalize_eq] at hnone
  have hnode : nodeAt keyPrefix objects (Path.segments path) = none := by
    rw [nodeAt, if_pos (Path.named_segments path), hnone, Option.bind_none]
  have hcontent : (viewOf keyPrefix objects).content? (Path.segments path) = none := by
    rw [View.content?, viewOf, hnode]
    rfl
  refine ⟨by rw [sight_of_stocks hs hp.tidy, hnode, hcontent],fun content hread => ?_⟩
  cases he : (readPath path).on store with
  | mk result after =>
    rw [he] at hread
    subst hread
    rw [((read_ends hs path).of_ok he).1, hcontent]

/-- A file that is created is empty, whatever body was left behind at its path. -/
theorem Stands.created (h : Stands fails bucket keyPrefix rooted store) {node : Node} (hfile : node.isDir = false)
    (hdone : ((createNode node).on store).1 = .ok true) : Storage.sight node.path ((createNode node).on store).2 =
      (.ok (some { node with parentPath := Path.normalize node.parentPath, size := some 0 }), .ok (some "")) := by
  obtain ⟨objects,hs,hp⟩ := h
  cases he : (createNode node).on store with
  | mk result after =>
    rw [he] at hdone
    subst hdone
    obtain ⟨hf,_⟩ | ⟨_,hc,h⟩ := (create_ends hs node).of_ok he
    · simp at hf
    · rw [if_neg (by simp [hfile])] at h
      have htarget : Path.Named node.target := Path.named_concat.mpr ⟨Path.named_segments _,hc.1⟩
      have htidy := (hp.tidy.insertText node.target "").insertNode htarget (Objects.created node)
      have hnode : Objects.created node = { node with parentPath := Path.normalize node.parentPath, size := some 0 } := by
        simp [Objects.created, hfile]
      rw [sight_of_stocks h htidy, node.segments_path hc.1, View.content?, viewOf, nodeAt_insertNode htarget, if_pos rfl,
        textAt_insertNode, textAt_insertText htarget _ htarget, if_pos rfl, ← hnode]
      simp [itemOf, hnode, hfile, Item.content?]

/-! ### All runs -/

/-- No sidecar is in the bucket, if there is one. Other objects may be. -/
def Bare (store : Objects) : Prop :=
  ∀ objects, Keyed.find? store.bucket store.client.buckets = some objects → objects.Rising ∧
    ∀ key body, (key, body) ∈ objects → ¬ (store.nodeKey "").toList <+: key.toList

theorem Bare.sown (h : store.Bare) : Sown store.client.fails store.bucket store.keyPrefix store := by
  cases hb : Keyed.find? store.bucket store.client.buckets with
  | none => exact .inl ⟨rfl,rfl,rfl,hb⟩
  | some objects =>
    obtain ⟨hrising,hno⟩ := h objects hb
    simp only [nodeKey, key_eq] at hno
    have htidy : Tidy store.keyPrefix objects := ⟨hrising,fun key body hm hp => absurd hp (hno key body hm)⟩
    refine .inr ⟨objects,⟨rfl,rfl,rfl,hb⟩,.bare htidy fun names => ?_⟩
    cases hn : nodeAt store.keyPrefix objects names with
    | none => rfl
    | some node =>
      have hfound := (htidy.nodeAt_eq_some_iff (named_of_nodeAt hn)).mp hn
      exact absurd (starts_with _ _) (hno _ _ (Keyed.mem_of_find? hfound))

open Storage in
/-- What holds of a store once it is set up, whichever requests failed and whichever are to fail. -/
structure Withstands (store : Objects) : Prop where
  intact : store.Intact
  /-- A call changes nothing outside its places. -/
  confined (now : Timestamp) (call : Storage.Operation) (path : String) : Path.segments path ∉ call.places →
    sight path (call.after now store) = sight path store
  /-- A creation that is not done changes nothing. -/
  refused (node : Node) (path : String) : ((create node).on store).1 ≠ .ok true →
    sight path ((create node).on store).2 = sight path store
  /-- What has no sidecar is not found and not read. -/
  orphaned (path : String) : bodyAt store (store.nodeKey (Path.normalize path)) = some none →
    sight path store = (.ok none, .ok none) ∧ ∀ content, ((Storage.read path).on store).1 = .ok content → content = none
  /-- A new file is empty. -/
  created (node : Node) : node.isDir = false → ((create node).on store).1 = .ok true →
    sight node.path ((create node).on store).2 =
      (.ok (some { node with parentPath := Path.normalize node.parentPath, size := some 0 }), .ok (some ""))

open Storage in
/-- From the first time on that setting up is done, no pattern of failures harms the tree. -/
theorem withstands_failures {start ready : Objects} (hbare : start.Bare) (early late : List (Timestamp × Storage.Operation))
    (now : Timestamp) (hready : (Storage.setUp now).on (Storage.Operation.play early start) = (.ok true, ready)) :
    (Storage.Operation.play late ready).Withstands := by
  have hsown := Storage.Operation.play_preserves sown_run early hbare.sown
  have hrooted := (setUp_sown hsown now).of_ok hready
  have hstands := Storage.Operation.play_preserves stands_run late hrooted
  exact {
    intact := hstands.intact
    confined := fun now call _ => hstands.confined now call
    refused := fun _ path hno => hstands.refused hno path
    orphaned := fun _ hnone => hstands.orphaned hnone
    created := fun _ hfile hdone => hstands.created hfile hdone }

open Storage in
/-- The first request fails, and so does every later one for the sidecar of `/a` to be put. -/
theorem withstands_refused_sidecar :
    (Storage.Operation.play [(2,.create (Node.file 2 "a" "/")),(3,.cleanup)] ((setUp 1).on (Storage.Operation.play [(0,.setUp)]
      (new { Client.new with fails := fun n request => n = 0 ∨ request = .put "v" "nodes/a" } "v" ""))).2).Withstands :=
  withstands_failures (by intro objects h; simp [new, Client.new, Keyed.find?] at h) _ _ 1
    (Prod.ext (by decide +kernel) rfl)

end Objects
end VirtualShell
