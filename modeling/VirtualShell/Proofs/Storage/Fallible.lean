import VirtualShell.Proofs.Storage.Contained

/-!
Stores whose calls may fail. A call that answers is fixed by the view before, and changes what a reader finds at its
own path at most, times included; a call that fails changes nothing.
-/
namespace VirtualShell
open Storing

namespace View
variable {view : View} {names : List String}

/-- A change is made only where it can be made, and where no policy is in force it is made whenever it can be. -/
structure Changes (view : View) (free : Bool) (can : Prop) (changed : View) (done : Bool) (after : View) : Prop where
  can_of_done : done = true → can
  done_of_can : free = true → can → done = true
  after_eq : after = if done then changed else view

namespace Changes
variable {free done : Bool} {can : Prop} {changed after : View}

theorem refused (h : free = true → ¬ can) : view.Changes free can changed false view :=
  ⟨nofun,fun hf hc => absurd hc (h hf),rfl⟩

theorem of_iff (hdone : done = true ↔ can) (hafter : after = if done then changed else view) :
    view.Changes free can changed done after :=
  ⟨hdone.mp,fun _ => hdone.mpr,hafter⟩

end Changes

theorem content?_eq_some_iff {content : String} : view.content? names = some content ↔ view names = some (.file content) := by
  rcases h : view names with _ | _ | old <;> simp [content?, Item.content?, h]

/-- What is at a place is told by the node and the content that are found there. -/
theorem eq_of_node?_of_content? {other : View} (hnode : view.node? names = other.node? names)
    (hcontent : view.content? names = other.content? names) : view names = other names := by
  have hdir := congrArg (Option.map Node.isDir) hnode
  simp only [node?, content?, Option.map_map] at hdir hcontent
  rcases hv : view names with _ | _ | content <;> rcases ho : other names with _ | _ | content' <;>
    simp_all [Function.comp_def, node, Item.isDir, Item.content?]

end View

/-! ### What is found in a store -/

/-- Where a store is used: from which working directory, and whether without a policy. -/
structure Setting where
  cwd : String
  free : Bool

/-- A store in which a reader finds a tree. -/
class Legible (σ : Type) where
  Intact : σ → Prop
  shown : σ → View
  sights : String → σ → Sight
  setting : σ → Setting
  /-- Whether calls may fail. -/
  MayFail : Prop
  wellFormed {s : σ} : Intact s → (shown s).WellFormed
  sights_eq {s : σ} (path : String) : Intact s → ∃ node, node.map Node.untimed = (shown s).node? (Path.segments path) ∧
    sights path s = (.ok node, .ok ((shown s).content? (Path.segments path)))

open Legible

/-- A node is found where something stands. -/
theorem Legible.exists_node_iff {σ : Type} [Legible σ] {s : σ} (hs : Intact s) {path : String} :
    (∃ node, (sights path s).1 = .ok (some node)) ↔ (shown s (Path.segments path)).isSome := by
  obtain ⟨node,hnode,hsight⟩ := sights_eq path hs
  have hsome : node.isSome = (shown s (Path.segments path)).isSome := by
    have hmap := congrArg Option.isSome hnode
    rwa [View.node?, Option.isSome_map, Option.isSome_map] at hmap
  rw [hsight, ← hsome]
  simp [Option.isSome_iff_exists]

/-- A node that is found tells what stands there. -/
theorem Legible.shown_of_node {σ : Type} [Legible σ] {s : σ} (hs : Intact s) {path : String} {node : Node}
    (h : (sights path s).1 = .ok (some node)) :
    ∃ item, shown s (Path.segments path) = some item ∧ node.isDir = item.isDir := by
  obtain ⟨found,hnode,hsight⟩ := sights_eq path hs
  rw [hsight, Except.ok.injEq] at h
  rw [show found = some node from h] at hnode
  obtain ⟨item,hitem,hn⟩ := Option.map_eq_some_iff.mp hnode.symm
  exact ⟨item,hitem,congrArg Node.isDir hn.symm⟩

/-- What stands somewhere is found as a node. -/
theorem Legible.node_of_shown {σ : Type} [Legible σ] {s : σ} (hs : Intact s) {path : String} {item : Item}
    (h : shown s (Path.segments path) = some item) :
    ∃ node, (sights path s).1 = .ok (some node) ∧ node.isDir = item.isDir := by
  obtain ⟨node,hnode⟩ := (exists_node_iff hs).mpr (Option.isSome_of_eq_some h)
  obtain ⟨there,hthere,hkind⟩ := shown_of_node hs hnode
  obtain rfl := Option.some.inj (h.symm.trans hthere)
  exact ⟨node,hnode,hkind⟩

/-- What is read is the content of what stands there. -/
theorem Legible.content_eq {σ : Type} [Legible σ] {s : σ} (hs : Intact s) (path : String) :
    (sights path s).2 = .ok ((shown s).content? (Path.segments path)) := by
  obtain ⟨_,_,hsight⟩ := sights_eq path hs
  rw [hsight]

/-- Nothing is found where nothing stands. -/
theorem Legible.sights_of_none {σ : Type} [Legible σ] {s : σ} (hs : Intact s) {path : String}
    (h : shown s (Path.segments path) = none) : sights path s = (.ok none, .ok none) := by
  obtain ⟨node,hnode,hsight⟩ := sights_eq path hs
  rw [View.node?, h, Option.map_none, Option.map_eq_none_iff] at hnode
  rw [hsight, hnode, View.content?, h, Option.bind_none]

/-- Where the same is found, the same stands. -/
theorem Legible.shown_eq {σ : Type} [Legible σ] {s t : σ} (hs : Intact s) (ht : Intact t) {path : String}
    (h : sights path t = sights path s) : shown t (Path.segments path) = shown s (Path.segments path) := by
  obtain ⟨node,hnode,hsight⟩ := sights_eq path hs
  obtain ⟨node',hnode',hsight'⟩ := sights_eq path ht
  rw [hsight, hsight', Prod.mk.injEq, Except.ok.injEq, Except.ok.injEq] at h
  exact View.eq_of_node?_of_content? (by rw [← hnode, ← hnode', h.1]) h.2

/-- The store is still intact, and a reader may find something else at the given places only. -/
structure Altered {σ : Type} [Legible σ] (places : Set (List String)) (s t : σ) : Prop where
  intact : Intact t
  setting_eq : setting t = setting s
  elsewhere : ∀ path, Path.segments path ∉ places → sights path t = sights path s

namespace Altered
variable {σ : Type} [Legible σ] {places more : Set (List String)} {s t u : σ}

theorem refl (h : Intact s) : Altered places s s := ⟨h,rfl,fun _ _ => rfl⟩

theorem trans (h : Altered places s t) (hl : Altered places t u) : Altered places s u :=
  ⟨hl.intact,hl.setting_eq.trans h.setting_eq,fun path hp => (hl.elsewhere path hp).trans (h.elsewhere path hp)⟩

theorem mono (h : Altered places s t) (hsub : places ⊆ more) : Altered more s t :=
  ⟨h.intact,h.setting_eq,fun path hp => h.elsewhere path fun hm => hp (hsub hm)⟩

/-- The same stands elsewhere. -/
theorem shown_eq (h : Altered places s t) (hs : Intact s) {names : List String} (hn : names ∉ places) :
    shown t names = shown s names := by
  by_cases hnamed : Path.Named names
  · have hsegments := Path.segments_ofSegments hnamed
    rw [← hsegments]
    exact Legible.shown_eq hs h.intact (h.elsewhere _ (by rwa [hsegments]))
  · have hnone {v : σ} (hv : Intact v) : shown v names = none := by
      by_contra hsome
      exact hnamed ((wellFormed hv).named names (Option.isSome_iff_ne_none.mpr hsome))
    rw [hnone hs, hnone h.intact]

/-- Where nothing stood and nothing stands, nothing is altered. -/
theorem of_none (h : Altered places s t) (hs : Intact s)
    (hnone : ∀ names ∈ places, names ∉ more → shown s names = none ∧ shown t names = none) : Altered more s t := by
  refine ⟨h.intact,h.setting_eq,fun path hp => ?_⟩
  by_cases hin : Path.segments path ∈ places
  · obtain ⟨hbefore,hafter⟩ := hnone _ hin hp
    rw [sights_of_none hs hbefore, sights_of_none h.intact hafter]
  · exact h.elsewhere path hin

theorem shown_eq_of_empty (h : Altered ∅ s t) (hs : Intact s) : shown t = shown s :=
  funext fun _ => h.shown_eq hs (Set.notMem_empty _)

end Altered

/-! ### Actions that may fail -/

/--
The action fails, if it may, or it answers as wanted of the answer and the view afterwards; in either case it alters
the given places at most.
-/
def Storing.Tries {σ α : Type} [Legible σ] (act : Storing σ α) (places : Set (List String)) (s : σ)
    (wanted : α → View → Prop) : Prop :=
  act.Ends s (fun t => MayFail σ ∧ Altered places s t) fun a t => Altered places s t ∧ wanted a (shown t)

namespace Storing.Tries
variable {σ α β : Type} [Legible σ] {act : Storing σ α} {f : α → Storing σ β} {places more : Set (List String)} {s : σ}
  {P Q : α → View → Prop} {R : β → View → Prop}

theorem of_on {a : α} {t : σ} (he : act.on s = (.ok a, t)) (halt : Altered places s t) (h : P a (shown t)) :
    act.Tries places s P := by
  rw [Tries, Ends, he]
  exact ⟨halt,h⟩

theorem pure {a : α} (hs : Intact s) (h : P a (shown s)) : (Pure.pure a : Storing σ α).Tries places s P :=
  .of_on rfl (.refl hs) h

theorem imp (h : act.Tries places s P) (hpq : ∀ a t, Altered places s t → P a (shown t) → Q a (shown t)) :
    act.Tries places s Q :=
  Ends.mono h (fun _ h => h) fun a t h => ⟨h.1,hpq a t h.1 h.2⟩

theorem mono (h : act.Tries places s P) (hpq : ∀ a view, P a view → Q a view) : act.Tries places s Q :=
  h.imp fun a t _ => hpq a (shown t)

/-- Whatever the action answers, it alters the given places at most. -/
theorem altered (h : act.Tries places s P) : Altered places s (act.on s).2 := by
  rw [Tries, Ends] at h
  cases he : act.on s with
  | mk result t =>
    rw [he] at h
    cases result with
    | error e => exact h.2
    | ok a => exact h.1

theorem ends (h : act.Tries places s P) :
    act.Ends s (fun t => Altered places s t) fun a t => Altered places s t ∧ P a (shown t) :=
  Ends.mono h (fun _ ht => ht.2) fun _ _ h => h

/-- Where calls do not fail the action answers. -/
theorem yields (h : act.Tries places s P) (hno : ¬ MayFail σ) :
    act.Yields s fun a t => Altered places s t ∧ P a (shown t) :=
  Ends.yields h fun _ ht => hno ht.1

/-- What is altered in one way is altered in another, whether the action fails or answers. -/
theorem confine (h : act.Tries places s P) (halt : ∀ t, Altered places s t → Altered more s t) : act.Tries more s P :=
  Ends.mono h (fun t h => ⟨h.1,halt t h.2⟩) fun _ t h => ⟨halt t h.1,h.2⟩

theorem widen (h : act.Tries places s P) (hsub : places ⊆ more) : act.Tries more s P :=
  h.confine fun _ halt => halt.mono hsub

/-- What follows may alter other places. -/
theorem seq {first later : Set (List String)} (h : act.Tries first s P)
    (hf : ∀ a t, Altered first s t → P a (shown t) → (f a).Tries later t R) (hfirst : first ⊆ places)
    (hlater : later ⊆ places) : (act >>= f).Tries places s R := by
  refine Ends.bind (Ends.mono h (fun t ht => ⟨ht.1,ht.2.mono hfirst⟩) fun _ _ h => h) fun a t ⟨halt,hp⟩ => ?_
  refine Ends.mono (hf a t halt hp) ?_ ?_
  · exact fun u hu => ⟨hu.1,(halt.mono hfirst).trans (hu.2.mono hlater)⟩
  · exact fun b u hu => ⟨(halt.mono hfirst).trans (hu.1.mono hlater),hu.2⟩

theorem bind (h : act.Tries places s P) (hf : ∀ a t, Altered places s t → P a (shown t) → (f a).Tries places t R) :
    (act >>= f).Tries places s R :=
  h.seq hf subset_rfl subset_rfl

/-- What follows a look at the store goes on from the same view. -/
theorem look {P : α → Prop} (h : act.Tries ∅ s fun a after => after = shown s ∧ P a) (hs : Intact s)
    (hf : ∀ a t, Altered ∅ s t → shown t = shown s → P a → (f a).Tries places t R) : (act >>= f).Tries places s R :=
  h.seq (fun a t halt hp => hf a t halt (halt.shown_eq_of_empty hs) hp.2) (Set.empty_subset _) subset_rfl

theorem get_bind {f : σ → Storing σ β} (h : (f s).Tries places s R) : (MonadState.get >>= f).Tries places s R := h

/-- A failure that is caught is one that may be. -/
theorem caught (h : act.Tries places s P) : act.caught.Tries places s fun result after =>
    match result with
    | .ok a => P a after
    | .error _ => MayFail σ := by
  rw [Tries, Ends] at h ⊢
  rw [on_caught]
  cases he : act.on s with
  | mk result t =>
    rw [he] at h
    cases result with
    | error e => exact ⟨h.2,h.1⟩
    | ok a => exact h

theorem throw {e : StorageError} (hs : Intact s) (h : MayFail σ) : (MonadExcept.throw e : Storing σ α).Tries places s P :=
  ⟨h,.refl hs⟩

/-- What an action on a part tries, it tries on the whole. -/
theorem lift {τ : Type} [Legible τ] {whole : τ} {acted : Storing τ α} (h : act.Tries places s P) (put : σ → τ)
    (hon : acted.on whole = ((act.on s).1, put (act.on s).2)) (hfail : MayFail σ → MayFail τ)
    (halter : ∀ t, Altered places s t → Altered places whole (put t)) (hshown : ∀ t, shown (put t) = shown t) :
    acted.Tries places whole P := by
  rw [Tries, Ends] at h ⊢
  rw [hon]
  cases he : act.on s with
  | mk result t =>
    rw [he] at h
    cases result with
    | error e => exact ⟨hfail h.1,halter t h.2⟩
    | ok a =>
      refine ⟨halter t h.1,?_⟩
      rw [hshown]
      exact h.2

end Storing.Tries

-- Unfolding an action that is tried would run it on a store that is not known.
attribute [irreducible] Storing.Tries

/-! ### The contract -/

/-- All calls but cleaning up, which may fail, and what they do when they do not. -/
class FallibleNodes (σ : Type) [Storage σ] extends Legible σ where
  length_le_capacity {s : σ} : Intact s → ∀ names : List (List String), names.Nodup →
    (∀ n ∈ names, (shown s n).isSome) → names.length ≤ Storage.capacity s
  setUp {s : σ} (now : Timestamp) : Intact s → (Storage.setUp now).Tries ∅ s fun _ after => after = shown s
  info {s : σ} (path : String) : Intact s → (Storage.info path).Tries ∅ s fun node after =>
    after = shown s ∧ node.map Node.untimed = (shown s).node? (Path.segments path)
  create {s : σ} (node : Node) : Intact s → node.Sized →
    (Storage.create node).Tries {Path.segments node.path} s ((shown s).Creates node)
  list {s : σ} (path : String) : Intact s → (Storage.list path).Tries ∅ s fun names after =>
    after = shown s ∧ (shown s).Lists (Path.segments path) names
  write {s : σ} (now : Timestamp) (path content : String) : Intact s →
    (Storage.write now path content).Tries {Path.segments path} s ((shown s).Writes (Path.segments path) content)
  read {s : σ} (path : String) : Intact s → (Storage.read path).Tries ∅ s fun content after =>
    after = shown s ∧ content = (shown s).content? (Path.segments path)
  delete {s : σ} (path : String) : Intact s →
    (Storage.delete path).Tries {Path.segments path} s ((shown s).Deletes (Path.segments path))
  touch {s : σ} (now : Timestamp) (path : String) : Intact s →
    (Storage.touch now path).Tries {Path.segments path} s ((shown s).Touches (Path.segments path))
  stats {s : σ} : Intact s → (Storage.stats : Storing σ StorageStats).Tries ∅ s fun _ after => after = shown s

/-- All calls. -/
class FallibleStorage (σ : Type) [Storage σ] extends FallibleNodes σ where
  cleanup {s : σ} : Intact s → (Storage.cleanup : Storing σ CleanupStats).Tries {names | View.Temporary names} s
    fun _ after => after = (shown s).cleared

namespace FallibleNodes
variable {σ α : Type} [Storage σ] [FallibleNodes σ]

theorem preserves {act : Storing σ α} {places : σ → Set (List String)} {wanted : σ → α → View → Prop}
    (h : ∀ {s}, Intact s → act.Tries (places s) s (wanted s)) : act.Preserves Intact :=
  fun _ hs => (h hs).altered.intact

/-- What failed or answered leaves the store intact. -/
theorem keeps_intact : Storage.Keeps (Intact : σ → Prop) where
  info path := preserves (info path)
  create node hsized := preserves fun hs => create node hs hsized
  list path := preserves (list path)
  write now path content := preserves (write now path content)
  read path := preserves (read path)
  delete path := preserves (delete path)
  touch now path := preserves (touch now path)
  stats := preserves stats

end FallibleNodes

/-! ### Stores that do not fail -/

section
open Viewed
variable {σ α : Type} [Storage σ] [LawfulNodes σ]

/-- What is found in a store that does not fail is what it shows. -/
abbrev Legible.ofLawful : Legible σ where
  Intact := Sound
  shown := view
  sights path s := (.ok ((view s).node? (Path.segments path)), .ok ((view s).content? (Path.segments path)))
  setting _ := ⟨"/",true⟩
  MayFail := False
  wellFormed := LawfulNodes.wellFormed
  sights_eq _ _ := ⟨_,View.untimed_node? _ _,rfl⟩

private theorem tries_of_meets {act : Storing σ α} {places : Set (List String)} {s : σ} {wanted : α → View → Prop}
    (h : act.Meets s wanted) (helse : ∀ a after, wanted a after → ∀ names ∉ places, after names = view s names) :
    let _ : Legible σ := .ofLawful
    act.Tries places s wanted := by
  intro _
  obtain ⟨a,after,he,hsound,hw⟩ := h
  refine .of_on he ⟨hsound,rfl,fun path hp => ?_⟩ hw
  have hsame : view after (Path.segments path) = view s (Path.segments path) := helse a _ hw _ hp
  change (_, _) = (_, _)
  rw [View.node?, View.node?, View.content?, View.content?, hsame]

/-- A store that does not fail is one that may. -/
abbrev FallibleNodes.ofLawful : FallibleNodes σ where
  toLegible := .ofLawful
  length_le_capacity := LawfulNodes.length_le_capacity
  setUp now hs := tries_of_meets ((LawfulNodes.setUp now hs).mono fun _ _ h => ⟨h.1,h.2.2⟩) fun _ _ h _ _ => congrFun h _
  info path hs := tries_of_meets (LawfulNodes.info path hs) fun _ _ h _ _ => congrFun h.1 _
  create node hs hsized := tries_of_meets (LawfulNodes.create node hs hsized) fun _ _ h _ hn => h.eq_elsewhere hn
  list path hs := tries_of_meets (LawfulNodes.list path hs) fun _ _ h _ _ => congrFun h.1 _
  write now path content hs := tries_of_meets (LawfulNodes.write now path content hs) fun _ _ h _ hn => h.eq_elsewhere hn
  read path hs := tries_of_meets (LawfulNodes.read path hs) fun _ _ h _ _ => congrFun h.1 _
  delete path hs := tries_of_meets (LawfulNodes.delete path hs) fun _ _ h _ hn => h.eq_elsewhere hn
  touch now path hs := tries_of_meets (LawfulNodes.touch now path hs) fun _ _ h _ _ => congrFun h.2 _
  stats hs := tries_of_meets ((LawfulNodes.stats hs).mono fun _ _ h => ⟨h.1,h.2.1⟩) fun _ _ h _ _ => congrFun h _

end

/-! ### Stores that can be asked for -/

namespace Provider

/-- No call of a sound store fails. -/
theorem steady_eq {store : Provider} (h : Viewed.Sound store) : Sighted.steady store = store := by
  cases store with
  | tree store => rfl
  | table store => rfl
  | objects store =>
    obtain ⟨objects,hholds,_⟩ := h
    have hfails : store.client.fails = fun _ _ => false := (Objects.holds_iff.mp hholds).client.fails_eq
    obtain ⟨⟨_,_,_⟩,_,_⟩ := store
    cases hfails
    rfl
  | faulty store =>
    have hfails : store.fails = fun _ _ => false := funext fun n => funext fun call => h.2 n call
    obtain ⟨_,_,_,_⟩ := store
    cases hfails
    rfl

theorem inOrder_of_sound {store : Provider} (h : Viewed.Sound store) : Sighted.InOrder store := by
  have htree {tree : Tree} (h : Viewed.Sound tree) : Sighted.InOrder tree := by
    obtain ⟨root,hr,hs⟩ := h
    rintro other ho
    obtain rfl := Option.some.inj (hr.symm.trans ho)
    exact hs.rising
  cases store with
  | tree store => exact htree h
  | table store => trivial
  | objects store => trivial
  | faulty store => exact htree h.1

instance : Legible Provider where
  Intact := Viewed.Sound
  shown := Viewed.view
  sights := Storage.sight
  setting _ := ⟨"/",true⟩
  MayFail := False
  wellFormed := LawfulNodes.wellFormed
  sights_eq path hs := by
    obtain ⟨node,_,hinfo,_,_,hnode⟩ := LawfulNodes.info path hs
    obtain ⟨_,_,hread,_,_,rfl⟩ := LawfulNodes.read path hs
    refine ⟨node,hnode,?_⟩
    rw [Storage.sight, steady_eq hs, hinfo, hread]

private theorem tries {α : Type} {act : Storing Provider α} {places : Set (List String)} {store : Provider}
    {wanted : α → View → Prop} (hmeets : act.Meets store wanted)
    (hframe : ∀ path, Path.segments path ∉ places → Storage.sight path (act.on store).2 = Storage.sight path store) :
    act.Tries places store wanted := by
  obtain ⟨a,after,he,hsound,hw⟩ := hmeets
  rw [he] at hframe
  exact .of_on he ⟨hsound,rfl,hframe⟩ hw

private theorem framed {α : Type} {act : Storing Provider α} {places : Set (List String)} {store : Provider}
    (hs : Viewed.Sound store) (h : act.Confined places) (path : String) (hpath : Path.segments path ∉ places) :
    Storage.sight path (act.on store).2 = Storage.sight path store :=
  (h store (inOrder_of_sound hs)).2 path hpath

instance : FallibleStorage Provider where
  length_le_capacity := LawfulNodes.length_le_capacity
  setUp now hs := tries ((LawfulNodes.setUp now hs).mono fun _ _ h => ⟨h.1,h.2.2⟩) fun path _ => Contained.setUp now path hs
  info path hs := tries (LawfulNodes.info path hs) (framed hs (Framed.info path))
  create node hs hsized := tries (LawfulNodes.create node hs hsized) (framed hs (Framed.create node))
  list path hs := tries (LawfulNodes.list path hs) (framed hs (Framed.list path))
  write now path content hs := tries (LawfulNodes.write now path content hs) (framed hs (Framed.write now path content))
  read path hs := tries (LawfulNodes.read path hs) (framed hs (Framed.read path))
  delete path hs := tries (LawfulNodes.delete path hs) (framed hs (Framed.delete path))
  touch now path hs := tries (LawfulNodes.touch now path hs) (framed hs (Framed.touch now path))
  stats hs := tries ((LawfulNodes.stats hs).mono fun _ _ h => ⟨h.1,h.2.1⟩) (framed hs Framed.stats)
  cleanup hs := tries ((LawfulStorage.cleanup hs).mono fun _ _ h => ⟨h.1,h.2.1⟩) fun _ hpath => Contained.cleanup hs hpath

end Provider

namespace Faulty
variable {σ : Type}

instance [Legible σ] : Legible (Faulty σ) where
  Intact faulty := Intact faulty.store
  shown faulty := shown faulty.store
  sights path faulty := sights path faulty.store
  setting faulty := setting faulty.store
  MayFail := True
  wellFormed hs := wellFormed hs
  sights_eq path hs := sights_eq path hs

private theorem attempt_tries [Legible σ] {α : Type} {call : Call} {act : Storing σ α} {places : Set (List String)}
    {faulty : Faulty σ} {wanted : α → View → Prop} (hs : Intact faulty) (h : act.Tries places faulty.store wanted) :
    (attempt call act).Tries places faulty wanted := by
  rw [Storing.Tries, Ends, on_attempt]
  by_cases hf : faulty.fails faulty.calls call = true
  · rw [if_pos hf]
    exact ⟨trivial,hs,rfl,fun _ _ => rfl⟩
  · rw [if_neg hf]
    rw [Storing.Tries, Ends] at h
    cases he : act.on faulty.store with
    | mk result after =>
      rw [he] at h
      cases result with
      | error e => exact ⟨trivial,h.2.intact,h.2.setting_eq,h.2.elsewhere⟩
      | ok a => exact ⟨⟨h.1.intact,h.1.setting_eq,h.1.elsewhere⟩,h.2⟩

instance [Storage σ] [FallibleNodes σ] : FallibleNodes (Faulty σ) where
  length_le_capacity hs := FallibleNodes.length_le_capacity (σ := σ) hs
  setUp now hs := attempt_tries hs (FallibleNodes.setUp now hs)
  info path hs := attempt_tries hs (FallibleNodes.info path hs)
  create node hs hsized := attempt_tries hs (FallibleNodes.create node hs hsized)
  list path hs := attempt_tries hs (FallibleNodes.list path hs)
  write now path content hs := attempt_tries hs (FallibleNodes.write now path content hs)
  read path hs := attempt_tries hs (FallibleNodes.read path hs)
  delete path hs := attempt_tries hs (FallibleNodes.delete path hs)
  touch now path hs := attempt_tries hs (FallibleNodes.touch now path hs)
  stats hs := attempt_tries hs (FallibleNodes.stats hs)

instance [Storage σ] [FallibleStorage σ] : FallibleStorage (Faulty σ) where
  cleanup hs := attempt_tries hs (FallibleStorage.cleanup hs)

/-- A store that works, of which any calls may be made to fail. -/
def Ready (faulty : Faulty Provider) : Prop := Provider.Ready faulty.store

theorem Ready.intact_setUp {faulty after : Faulty Provider} {now : Timestamp} {done : Bool} (h : faulty.Ready)
    (he : (Storage.setUp now).on faulty = (.ok done, after)) : Intact after := by
  have hon : (attempt .setUp (Storage.setUp now)).on faulty = (.ok done, after) := he
  rw [on_attempt] at hon
  split at hon
  · simp at hon
  · obtain ⟨_,rfl⟩ := Prod.mk.inj hon
    exact Provider.Ready.sound_setUp h now

end Faulty
end VirtualShell
