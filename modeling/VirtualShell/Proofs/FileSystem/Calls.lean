import Mathlib.Data.Set.Lattice
import Mathlib.Order.CompletePartialOrder
import VirtualShell.Proofs.FileSystem.Reached
import VirtualShell.Proofs.Storage.Fallible

/-!
The calls of a file system over a store that may fail, under a policy or not. Reading goes past the policy; a change
that the policy denies is not made, and the view stays.
-/
namespace VirtualShell
open Storing Legible
variable {σ α : Type} {places : Set (List String)}

section
variable [Legible σ]

instance : Legible (Guard σ) where
  Intact guard := Intact guard.store
  shown guard := shown guard.store
  sights path guard := sights path guard.store
  setting _ := ⟨"/",false⟩
  MayFail := MayFail σ
  wellFormed hs := wellFormed hs
  sights_eq path hs := sights_eq path hs

instance : Legible (Mount σ) where
  Intact mount := Intact mount.store
  shown mount := shown mount.store
  sights path mount := sights path mount.store
  setting mount := ⟨"/",mount.guard?.isNone⟩
  MayFail := MayFail σ
  wellFormed hs := wellFormed hs
  sights_eq path hs := sights_eq path hs

instance : Legible (FileSystem σ) where
  Intact fs := Intact fs.mount
  shown fs := shown fs.mount
  sights path fs := sights path fs.mount
  setting fs := ⟨fs.cwd,fs.mount.guard?.isNone⟩
  MayFail := MayFail σ
  wellFormed hs := wellFormed hs
  sights_eq path hs := sights_eq path hs

end

/-! ### Under a policy -/

namespace Guard
variable {guard : Guard σ}

theorem beneath_tries [Legible σ] {act : Storing σ α} {wanted : α → View → Prop} (h : act.Tries places guard.store wanted) :
    (beneath act).Tries places guard wanted :=
  h.lift (fun store => { guard with store }) rfl id (fun _ ht => ⟨ht.intact,rfl,ht.elsewhere⟩) fun _ => rfl

/-- A decision shows nowhere but in the log. -/
private theorem settle_tries [Legible σ] (hs : Intact guard) (operation : Operation) (path : String) (denial : Option Denial) :
    (settle operation path denial).Tries places guard fun _ after => after = shown guard := by
  cases denial with
  | none => exact .pure hs rfl
  | some denial => exact .of_on rfl ⟨hs,rfl,fun _ _ => rfl⟩ rfl

/-- What is asked about and then not done changes nothing; what is done is done on the same view. -/
private theorem allows_tries [Legible σ] (hs : Intact guard) (operation : Operation) (path : String) {act : Storing (Guard σ) Bool}
    {can : Prop} {changed : View} (h : ∀ asked, Intact asked → shown asked = shown guard →
      act.Tries places asked ((shown guard).Changes false can changed)) :
    (do
      if !(← allows operation path) then return false
      act).Tries places guard ((shown guard).Changes false can changed) := by
  refine .bind (P := fun _ after => after = shown guard) (.get_bind (settle_tries hs _ _ _)) fun allowed asked halt hview => ?_
  split
  · exact .pure halt.intact (by rw [hview]; exact .refused nofun)
  · exact h asked halt.intact hview

variable [Storage σ] [FallibleNodes σ]

theorem create_tries (hs : Intact guard) {node : Node} (hsized : node.Sized) :
    (Storage.create node).Tries {Path.segments node.path} guard
      ((shown guard).Changes false ((shown guard).CanCreate node) ((shown guard).set node.target (some (.new node.isDir)))) :=
  allows_tries hs .create node.path fun _ hasked hview =>
    (beneath_tries (FallibleNodes.create node hasked hsized)).mono fun _ _ h => hview ▸ .of_iff h.1 h.2

theorem delete_tries (hs : Intact guard) (path : String) :
    (Storage.delete path).Tries {Path.segments path} guard
      ((shown guard).Changes false ((shown guard).CanDelete (Path.segments path)) ((shown guard).set (Path.segments path) none)) :=
  allows_tries hs .delete _ fun _ hasked hview => by
    rw [← Path.segments_normalize path, ← hview]
    exact (beneath_tries (FallibleNodes.delete _ hasked)).mono fun _ _ h => .of_iff h.1 h.2

/-- The size rule only looks at the store, whatever it decides. -/
private theorem settled_tries (hs : Intact guard) (now : Timestamp) (path content : String) (denial : Option Denial) :
    (do
      if !(← settle .write path denial) then return false
      beneath (Storage.write now path content)).Tries {Path.segments path} guard
        ((shown guard).Changes false ((shown guard).IsFile (Path.segments path))
          ((shown guard).set (Path.segments path) (some (.file content)))) := by
  refine .bind (settle_tries hs _ _ _) fun settled after halt hview => ?_
  rw [← hview]
  split
  · exact .pure halt.intact (.refused nofun)
  · exact (beneath_tries (FallibleNodes.write now _ content halt.intact)).mono fun _ _ h => .of_iff h.1 h.2

theorem write_tries (hs : Intact guard) (now : Timestamp) (path content : String) :
    (Guard.write now path content).Tries {Path.segments path} guard
      ((shown guard).Changes false ((shown guard).IsFile (Path.segments path))
        ((shown guard).set (Path.segments path) (some (.file content)))) := by
  rw [← Path.segments_normalize path]
  refine allows_tries hs .write _ fun asked hasked hview => ?_
  refine .look (P := fun _ => True) ((beneath_tries (FallibleNodes.info _ hasked)).mono fun _ _ h => ⟨h.1,trivial⟩) hasked
    fun node found hfound hsame _ => ?_
  have hsame : shown found = shown guard := hsame.trans hview
  have hlater {last : Guard σ} (hlast : Intact last) (hview : shown last = shown found) (denial : Option Denial) :=
    hsame ▸ hview ▸ settled_tries hlast now (Path.normalize path) content denial
  refine .get_bind ?_
  dsimp only
  split
  · refine .look (P := fun _ => True) ((beneath_tries (FallibleNodes.stats hfound.intact)).mono fun _ _ h => ⟨h,trivial⟩)
      hfound.intact fun stats last halt hstats _ => ?_
    exact .bind (P := fun _ after => after = shown last) (.pure halt.intact rfl) fun total final hfinal hpure =>
      hlater hfinal.intact (hpure.trans hstats) _
  · exact .bind (P := fun _ after => after = shown found) (.pure hfound.intact rfl) fun total final hfinal hpure =>
      hlater hfinal.intact hpure _

end Guard

/-! ### On a mounted store -/

namespace Mount
variable {mount : Mount σ}

private theorem dispatch_tries [Legible σ] {onPlain : Storing σ α} {onGuarded : Storing (Guard σ) α}
    (wanted : View → Bool → α → View → Prop) (hs : Intact mount)
    (hp : ∀ store : σ, Intact store → onPlain.Tries places store (wanted (shown store) true))
    (hg : ∀ guard : Guard σ, Intact guard → onGuarded.Tries places guard (wanted (shown guard) false)) :
    (dispatch onPlain onGuarded).Tries places mount (wanted (shown mount) (setting mount).free) := by
  cases mount with
  | plain store => exact (hp store hs).lift .plain rfl id (fun _ ht => ⟨ht.intact,rfl,ht.elsewhere⟩) fun _ => rfl
  | guarded guard => exact (hg guard hs).lift .guarded rfl id (fun _ ht => ⟨ht.intact,rfl,ht.elsewhere⟩) fun _ => rfl

/-- Looking goes past the policy. -/
private theorem look_tries [Legible σ] {act : Storing σ α} (wanted : View → α → View → Prop) (hs : Intact mount)
    (h : ∀ store : σ, Intact store → act.Tries places store (wanted (shown store))) :
    (dispatch act (Guard.beneath act)).Tries places mount (wanted (shown mount)) :=
  dispatch_tries (fun view _ => wanted view) hs h fun guard hg => Guard.beneath_tries (h guard.store hg)

theorem beneath_tries [Legible σ] {act : Storing σ α} {wanted : α → View → Prop} (h : act.Tries places mount.store wanted) :
    (beneath act).Tries places mount wanted := by
  refine h.lift mount.withStore rfl id (fun t ht => ?_) fun t => ?_
  · cases mount <;> exact ⟨ht.intact,rfl,ht.elsewhere⟩
  · cases mount <;> rfl

variable [Storage σ] [FallibleNodes σ]

theorem info_tries (hs : Intact mount) (path : String) : (Storage.info path).Tries ∅ mount fun node after =>
    after = shown mount ∧ node.map Node.untimed = (shown mount).node? (Path.segments path) :=
  look_tries (fun view (node : Option Node) after => after = view ∧ node.map Node.untimed = view.node? (Path.segments path)) hs
    fun _ hs => FallibleNodes.info path hs

theorem create_tries (hs : Intact mount) {node : Node} (hsized : node.Sized) :
    (Storage.create node).Tries {Path.segments node.path} mount
      ((shown mount).Changes (setting mount).free ((shown mount).CanCreate node)
        ((shown mount).set node.target (some (.new node.isDir)))) :=
  dispatch_tries
    (fun view free => view.Changes free (view.CanCreate node) (view.set node.target (some (.new node.isDir)))) hs
    (fun _ hs => (FallibleNodes.create node hs hsized).mono fun _ _ h => .of_iff h.1 h.2)
    fun _ hs => Guard.create_tries hs hsized

end Mount

/-! ### From a working directory -/

namespace FileSystem
variable {fs : FileSystem σ}

/-- What a reader finds at a path, once no call fails any more. -/
def sight [Storage σ] [Sighted σ] (fs : FileSystem σ) (path : String) : Sight := Storage.sight path fs.mount.store

/-- Where a copy goes: into a directory that is found there, under its own name. -/
def landing [Storage σ] [Sighted σ] (fs : FileSystem σ) (src dst : String) : String :=
  match (fs.sight (fs.resolve dst)).1 with
  | .ok (some node) => if node.isDir then Path.join (fs.resolve dst) (Path.basename (fs.resolve src)) else fs.resolve dst
  | _ => fs.resolve dst

/-- Every node that is found is the root or stands in a directory. -/
def Rooted [Storage σ] [Sighted σ] (fs : FileSystem σ) : Prop :=
  ∀ path node, (fs.sight path).1 = .ok (some node) → Path.segments path ≠ [] →
    ∃ parent, (fs.sight (Path.split path).1).1 = .ok (some parent) ∧ parent.isDir = true

theorem call_tries [Legible σ] {act : Storing (Mount σ) α} {wanted : α → View → Prop}
    (h : act.Tries places fs.mount wanted) : (call act).Tries places fs wanted := by
  refine h.lift (fun mount => { fs with mount }) rfl id (fun t ht => ⟨ht.intact,?_,ht.elsewhere⟩) fun _ => rfl
  change (⟨fs.cwd,(setting t).free⟩ : Setting) = _
  rw [ht.setting_eq]
  rfl

variable [Storage σ] [FallibleNodes σ]

theorem info_tries (hs : Intact fs) (path : String) : (call (Storage.info path)).Tries ∅ fs fun node after =>
    after = shown fs ∧ node.map Node.untimed = (shown fs).node? (Path.segments path) :=
  call_tries (Mount.info_tries hs path)

theorem list_tries (hs : Intact fs) (path : String) : (call (Storage.list path)).Tries ∅ fs fun names after =>
    after = shown fs ∧ (shown fs).Lists (Path.segments path) names :=
  call_tries (Mount.look_tries (fun view names after => after = view ∧ view.Lists (Path.segments path) names) hs
    fun _ hs => FallibleNodes.list path hs)

theorem read_tries (hs : Intact fs) (path : String) : (call (Storage.read path)).Tries ∅ fs fun content after =>
    after = shown fs ∧ content = (shown fs).content? (Path.segments path) :=
  call_tries (Mount.look_tries (fun view content after => after = view ∧ content = view.content? (Path.segments path)) hs
    fun _ hs => FallibleNodes.read path hs)

theorem create_tries (hs : Intact fs) {node : Node} (hsized : node.Sized) :
    (call (Storage.create node)).Tries {Path.segments node.path} fs
      ((shown fs).Changes (setting fs).free ((shown fs).CanCreate node)
        ((shown fs).set node.target (some (.new node.isDir)))) :=
  call_tries (Mount.create_tries hs hsized)

theorem rewrite_tries (hs : Intact fs) (now : Timestamp) (path content : String) :
    (call (Storage.write now path content)).Tries {Path.segments path} fs
      ((shown fs).Changes (setting fs).free ((shown fs).IsFile (Path.segments path))
        ((shown fs).set (Path.segments path) (some (.file content)))) :=
  call_tries (Mount.dispatch_tries
    (fun view free => view.Changes free (view.IsFile (Path.segments path))
      (view.set (Path.segments path) (some (.file content)))) hs
    (fun _ hs => (FallibleNodes.write now path content hs).mono fun _ _ h => .of_iff h.1 h.2)
    fun _ hs => Guard.write_tries hs now path content)

theorem delete_tries (hs : Intact fs) (path : String) :
    (call (Storage.delete path)).Tries {Path.segments path} fs
      ((shown fs).Changes (setting fs).free ((shown fs).CanDelete (Path.segments path))
        ((shown fs).set (Path.segments path) none)) :=
  call_tries (Mount.dispatch_tries
    (fun view free => view.Changes free (view.CanDelete (Path.segments path)) (view.set (Path.segments path) none)) hs
    (fun _ hs => (FallibleNodes.delete path hs).mono fun _ _ h => .of_iff h.1 h.2) fun _ hs => Guard.delete_tries hs path)

/-- Taking a node back asks no policy. -/
theorem takeBack_tries (hs : Intact fs) (path : String) :
    (call (Mount.beneath (Storage.delete path))).Tries {Path.segments path} fs ((shown fs).Deletes (Path.segments path)) :=
  call_tries (Mount.beneath_tries (FallibleNodes.delete path hs))

/-! ### One name after the other -/

section loop
variable {act : String → Filing σ Bool} {at_ : String → Set (List String)} {inv : FileSystem σ → Prop}
  {can : String → FileSystem σ → Prop} {gets : String → View → Prop}

/--
What is done to each of some names is done at places of its own, under an invariant. What a name got, and whether it
can get it, is settled at these places.
-/
structure Each (names : List String) (act : String → Filing σ Bool) (at_ : String → Set (List String))
    (inv : FileSystem σ → Prop) (can : String → FileSystem σ → Prop) (gets : String → View → Prop) : Prop where
  intact : ∀ {t}, inv t → Intact t
  tries : ∀ name ∈ names, ∀ {t}, inv t → (act name).Tries (at_ name) t fun done after =>
    (done = true → gets name after) ∧ (can name t → done = true)
  keeps : ∀ name ∈ names, ∀ {t u : FileSystem σ}, inv t → Altered (at_ name) t u → inv u
  disjoint : ∀ name ∈ names, ∀ other ∈ names, name ≠ other → Disjoint (at_ name) (at_ other)
  gets_apart : ∀ name ∈ names, ∀ {places} {t u : FileSystem σ}, Disjoint (at_ name) places → Intact t → Altered places t u →
    gets name (shown t) → gets name (shown u)
  can_apart : ∀ name ∈ names, ∀ {places} {t u : FileSystem σ}, Disjoint (at_ name) places → inv t → inv u → Altered places t u →
    can name t → can name u

/-- Done one name after the other, it is done to all of them if it can be; else it stops. -/
theorem Each.whileTrue {names : List String} (h : Each names act at_ inv can gets) (hnodup : names.Nodup) {t : FileSystem σ}
    (ht : inv t) : (whileTrue act names).Tries {place | ∃ name ∈ names, place ∈ at_ name} t fun done after =>
      (done = true → ∀ name ∈ names, gets name after) ∧ ((∀ name ∈ names, can name t) → done = true) := by
  -- What the first name got stays while the others get theirs, and what they can get it has left them.
  induction names generalizing t with
  | nil => exact .pure (h.intact ht) ⟨by simp,fun _ => rfl⟩
  | cons name rest ih =>
    obtain ⟨hfresh,hnodup⟩ := List.nodup_cons.mp hnodup
    have hrest {other : String} (ho : other ∈ rest) : other ∈ name :: rest := List.mem_cons_of_mem _ ho
    have htail : Each rest act at_ inv can gets :=
      ⟨h.intact,fun n hn => h.tries n (hrest hn),fun n hn => h.keeps n (hrest hn),
        fun n hn o ho => h.disjoint n (hrest hn) o (hrest ho),fun n hn => h.gets_apart n (hrest hn),
        fun n hn => h.can_apart n (hrest hn)⟩
    have hne {other : String} (ho : other ∈ rest) : name ≠ other := fun he => hfresh (he ▸ ho)
    have hfirst : at_ name ⊆ {place | ∃ n ∈ name :: rest, place ∈ at_ n} := fun place hp => ⟨name,by simp,hp⟩
    have hlater : {place | ∃ n ∈ rest, place ∈ at_ n} ⊆ {place | ∃ n ∈ name :: rest, place ∈ at_ n} :=
      fun place ⟨n,hn,hp⟩ => ⟨n,hrest hn,hp⟩
    have hapart : Disjoint (at_ name) {place | ∃ n ∈ rest, place ∈ at_ n} := by
      refine Set.disjoint_left.mpr fun place hp ⟨n,hn,hp'⟩ => ?_
      exact Set.disjoint_left.mp (h.disjoint name (by simp) n (hrest hn) (hne hn)) hp hp'
    refine .seq (h.tries name (by simp) ht) (fun done u hu ⟨hgets,hdone⟩ => ?_) hfirst hlater
    have hinv := h.keeps name (by simp) ht hu
    split
    · rename_i hd
      refine .imp (ih htail hnodup hinv) fun all v hv ⟨hall,hcan⟩ => ⟨fun ha => List.forall_mem_cons.mpr ⟨?_,hall ha⟩,fun hc => ?_⟩
      · exact h.gets_apart name (by simp) hapart hu.intact hv (hgets hd)
      · refine hcan fun other ho => h.can_apart other (hrest ho) ?_ ht hinv hu (hc other (hrest ho))
        exact (h.disjoint name (by simp) other (hrest ho) (hne ho)).symm
    · rename_i hd
      exact .pure hu.intact ⟨fun hf => absurd hf (by simp),fun hc => absurd (hdone (hc name (by simp))) hd⟩

end loop

/-! ### What a tree may be -/

/-- No tree is deeper than the bound that descending goes by. -/
theorem length_lt_capacity (hs : Intact fs) {names more : List String} (h : (shown fs (names ++ more)).isSome) :
    more.length < fs.capacity := by
  -- The beginnings of the chain are as many places in the tree.
  let chains := (List.range (more.length + 1)).map fun n => names ++ more.take n
  have hnodup : chains.Nodup := by
    refine List.Nodup.map_on (fun m hm n hn he => ?_) List.nodup_range
    have hlength := congrArg List.length (List.append_cancel_left he)
    simp only [List.length_take, List.mem_range] at hlength hm hn
    omega
  have hmem : ∀ chain ∈ chains, (shown fs chain).isSome := by
    intro chain hc
    obtain ⟨n,_,rfl⟩ := List.mem_map.mp hc
    by_cases hn : more.drop n = []
    · rwa [List.take_of_length_le (List.drop_eq_nil_iff.mp hn)]
    · rw [← List.take_append_drop n more, ← List.append_assoc] at h
      rw [(wellFormed hs).ancestor hn h]
      rfl
  have hle := FallibleNodes.length_le_capacity (s := fs.mount.store) hs chains hnodup hmem
  have hcap : fs.capacity = Storage.capacity fs.mount.store + 1 := rfl
  simp only [chains, List.length_map, List.length_range] at hle
  omega

omit [Storage σ] [FallibleNodes σ] in
/-- In a tree every node but the root stands in a directory. -/
theorem exists_parent [Legible σ] (hs : Intact fs) {path : String} {node : Node} (h : (sights path fs).1 = .ok (some node))
    (hroot : Path.segments path ≠ []) :
    ∃ parent, (sights (Path.split path).1 fs).1 = .ok (some parent) ∧ parent.isDir = true := by
  obtain ⟨item,hitem,_⟩ := shown_of_node hs h
  have hparent : shown fs (Path.segments (Path.split path).1) = some .dir := by
    rw [Path.segments_split_fst]
    refine (wellFormed hs).parent _ ((Path.segments path).getLast hroot) ?_
    rw [List.dropLast_append_getLast, hitem]
    rfl
  exact node_of_shown hs hparent

/-- Over a store that works every file system is intact. -/
theorem Reached.intact {fs : FileSystem Provider} (hfs : Reached Provider.Ready fs) : Intact fs :=
  hfs.holds Viewed.keeps_sound (fun now _ hk => hk.sound_setUp now) (Viewed.preserves_sound LawfulStorage.cleanup)

/-- So it is where calls fail. -/
theorem Reached.intact_faulty {fs : FileSystem (Faulty Provider)} (hfs : Reached Faulty.Ready fs) : Intact fs :=
  hfs.holds_of_ok FallibleNodes.keeps_intact (fun _ _ _ _ hk he => hk.intact_setUp he) (FallibleNodes.preserves FallibleStorage.cleanup)

end FileSystem

private theorem Faulty.preserves_fails (fails : Nat → Call → Bool) (call : Call) (act : Storing σ α) :
    Preserves (fun faulty : Faulty σ => faulty.fails = fails) (attempt call act) := by
  intro faulty h
  rw [on_attempt]
  split <;> exact h

/-- Which calls fail is settled from the beginning. -/
theorem FileSystem.Reached.fails_eq [Storage σ] {fails : Nat → Call → Bool} {fs : FileSystem (Faulty σ)}
    (hfs : Reached (fun store => store.fails = fails) fs) : fs.mount.store.fails = fails :=
  hfs.holds
    { info := fun _ => Faulty.preserves_fails _ _ _
      create := fun _ _ => Faulty.preserves_fails _ _ _
      list := fun _ => Faulty.preserves_fails _ _ _
      write := fun _ _ _ => Faulty.preserves_fails _ _ _
      read := fun _ => Faulty.preserves_fails _ _ _
      delete := fun _ => Faulty.preserves_fails _ _ _
      touch := fun _ _ => Faulty.preserves_fails _ _ _
      stats := Faulty.preserves_fails _ _ _ }
    (fun _ store h => Faulty.preserves_fails _ _ _ store h) (Faulty.preserves_fails _ _ _)

end VirtualShell
