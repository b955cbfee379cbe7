import VirtualShell.Proofs.Path.Segments
import VirtualShell.Proofs.Storage.Outcome
import VirtualShell.Storage.Provider

/-!
Stores count the calls and requests that they get, so that any of them can be made to fail. Where none fails, the counts
change no answer, and a call that only looks changes nothing else.
-/
namespace VirtualShell
open Storing

/-- What counts the calls that it gets. -/
class Counting (σ : Type) where
  /-- No call is to fail. -/
  Works : σ → Prop
  /-- The same with nothing counted. -/
  rested : σ → σ

namespace Counting

/-- Nothing fails in either, and they differ in their counts at most. -/
def Alike {σ : Type} [Counting σ] (s t : σ) : Prop := Works s ∧ Works t ∧ rested s = rested t

theorem Alike.refl {σ : Type} [Counting σ] {s : σ} (h : Works s) : Alike s s := ⟨h,h,rfl⟩

end Counting

open Counting

/-! ### The client of an object service -/

namespace Client
variable {α : Type} {request : Request} {act : Storing Client α} {c d start : Client} {bucket : String}

instance : Counting Client where
  Works client := ∀ n request, client.fails n request = false
  rested client := { client with requests := 0 }

private theorem buckets_eq (h : Alike c d) : c.buckets = d.buckets := (congrArg Client.buckets h.2.2 :)

private theorem on_attempt (h : Works c) :
    (attempt request act).on c = act.on { c with requests := c.requests + 1 } := by
  rw [attempt, on_bind_ok (on_get _), on_bind_ok (on_set _ _), if_neg (by simp [h c.requests request])]

private theorem attempt_agrees (h : act.Agrees Alike) : (attempt request act).Agrees Alike := by
  intro c d hcd
  rw [on_attempt hcd.1, on_attempt hcd.2.1]
  exact h _ _ hcd

private theorem attempt_idle (h : act.Preserves (Alike start)) : (attempt request act).Preserves (Alike start) := by
  intro c hc
  rw [on_attempt hc.2.1]
  exact h _ hc

private theorem objects_agrees : (objects bucket).Agrees Alike := by
  refine .get_bind (fun c d h => by simp only [buckets_eq h]) fun c d _ => ?_
  split
  · exact .pure _
  · exact .throw _

private theorem objects_idle : (objects bucket).Preserves (Alike start) := by
  refine .get_bind fun c _ => ?_
  split
  · exact .pure _
  · exact .throw _

theorem put_agrees (key : String) (body : ByteArray) : (put bucket key body).Agrees Alike := by
  refine attempt_agrees (objects_agrees.bind fun objects c d h => ⟨rfl,h.1,h.2.1,?_⟩)
  obtain ⟨_,_,_⟩ := c
  obtain ⟨_,_,_⟩ := d
  cases h.2.2
  rfl

theorem fetch_agrees (key : String) : (fetch bucket key).Agrees Alike :=
  attempt_agrees (objects_agrees.bind fun _ => .pure _)

theorem fetch_idle (key : String) : (fetch bucket key).Preserves (Alike start) :=
  attempt_idle (objects_idle.bind fun _ => .pure _)

theorem list_agrees (first : String) : (list bucket first).Agrees Alike :=
  (attempt_agrees (objects_agrees.bind fun _ => .pure _)).bind fun _ => .pure _

theorem list_idle (first : String) : (list bucket first).Preserves (Alike start) :=
  (attempt_idle (objects_idle.bind fun _ => .pure _)).bind fun _ => .pure _

end Client

/-! ### The store over an object service -/

namespace Objects
variable {α : Type} {act : Storing Client α} {a b start : Objects}

instance : Counting Objects where
  Works store := Works store.client
  rested store := { store with client := rested store.client }

private theorem bucket_eq (h : Alike a b) : a.bucket = b.bucket := (congrArg Objects.bucket h.2.2 :)

private theorem keyPrefix_eq (h : Alike a b) : a.keyPrefix = b.keyPrefix := (congrArg Objects.keyPrefix h.2.2 :)

private theorem key_eq_of_alike (h : Alike a b) (kind path : String) : a.key kind path = b.key kind path :=
  (congrArg (Objects.key · kind path) h.2.2 :)

private theorem client_alike (h : Alike a b) : Alike a.client b.client := ⟨h.1,h.2.1,(congrArg Objects.client h.2.2 :)⟩

private theorem alike_of_client (h : Alike a b) {c d : Client} (hc : Alike c d) :
    Alike { a with client := c } { b with client := d } :=
  ⟨hc.1,hc.2.1,(congrArg₂ (fun client (store : Objects) => { store with client }) hc.2.2 h.2.2 :)⟩

private theorem request_agrees (h : act.Agrees Alike) : (request act).Agrees Alike := fun _ _ hab =>
  ⟨(h _ _ (client_alike hab)).1,alike_of_client hab (h _ _ (client_alike hab)).2⟩

private theorem request_idle (h : ∀ start, act.Preserves (Alike start)) : (request act).Preserves (Alike start) := fun _ ha =>
  alike_of_client ha (h _ _ (client_alike ha))

private theorem decode_agrees (body : ByteArray) : (decode body).Agrees Alike := by
  unfold decode
  split
  · exact .pure _
  · exact .throw _

private theorem decode_idle (body : ByteArray) : (decode body).Preserves (Alike start) := by
  unfold decode
  split
  · exact .pure _
  · exact .throw _

private theorem load_agrees (path : String) : (load path).Agrees Alike := by
  refine .get_bind (fun a b h => by simp only [nodeKey, bucket_eq h, key_eq_of_alike h]) fun a b _ => ?_
  refine (request_agrees (Client.fetch_agrees _)).bind fun found => ?_
  cases found with
  | none => exact .pure _
  | some body => exact (decode_agrees body).bind fun _ => .pure _

theorem load_idle (path : String) : (load path).Preserves (Alike start) := by
  refine .get_bind fun a _ => (request_idle fun _ => Client.fetch_idle _).bind fun found => ?_
  cases found with
  | none => exact .pure _
  | some body => exact (decode_idle body).bind fun _ => .pure _

private theorem putNode_agrees (path : String) (node : Node) : (putNode path node).Agrees Alike :=
  .get_bind (fun a b h => by simp only [nodeKey, bucket_eq h, key_eq_of_alike h]) fun _ _ _ =>
    request_agrees (Client.put_agrees _ _)

private theorem putContent_agrees (path content : String) : (putContent path content).Agrees Alike :=
  .get_bind (fun a b h => by simp only [contentKey, bucket_eq h, key_eq_of_alike h]) fun _ _ _ =>
    request_agrees (Client.put_agrees _ _)

theorem writePath_agrees (now : Timestamp) (path content : String) : (writePath now path content).Agrees Alike := by
  refine (load_agrees _).bind fun found => ?_
  cases found with
  | none => exact .pure _
  | some node =>
    dsimp only
    split
    · exact .pure _
    · exact (putContent_agrees _ _).bind fun _ => (putNode_agrees _ _).bind fun _ => .pure _

private theorem survey_agrees (bucket : String) (keys : List String) (stats : StorageStats) :
    (survey bucket keys stats).Agrees Alike := by
  induction keys generalizing stats with
  | nil => exact .pure _
  | cons key rest ih =>
    refine (request_agrees (Client.fetch_agrees _)).bind fun found => ?_
    cases found with
    | none => exact ih _
    | some body => exact (decode_agrees body).bind fun _ => ih _

private theorem survey_idle (bucket : String) (keys : List String) (stats : StorageStats) :
    (survey bucket keys stats).Preserves (Alike start) := by
  induction keys generalizing stats with
  | nil => exact .pure _
  | cons key rest ih =>
    refine (request_idle fun _ => Client.fetch_idle _).bind fun found => ?_
    cases found with
    | none => exact ih _
    | some body => exact (decode_idle body).bind fun _ => ih _

theorem statsOf_agrees : statsOf.Agrees Alike :=
  .get_bind (fun a b h => by simp only [nodeKey, bucket_eq h, key_eq_of_alike h, keyPrefix_eq h]) fun _ _ _ =>
    (request_agrees (Client.list_agrees _)).bind fun _ => survey_agrees _ _ _

theorem statsOf_idle : statsOf.Preserves (Alike start) :=
  .get_bind fun _ _ => (request_idle fun _ => Client.list_idle _).bind fun _ => survey_idle _ _ _

end Objects

/-! ### Stores that count nothing -/

namespace Tree

instance : Counting Tree where
  Works _ := True
  rested tree := tree

theorem agrees_alike {α : Type} (act : Storing Tree α) : act.Agrees Alike := by
  rintro tree _ ⟨_,_,rfl⟩
  exact ⟨rfl,.refl trivial⟩

end Tree

namespace Table
variable {start : Table}

instance : Counting Table where
  Works _ := True
  rested table := table

theorem agrees_alike {α : Type} (act : Storing Table α) : act.Agrees Alike := by
  rintro table _ ⟨_,_,rfl⟩
  exact ⟨rfl,.refl trivial⟩

private theorem rowsOf_idle : rowsOf.Preserves (Alike start) := by
  refine .get_bind fun table _ => ?_
  split
  · exact .pure _
  · exact .throw _

theorem info_idle (path : String) : (Storage.info path : Storing Table (Option Node)).Preserves (Alike start) :=
  rowsOf_idle.bind fun _ => .pure _

theorem stats_idle : (Storage.stats : Storing Table StorageStats).Preserves (Alike start) :=
  rowsOf_idle.bind fun _ => .get_bind fun _ _ => .pure _

end Table

/-! ### Stores whose calls may be made to fail -/

namespace Faulty
variable {σ α : Type} [Counting σ] {call : Call} {act : Storing σ α} {start s t : Faulty σ}

instance : Counting (Faulty σ) where
  Works faulty := Works faulty.store ∧ ∀ n call, faulty.fails n call = false
  rested faulty := { faulty with store := rested faulty.store, calls := 0 }

private theorem store_alike (h : Alike s t) : Alike s.store t.store := ⟨h.1.1,h.2.1.1,(congrArg Faulty.store h.2.2 :)⟩

private theorem alike_of_store (h : Alike s t) {x y : σ} (hxy : Alike x y) (m n : Nat) :
    Alike { s with store := x, calls := m } { t with store := y, calls := n } :=
  ⟨⟨hxy.1,h.1.2⟩,⟨hxy.2.1,h.2.1.2⟩,(congrArg₂ (fun store (faulty : Faulty σ) => { faulty with store }) hxy.2.2 h.2.2 :)⟩

/-- Where no call fails, all that is counted is that there was one. -/
theorem on_attempt_of_works (h : Works s) (call : Call) (act : Storing σ α) :
    (attempt call act).on s = ((act.on s.store).1, { s with store := (act.on s.store).2, calls := s.calls + 1 }) := by
  rw [on_attempt, if_neg (by simp [h.2])]

theorem attempt_agrees (h : act.Agrees Alike) : (attempt call act).Agrees Alike := by
  intro s t hst
  obtain ⟨hanswer,halike⟩ := h _ _ (store_alike hst)
  rw [on_attempt_of_works hst.1, on_attempt_of_works hst.2.1]
  exact ⟨hanswer,alike_of_store hst halike _ _⟩

theorem attempt_idle (h : ∀ start, act.Preserves (Alike start)) : (attempt call act).Preserves (Alike start) := by
  intro s hs
  rw [on_attempt_of_works hs.2.1]
  exact alike_of_store hs (h _ _ (store_alike hs)) start.calls _

end Faulty

/-! ### Stores that can be asked for -/

namespace Provider
variable {α : Type} {onTree : Storing Tree α} {onTable : Storing Table α} {onObjects : Storing Objects α}
  {onFaulty : Storing (Faulty Tree) α} {start : Provider}

instance : Counting Provider where
  Works
    | .tree store => Works store
    | .table store => Works store
    | .objects store => Works store
    | .faulty store => Works store
  rested
    | .tree store => .tree (rested store)
    | .table store => .table (rested store)
    | .objects store => .objects (rested store)
    | .faulty store => .faulty (rested store)

/-- Providers that are alike are stores of one kind that are alike. -/
private theorem alike_cases {s t : Provider} (h : Alike s t) :
    (∃ a b, s = .tree a ∧ t = .tree b ∧ Alike a b) ∨ (∃ a b, s = .table a ∧ t = .table b ∧ Alike a b) ∨
    (∃ a b, s = .objects a ∧ t = .objects b ∧ Alike a b) ∨ ∃ a b, s = .faulty a ∧ t = .faulty b ∧ Alike a b := by
  obtain ⟨hs,ht,he⟩ := h
  cases s with
  | tree a =>
    cases t with
    | tree b => exact .inl ⟨a,b,rfl,rfl,hs,ht,Provider.tree.inj he⟩
    | _ => cases he
  | table a =>
    cases t with
    | table b => exact .inr (.inl ⟨a,b,rfl,rfl,hs,ht,Provider.table.inj he⟩)
    | _ => cases he
  | objects a =>
    cases t with
    | objects b => exact .inr (.inr (.inl ⟨a,b,rfl,rfl,hs,ht,Provider.objects.inj he⟩))
    | _ => cases he
  | faulty a =>
    cases t with
    | faulty b => exact .inr (.inr (.inr ⟨a,b,rfl,rfl,hs,ht,Provider.faulty.inj he⟩))
    | _ => cases he

private theorem tree_alike {s t : Tree} (h : Alike s t) : Alike (Provider.tree s) (.tree t) :=
  ⟨h.1,h.2.1,congrArg Provider.tree h.2.2⟩

private theorem table_alike {s t : Table} (h : Alike s t) : Alike (Provider.table s) (.table t) :=
  ⟨h.1,h.2.1,congrArg Provider.table h.2.2⟩

private theorem objects_alike {s t : Objects} (h : Alike s t) : Alike (Provider.objects s) (.objects t) :=
  ⟨h.1,h.2.1,congrArg Provider.objects h.2.2⟩

private theorem faulty_alike {s t : Faulty Tree} (h : Alike s t) : Alike (Provider.faulty s) (.faulty t) :=
  ⟨h.1,h.2.1,congrArg Provider.faulty h.2.2⟩

private theorem dispatch_agrees (ht : onTree.Agrees Alike) (hr : onTable.Agrees Alike) (ho : onObjects.Agrees Alike)
    (hf : onFaulty.Agrees Alike) : (dispatch onTree onTable onObjects onFaulty).Agrees Alike := by
  intro s t h
  obtain ⟨a,b,rfl,rfl,hab⟩ | ⟨a,b,rfl,rfl,hab⟩ | ⟨a,b,rfl,rfl,hab⟩ | ⟨a,b,rfl,rfl,hab⟩ := alike_cases h
  · exact ⟨(ht a b hab).1,tree_alike (ht a b hab).2⟩
  · exact ⟨(hr a b hab).1,table_alike (hr a b hab).2⟩
  · exact ⟨(ho a b hab).1,objects_alike (ho a b hab).2⟩
  · exact ⟨(hf a b hab).1,faulty_alike (hf a b hab).2⟩

private theorem dispatch_idle (ht : ∀ start, onTree.Preserves (Alike start)) (hr : ∀ start, onTable.Preserves (Alike start))
    (ho : ∀ start, onObjects.Preserves (Alike start)) (hf : ∀ start, onFaulty.Preserves (Alike start)) :
    (dispatch onTree onTable onObjects onFaulty).Preserves (Alike start) := by
  intro s h
  obtain ⟨a,b,rfl,rfl,hab⟩ | ⟨a,b,rfl,rfl,hab⟩ | ⟨a,b,rfl,rfl,hab⟩ | ⟨a,b,rfl,rfl,hab⟩ := alike_cases h
  · exact tree_alike (ht a b hab)
  · exact table_alike (hr a b hab)
  · exact objects_alike (ho a b hab)
  · exact faulty_alike (hf a b hab)

/-- What was counted makes no difference to a write. -/
theorem write_agrees (now : Timestamp) (path content : String) :
    (Storage.write now path content : Storing Provider Bool).Agrees Alike :=
  dispatch_agrees (Tree.agrees_alike _) (Table.agrees_alike _) (Objects.writePath_agrees now path content)
    (Faulty.attempt_agrees (Tree.agrees_alike _))

/-- What was counted does not show in the numbers of a store. -/
theorem stats_agrees : (Storage.stats : Storing Provider StorageStats).Agrees Alike :=
  dispatch_agrees (Tree.agrees_alike _) (Table.agrees_alike _) Objects.statsOf_agrees
    (Faulty.attempt_agrees (Tree.agrees_alike _))

/-- To look at a node is counted at most. -/
theorem info_idle (path : String) : (Storage.info path : Storing Provider (Option Node)).Preserves (Alike start) :=
  dispatch_idle (fun _ _ h => h) (fun _ => Table.info_idle path) (fun _ => Objects.load_idle _)
    fun _ => Faulty.attempt_idle fun _ _ h => h

/-- To ask for the numbers of a store is counted at most. -/
theorem stats_idle : (Storage.stats : Storing Provider StorageStats).Preserves (Alike start) :=
  dispatch_idle (fun _ _ h => h) (fun _ => Table.stats_idle) (fun _ => Objects.statsOf_idle)
    fun _ => Faulty.attempt_idle fun _ _ h => h

end Provider

/-! ### Paths in any form -/

namespace Tree

theorem write_normalize (now : Timestamp) (path content : String) :
    (Storage.write now (Path.normalize path) content : Storing Tree Bool) = Storage.write now path content := by
  simp only [Storage.write, alter, Path.segments_normalize]

theorem touch_normalize (now : Timestamp) (path : String) :
    (Storage.touch now (Path.normalize path) : Storing Tree Bool) = Storage.touch now path := by
  simp only [Storage.touch, alter, Path.segments_normalize]

theorem delete_normalize (path : String) :
    (Storage.delete (Path.normalize path) : Storing Tree Bool) = Storage.delete path := by
  simp only [Storage.delete, Path.split_normalize]

end Tree

namespace Provider
variable {α : Type} {onTree onTree' : Storing Tree α} {onTable onTable' : Storing Table α} {onObjects onObjects' : Storing Objects α}
  {act act' : Storing Tree α} {call call' : Call} {store : Provider}

/-- The stores themselves cannot tell the calls apart; where no call fails, neither can a store in which calls may fail. -/
private theorem on_dispatch_congr (h : Works store) (ht : onTree = onTree') (hr : onTable = onTable') (ho : onObjects = onObjects')
    (hact : act = act') : (dispatch onTree onTable onObjects (Faulty.attempt call act)).on store =
      (dispatch onTree' onTable' onObjects' (Faulty.attempt call' act')).on store := by
  subst ht hr ho hact
  cases store with
  | tree store => rfl
  | table store => rfl
  | objects store => rfl
  | faulty store =>
    have hsame : (Faulty.attempt call act).on store = (Faulty.attempt call' act).on store := by
      rw [Faulty.on_attempt_of_works h, Faulty.on_attempt_of_works h]
    exact congrArg (fun (result, store) => (result, Provider.faulty store)) hsame

theorem on_write_normalize (h : Works store) (now : Timestamp) (path content : String) :
    (Storage.write now (Path.normalize path) content).on store = (Storage.write now path content).on store :=
  on_dispatch_congr h (Tree.write_normalize now path content) (by simp only [Storage.write, Path.normalize_normalize])
    (by simp only [Storage.write, Objects.writePath, Path.normalize_normalize]) (Tree.write_normalize now path content)

theorem on_touch_normalize (h : Works store) (now : Timestamp) (path : String) :
    (Storage.touch now (Path.normalize path)).on store = (Storage.touch now path).on store :=
  on_dispatch_congr h (Tree.touch_normalize now path) (by simp only [Storage.touch, Path.normalize_normalize])
    (by simp only [Storage.touch, Objects.touchPath, Path.normalize_normalize]) (Tree.touch_normalize now path)

theorem on_delete_normalize (h : Works store) (path : String) :
    (Storage.delete (Path.normalize path)).on store = (Storage.delete path).on store :=
  on_dispatch_congr h (Tree.delete_normalize path) (by simp only [Storage.delete, Path.normalize_normalize])
    (by simp only [Storage.delete, Objects.deletePath, Path.normalize_normalize]) (Tree.delete_normalize path)

end Provider
end VirtualShell
