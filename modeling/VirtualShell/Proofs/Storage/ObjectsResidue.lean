import VirtualShell.Proofs.Storage.ObjectsIntegrity

/-!
What a failed call leaves behind. The sidecars are as they were, and so is everything that is told by them; a write or
a deletion that stops between the two objects of a file has changed the body of the file.
-/
namespace VirtualShell.Objects
open Storing

variable {bucket keyPrefix : String} {keys : List String} {a b : Objects}

/-! ### Stores that differ in some bodies -/

/-- Two stores whose requests go through and whose buckets are the same but for what is under some keys. -/
structure Twins (bucket keyPrefix : String) (keys : List String) (a b : Objects) : Prop where
  bucket_eq : a.bucket = bucket ∧ b.bucket = bucket
  prefix_eq : a.keyPrefix = keyPrefix ∧ b.keyPrefix = keyPrefix
  works : ∀ n request, a.client.fails n request = false ∧ b.client.fails n request = false
  bodies : ∀ key ∉ keys, bodyAt a key = bodyAt b key
  sidecars : ∀ path, keysFrom a (keyIn keyPrefix "nodes" path) = keysFrom b (keyIn keyPrefix "nodes" path)

/-- None of the keys is one of a sidecar. -/
def Bodily (keyPrefix : String) (keys : List String) : Prop :=
  ∀ key ∈ keys, ¬ (keyIn keyPrefix "nodes" "").toList <+: key.toList

private theorem Twins.ticked (h : Twins bucket keyPrefix keys a b) : Twins bucket keyPrefix keys (ticked a) (ticked b) :=
  ⟨h.bucket_eq,h.prefix_eq,h.works,h.bodies,h.sidecars⟩

private theorem Twins.missing_eq (h : Twins bucket keyPrefix keys a b) : missing a = missing b := by
  rw [missing, missing, h.bucket_eq.1, h.bucket_eq.2]

private theorem agrees_fetch {key : String} (hkey : key ∉ keys) :
    (request (Client.fetch bucket key)).Agrees (Twins bucket keyPrefix keys) := by
  intro a b h
  obtain ⟨ha,hb⟩ := h.bucket_eq
  have hona := on_fetch (fun n request => (h.works n request).1) key
  have honb := on_fetch (fun n request => (h.works n request).2) key
  rw [ha] at hona
  rw [hb] at honb
  rw [hona, honb, h.bodies key hkey, h.missing_eq]
  exact ⟨rfl,h.ticked⟩

private theorem agrees_list (path : String) :
    (request (Client.list bucket (keyIn keyPrefix "nodes" path))).Agrees (Twins bucket keyPrefix keys) := by
  intro a b h
  obtain ⟨ha,hb⟩ := h.bucket_eq
  have hona := on_list (fun n request => (h.works n request).1) (keyIn keyPrefix "nodes" path)
  have honb := on_list (fun n request => (h.works n request).2) (keyIn keyPrefix "nodes" path)
  rw [ha] at hona
  rw [hb] at honb
  rw [hona, honb, h.sidecars path, h.missing_eq]
  exact ⟨rfl,h.ticked⟩

private theorem agrees_decode (body : ByteArray) : (decode body).Agrees (Twins bucket keyPrefix keys) := by
  unfold decode
  split
  · exact .pure _
  · exact .throw _

private theorem Twins.key_eq (h : Twins bucket keyPrefix keys a b) (kind path : String) :
    a.key kind path = keyIn keyPrefix kind path ∧ b.key kind path = keyIn keyPrefix kind path := by
  rw [Objects.key_eq, Objects.key_eq, h.prefix_eq.1, h.prefix_eq.2]
  exact ⟨rfl,rfl⟩

theorem agrees_load (hkeys : Bodily keyPrefix keys) (path : String) : (load path).Agrees (Twins bucket keyPrefix keys) := by
  refine .get_bind (fun a b h => ?_) fun a b h => ?_
  · simp only [h.bucket_eq, nodeKey, h.key_eq]
  · rw [h.bucket_eq.1, nodeKey, (h.key_eq _ _).1]
    refine (agrees_fetch fun hm => hkeys _ hm (starts_with _ _)).bind fun found => ?_
    cases found with
    | none => exact .pure _
    | some body => exact (agrees_decode body).bind fun _ => .pure _

private theorem agrees_children (dir : String) : (children dir).Agrees (Twins bucket keyPrefix keys) := by
  refine .get_bind (fun a b h => ?_) fun a b h => ?_
  · simp only [h.bucket_eq, childrenKey, nodeKey, h.key_eq]
  · simp only [h.bucket_eq, childrenKey, nodeKey, h.key_eq]
    exact (agrees_list _).bind fun _ => .pure _

theorem agrees_listPath (hkeys : Bodily keyPrefix keys) (path : String) :
    (listPath path).Agrees (Twins bucket keyPrefix keys) := by
  refine (agrees_load hkeys _).bind fun found => ?_
  cases found with
  | none => exact .pure _
  | some node =>
    dsimp only
    split
    · exact agrees_children _
    · exact .pure _

private theorem agrees_survey (hkeys : Bodily keyPrefix keys) {found : List String}
    (hfound : ∀ key ∈ found, (keyIn keyPrefix "nodes" "").toList <+: key.toList) (stats : StorageStats) :
    (survey bucket found stats).Agrees (Twins bucket keyPrefix keys) := by
  induction found generalizing stats with
  | nil => exact .pure _
  | cons key rest ih =>
    have hrest (key : String) (hk : key ∈ rest) := hfound key (by simp [hk])
    refine (agrees_fetch fun hm => hkeys _ hm (hfound key (by simp))).bind fun body => ?_
    cases body with
    | none => exact ih hrest _
    | some body => exact (agrees_decode body).bind fun _ => ih hrest _

theorem agrees_statsOf (hkeys : Bodily keyPrefix keys) : statsOf.Agrees (Twins bucket keyPrefix keys) := by
  refine .get_bind (fun a b h => ?_) fun a b h => ?_
  · simp only [h.bucket_eq, h.prefix_eq, nodeKey, h.key_eq]
  · simp only [h.bucket_eq, nodeKey, h.key_eq]
    refine (agrees_list _).bind_of fun found s t s' hst he => agrees_survey hkeys (fun key hk => ?_) _
    have hon := on_list (fun n request => (hst.works n request).1) (keyIn keyPrefix "nodes" "")
    rw [hst.bucket_eq.1, he] at hon
    cases hs : keysFrom s (keyIn keyPrefix "nodes" "") with
    | none => simp [hs] at hon
    | some listed =>
      obtain ⟨objects,_,rfl⟩ := Option.map_eq_some_iff.mp hs
      obtain rfl : found = _ := by simpa [hs] using congrArg Prod.fst hon
      exact Client.prefix_of_mem_keys hk

/-- What is read depends on a body only for a file. -/
private theorem Twins.read (h : Twins bucket keyPrefix keys a b) (hkeys : Bodily keyPrefix keys) {path : String}
    (hpath : keyIn keyPrefix "content" (Path.normalize path) ∈ keys → ∀ node,
      loaded a (bodyAt a (a.nodeKey (Path.normalize path))) ≠ .ok (some node)) :
    ((readPath path).on a).1 = ((readPath path).on b).1 := by
  have hnode : bodyAt a (a.nodeKey (Path.normalize path)) = bodyAt b (b.nodeKey (Path.normalize path)) := by
    rw [nodeKey, nodeKey, (h.key_eq _ _).1, (h.key_eq _ _).2]
    exact h.bodies _ fun hm => hkeys _ hm (starts_with _ _)
  have hloaded (found : Option (Option ByteArray)) : loaded a found = loaded b found := by
    rw [loaded, loaded, h.missing_eq]
  rw [on_read fun n request => (h.works n request).1, on_read fun n request => (h.works n request).2, ← hnode, ← hloaded]
  by_cases hm : keyIn keyPrefix "content" (Path.normalize path) ∈ keys
  · have hno := hpath hm
    rcases hl : loaded a (bodyAt a (a.nodeKey (Path.normalize path))) with e | _ | node
    · rfl
    · rfl
    · exact absurd hl (hno node)
  · rw [contentKey, contentKey, (h.key_eq _ _).1, (h.key_eq _ _).2, h.bodies _ hm]
    simp only [readFrom, h.missing_eq]

/-! ### What is found again -/

variable {fails : Nat → Request → Bool} {objects : Keyed ByteArray} {names : List String} {store after : Objects}

/-- What is listed at a path once no request fails any more. -/
def listing (path : String) (store : Objects) : Except StorageError (List String) :=
  ((Storage.list path).on (Sighted.steady store)).1

/-- The numbers of a store once no request fails any more. -/
def numbers (store : Objects) : Except StorageError StorageStats := (Storage.stats.on (Sighted.steady store)).1

theorem twins_of_stocks {x y : Keyed ByteArray} (ha : Stocks fails bucket keyPrefix x a) (hb : Stocks fails bucket keyPrefix y b)
    (hx : x.Rising) (hy : y.Rising) (hkeys : Bodily keyPrefix keys)
    (h : ∀ key ∉ keys, Keyed.find? key x = Keyed.find? key y) :
    Twins bucket keyPrefix keys (Sighted.steady a) (Sighted.steady b) where
  bucket_eq := ⟨ha.bucket_eq,hb.bucket_eq⟩
  prefix_eq := ⟨ha.prefix_eq,hb.prefix_eq⟩
  works _ _ := ⟨rfl,rfl⟩
  bodies key hk := (ha.bodyAt key).trans ((congrArg some (h key hk)).trans (hb.bodyAt key).symm)
  sidecars path := by
    have hlisted : (Client.startingWith (keyIn keyPrefix "nodes" path) x).keys =
        (Client.startingWith (keyIn keyPrefix "nodes" path) y).keys :=
      Client.keys_startingWith_congr hx hy fun key hp => h key fun hk => hkeys key hk ((starts_with _ _).trans hp)
    have hkeysFrom {z : Keyed ByteArray} {c : Objects} (hc : Stocks fails bucket keyPrefix z c) (start : String) :
        keysFrom (Sighted.steady c) start = some (Client.startingWith start z).keys := by
      change (Keyed.find? c.bucket c.client.buckets).map _ = _
      rw [hc.bucket_eq, hc.client.found, Option.map_some]
    rw [hkeysFrom ha, hkeysFrom hb, hlisted]

theorem twins_of_lacks (ha : Lacks fails bucket keyPrefix a) (hb : Lacks fails bucket keyPrefix b) :
    Twins bucket keyPrefix [] (Sighted.steady a) (Sighted.steady b) := by
  have hnone {α : Type} {c : Objects} (hc : Lacks fails bucket keyPrefix c) (f : Keyed ByteArray → α) :
      (Keyed.find? c.bucket c.client.buckets).map f = none := by
    rw [hc.bucket_eq, hc.missing, Option.map_none]
  exact {
    bucket_eq := ⟨ha.bucket_eq,hb.bucket_eq⟩
    prefix_eq := ⟨ha.prefix_eq,hb.prefix_eq⟩
    works := fun _ _ => ⟨rfl,rfl⟩
    bodies := fun _ _ => (hnone ha _).trans (hnone hb _).symm
    sidecars := fun _ => (hnone ha _).trans (hnone hb _).symm }

/-- Bodies apart, everything is found as it was. -/
structure SameTree (store after : Objects) : Prop where
  info : ∀ path, (Storage.sight path after).1 = (Storage.sight path store).1
  listing : ∀ path, listing path after = listing path store
  numbers : numbers after = numbers store

theorem Twins.sameTree (h : Twins bucket keyPrefix keys (Sighted.steady after) (Sighted.steady store))
    (hkeys : Bodily keyPrefix keys) : SameTree store after where
  info _ := (agrees_load hkeys _ _ _ h).1
  listing path := (agrees_listPath hkeys path _ _ h).1
  numbers := (agrees_statsOf hkeys _ _ h).1

private theorem loaded_eq_ok (h : Stocks fails bucket keyPrefix objects store) (hn : Path.Named names) (node : Node) :
    loaded store (bodyAt store (store.nodeKey (Path.ofSegments names))) = .ok (some node) ↔
      nodeAt keyPrefix objects names = some node := by
  rw [nodeKey, key_eq, h.prefix_eq, h.bodyAt, loaded, nodeAt, if_pos hn]
  cases Keyed.find? (keyIn keyPrefix "nodes" (Path.ofSegments names)) objects with
  | none => simp
  | some body =>
    simp only [Option.elim_some, Option.bind_some]
    cases Node.ofJson (Text.decodeLossy body) <;> simp [Except.toOption]

/-! ### Calls that fail -/

/-- What may be read where a call has failed, and the request that must have failed for it. -/
inductive Residue (bucket keyPrefix : String) : Storage.Operation → List String → String → Request → Prop where
  | write (path content : String) : Residue bucket keyPrefix (.write path content) (Path.segments path) content
    (nodePut bucket keyPrefix (Path.segments path))
  | delete (path : String) : Residue bucket keyPrefix (.delete path) (Path.segments path) ""
    (nodeDelete bucket keyPrefix (Path.segments path))

/-- The second bucket is the first but for the body at a chain of names. -/
structure Rebodied (keyPrefix : String) (names : List String) (before after : Keyed ByteArray) : Prop where
  rising : after.Rising
  same : ∀ key, key ≠ keyIn keyPrefix "content" (Path.ofSegments names) → Keyed.find? key after = Keyed.find? key before

private theorem rebodied_insertText (h : objects.Rising) (names : List String) (text : String) :
    Rebodied keyPrefix names objects (insertText keyPrefix names text objects) where
  rising := h.insert _ _
  same key hk := by rw [insertText, Keyed.find?_insert, if_neg hk.symm]

private theorem rebodied_eraseText (h : objects.Rising) (names : List String) :
    Rebodied keyPrefix names objects (eraseText keyPrefix names objects) where
  rising := h.erase _
  same _ hk := Keyed.find?_erase_ne hk.symm

private theorem textAt_eraseText_self (h : objects.Rising) (names : List String) :
    textAt keyPrefix (eraseText keyPrefix names objects) names = "" := by
  rw [textAt, eraseText, h.find?_erase, if_pos rfl]
  exact Text.decodeLossy_toUTF8 ""

/-- A call that fails leaves the objects as they are, or it leaves another body: one that is not read, or one of a
file of which the sidecar was to come last. -/
private theorem run_leaves (hs : Stocks fails bucket keyPrefix objects store) (hrising : objects.Rising) (now : Timestamp)
    {call : Storage.Operation} (hsetUp : call ≠ .setUp) (hcleanup : call ≠ .cleanup) {e : StorageError}
    (he : (call.run now).on store = (.error e, after)) :
    Stocks fails bucket keyPrefix objects after ∨ ∃ names left, Path.Named names ∧ Rebodied keyPrefix names objects left ∧
      Stocks fails bucket keyPrefix left after ∧ (nodeAt keyPrefix objects names = none ∨ ∃ node request,
        nodeAt keyPrefix objects names = some node ∧ node.isDir = false ∧ Client.Refused fails request ∧
        Residue bucket keyPrefix call names (textAt keyPrefix left names) request) := by
  have hnamed (path : String) := Path.named_segments path
  cases call with
  | setUp => exact absurd rfl hsetUp
  | cleanup => exact absurd rfl hcleanup
  | info path =>
    have hload := on_map_error he
    change (load (Path.normalize path)).on store = _ at hload
    rw [Path.normalize_eq] at hload
    exact .inl ((load_ends hs (hnamed path)).of_error hload).1
  | list path => exact .inl ((list_ends hs path).of_error (on_map_error he)).1
  | read path => exact .inl ((read_ends hs path).of_error (on_map_error he)).1
  | stats => exact .inl ((stats_ends hs).of_error (on_map_error he)).1
  | touch path => exact .inl ((touch_ends hs now path).of_error (on_map_error he)).1
  | create node =>
    obtain h | ⟨⟨hc,_⟩,h,_⟩ := (create_ends hs node).of_error (on_map_error he)
    · exact .inl h.1
    · have htarget : Path.Named node.target := Path.named_concat.mpr ⟨hnamed _,hc.1⟩
      exact .inr ⟨node.target,_,htarget,rebodied_insertText hrising _ _,h,.inl hc.2.1⟩
  | write path content =>
    obtain h | ⟨⟨node,hn,hfile⟩,h,hrefused⟩ := (write_ends hs now path content).of_error (on_map_error he)
    · exact .inl h.1
    · refine .inr ⟨_,_,hnamed path,rebodied_insertText hrising _ _,h,.inr ⟨node,_,hn,hfile,hrefused,?_⟩⟩
      rw [textAt_insertText (hnamed path) content (hnamed path), if_pos rfl]
      exact .write path content
  | delete path =>
    obtain h | ⟨⟨node,hr,hfile⟩,h,hrefused⟩ := (delete_ends hs path).of_error (on_map_error he)
    · exact .inl h.1
    · refine .inr ⟨_,_,hnamed path,rebodied_eraseText hrising _,h,.inr ⟨node,_,hr.2.1,hfile,hrefused,?_⟩⟩
      rw [textAt_eraseText_self hrising]
      exact .delete path

/-- Everything is found as it was, but for one case: the last request of a write or of a deletion was refused, and what
is read at its path is what was to be written, or an empty text. -/
structure SameBut (call : Storage.Operation) (store after : Objects) : Prop extends SameTree store after where
  read : ∀ path, (Storage.sight path after).2 = (Storage.sight path store).2 ∨ ∃ content request,
    Residue store.bucket store.keyPrefix call (Path.segments path) content request ∧
      Client.Refused store.client.fails request ∧ (Storage.sight path after).2 = .ok (some content)

private theorem bodily_nil : Bodily keyPrefix [] := by simp [Bodily]

private theorem bodily_content (path : String) : Bodily keyPrefix [keyIn keyPrefix "content" path] := by
  intro key hk hp
  obtain rfl := List.mem_singleton.mp hk
  exact content_not_nodes path hp

/-- What is read of a file is its body. -/
private theorem sight_of_file (h : Stocks fails bucket keyPrefix objects store) {path : String} {node : Node}
    (hn : nodeAt keyPrefix objects (Path.segments path) = some node) (hfile : node.isDir = false) :
    (Storage.sight path store).2 = .ok (some (textAt keyPrefix objects (Path.segments path))) := by
  have hloaded := (loaded_eq_ok h (Path.named_segments path) node).mpr hn
  rw [sight_eq, Path.normalize_eq]
  dsimp only
  rw [hloaded, contentKey, key_eq, h.prefix_eq, h.bodyAt, readFrom, hfile]
  rfl

private theorem sameBut_of_twins {call : Storage.Operation} (h : Twins bucket keyPrefix [] (Sighted.steady after) (Sighted.steady store)) :
    SameBut call store after :=
  ⟨h.sameTree bodily_nil,fun _ => .inl (h.read bodily_nil (by simp))⟩

private theorem sameBut_of_rebodied {call : Storage.Operation} {left : Keyed ByteArray}
    (hs : Stocks store.client.fails store.bucket store.keyPrefix objects store) (hrising : objects.Rising)
    (hn : Path.Named names) (hbody : Rebodied store.keyPrefix names objects left)
    (hafter : Stocks store.client.fails store.bucket store.keyPrefix left after)
    (hcase : nodeAt store.keyPrefix objects names = none ∨ ∃ node request, nodeAt store.keyPrefix objects names = some node ∧
      node.isDir = false ∧ Client.Refused store.client.fails request ∧
      Residue store.bucket store.keyPrefix call names (textAt store.keyPrefix left names) request) :
    SameBut call store after := by
  have hbodily : Bodily store.keyPrefix [keyIn store.keyPrefix "content" (Path.ofSegments names)] := bodily_content _
  have htwins := twins_of_stocks hafter hs hbody.rising hrising hbodily fun key hk =>
    hbody.same key fun he => hk (List.mem_singleton.mpr he)
  have hnode : nodeAt store.keyPrefix left names = nodeAt store.keyPrefix objects names := by
    rw [nodeAt, nodeAt, hbody.same _ (nodes_ne_content _ _)]
  refine ⟨htwins.sameTree hbodily,fun path => ?_⟩
  by_cases hpath : Path.segments path = names
  · subst hpath
    obtain hnone | ⟨node,request,hsome,hfile,hrefused,hresidue⟩ := hcase
    · refine .inl (htwins.read hbodily fun _ node hl => ?_)
      rw [Path.normalize_eq] at hl
      have hfound := (loaded_eq_ok hafter hn node).mp hl
      rw [hnode, hnone] at hfound
      simp at hfound
    · exact .inr ⟨_,request,hresidue,hrefused,sight_of_file hafter (hnode.trans hsome) hfile⟩
  · refine .inl (htwins.read hbodily fun hm => absurd ?_ hpath)
    have hkey := keyIn_inj.mp (List.mem_singleton.mp hm)
    rw [Path.normalize_eq] at hkey
    exact (Path.ofSegments_inj hn (Path.named_segments path)).mp hkey.symm |>.symm

/-- A call that fails, whichever requests failed in it, leaves everything to be found as it was, but for what may be read
at the path of a write or of a deletion whose last request was refused. -/
theorem failed_sameBut (hrising : ∀ objects, Keyed.find? store.bucket store.client.buckets = some objects → objects.Rising)
    (now : Timestamp) {call : Storage.Operation} (hsetUp : call ≠ .setUp) (hcleanup : call ≠ .cleanup) {e : StorageError}
    (he : (call.run now).on store = (.error e, after)) : SameBut call store after := by
  cases hb : Keyed.find? store.bucket store.client.buckets with
  | none =>
    have hlacks : Lacks store.client.fails store.bucket store.keyPrefix store := ⟨rfl,rfl,rfl,hb⟩
    have hafter := lacks_run now hsetUp store hlacks
    rw [he] at hafter
    exact sameBut_of_twins (twins_of_lacks hafter hlacks)
  | some objects =>
    have hs : Stocks store.client.fails store.bucket store.keyPrefix objects store := ⟨rfl,rfl,rfl,hb⟩
    obtain hsame | ⟨names,left,hn,hbody,hafter,hcase⟩ := run_leaves hs (hrising objects hb) now hsetUp hcleanup he
    · exact sameBut_of_twins (twins_of_stocks hsame hs (hrising objects hb) (hrising objects hb) bodily_nil fun _ _ => rfl)
    · exact sameBut_of_rebodied hs (hrising objects hb) hn hbody hafter hcase

/-- A store with a text in the file `/f`; the next request for its sidecar to be put is refused. -/
def jammed : Objects :=
  let file := { Node.file 1 "f" "/" with size := some 3 }
  let objects := [("content/f","old".toUTF8),("nodes/",(Node.root 0).toJson.toUTF8),("nodes/f",file.toJson.toUTF8)]
  ⟨⟨[("v",objects)],0,fun _ request => request = .put "v" "nodes/f"⟩,"v",""⟩

/-- The write fails, and yet the text is replaced. -/
theorem failed_write_replaces : ((writePath 3 "/f" "new").on jammed).1 = .error (.backend "put_object failed") ∧
    (Storage.sight "/f" jammed).2 = .ok (some "old") ∧
    (Storage.sight "/f" ((writePath 3 "/f" "new").on jammed).2).2 = .ok (some "new") := by
  decide +kernel

theorem jammed_sameBut : SameBut (.write "/f" "new") jammed (Storage.Operation.after 3 (.write "/f" "new") jammed) := by
  have hrising : ∀ objects ∈ Keyed.find? jammed.bucket jammed.client.buckets, objects.Rising := by
    unfold Keyed.Rising
    decide +kernel
  have herror : (((Storage.Operation.write "/f" "new").run 3).on jammed).1 = .error (.backend "put_object failed") := by
    decide +kernel
  refine failed_sameBut hrising 3 (by simp) (by simp) (Prod.ext herror ?_)
  rw [Storage.Operation.after]

end VirtualShell.Objects
