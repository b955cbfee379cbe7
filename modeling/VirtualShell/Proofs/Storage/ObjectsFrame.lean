import VirtualShell.Proofs.Storage.Frame
import VirtualShell.Proofs.Storage.Objects

/-!
Where the calls of the store over an object service may change something. A request that fails has no effect, so
whatever a call leaves behind lies under the two keys of its path.
-/
namespace VirtualShell.Objects
open Storing

instance : Sighted Objects where
  InOrder _ := True
  steady store := { store with client := { store.client with fails := fun _ _ => false } }

/-- What is under a key of the bucket, if there is a bucket. -/
def bodyAt (store : Objects) (key : String) : Option (Option ByteArray) :=
  (Keyed.find? store.bucket store.client.buckets).map (Keyed.find? key)

theorem Stocks.bodyAt {fails : Nat → Request → Bool} {bucket keyPrefix : String} {objects : Keyed ByteArray} {store : Objects}
    (h : Stocks fails bucket keyPrefix objects store) (key : String) :
    bodyAt store key = some (Keyed.find? key objects) := by
  rw [Objects.bodyAt, h.bucket_eq, h.client.found, Option.map_some]

def missing (store : Objects) : StorageError := .backend ("NoSuchBucket: " ++ store.bucket)

def ticked (store : Objects) : Objects :=
  { store with client := { store.client with requests := store.client.requests + 1 } }

theorem on_fetch {store : Objects} (h : ∀ n request, store.client.fails n request = false) (key : String) :
    (request (Client.fetch store.bucket key)).on store =
      ((bodyAt store key).elim (.error (missing store)) .ok, ticked store) := by
  rw [request, on_within, bodyAt]
  cases hb : Keyed.find? store.bucket store.client.buckets with
  | none => simp [Client.fetch, Client.attempt, Client.objects, on_bind, h, hb, missing, ticked]
  | some objects => simp [Client.fetch, Client.attempt, Client.objects, on_bind, h, hb, ticked]

/-- The keys of the bucket that start with a text, if there is a bucket. -/
def keysFrom (store : Objects) (start : String) : Option (List String) :=
  (Keyed.find? store.bucket store.client.buckets).map fun objects => (Client.startingWith start objects).keys

theorem on_list {store : Objects} (h : ∀ n request, store.client.fails n request = false) (start : String) :
    (request (Client.list store.bucket start)).on store =
      ((keysFrom store start).elim (.error (missing store)) .ok, ticked store) := by
  rw [request, on_within, keysFrom]
  cases hb : Keyed.find? store.bucket store.client.buckets with
  | none => simp [Client.list, Client.summaries, Client.attempt, Client.objects, on_bind, h, hb, missing, ticked]
  | some objects =>
    simp [Client.list, Client.summaries, Client.attempt, Client.objects, on_bind, h, hb, ticked, Keyed.keys, Function.comp_def,
      Summary.of]

/-- What is loaded from a sidecar. -/
def loaded (store : Objects) (found : Option (Option ByteArray)) : Except StorageError (Option Node) :=
  found.elim (.error (missing store)) fun body => body.elim (.ok none) fun body =>
    match Node.ofJson (Text.decodeLossy body) with
    | .ok node => .ok (some node)
    | .error e => .error (.serialization e.message)

private theorem on_load {store : Objects} (h : ∀ n request, store.client.fails n request = false) (path : String) :
    (load path).on store = (loaded store (bodyAt store (store.nodeKey path)), ticked store) := by
  rw [load, on_bind_ok (on_get store), on_bind, on_fetch h]
  rcases bodyAt store (store.nodeKey path) with _ | _ | body
  · rfl
  · rfl
  · simp only [Option.elim_some, decode, loaded]
    cases Node.ofJson (Text.decodeLossy body) <;> rfl

/-- What is read from a sidecar and a body. -/
def readFrom (store : Objects) (node : Except StorageError (Option Node)) (found : Option (Option ByteArray)) :
    Except StorageError (Option String) :=
  match node with
  | .error e => .error e
  | .ok none => .ok none
  | .ok (some node) =>
    if node.isDir then .ok none
    else found.elim (.error (missing store)) fun body => .ok (some (Text.decodeLossy (body.getD .empty)))

theorem on_read {store : Objects} (h : ∀ n request, store.client.fails n request = false) (path : String) :
    ((readPath path).on store).1 =
      readFrom store (loaded store (bodyAt store (store.nodeKey (Path.normalize path))))
        (bodyAt store (store.contentKey (Path.normalize path))) := by
  rw [readPath, on_bind, on_load h]
  rcases loaded store (bodyAt store (store.nodeKey (Path.normalize path))) with e | _ | node
  · rfl
  · rfl
  · simp only [readFrom]
    split
    · rfl
    · rw [on_bind_ok (on_get _), on_bind]
      have hworks : ∀ n request, (ticked store).client.fails n request = false := h
      have hfetch := on_fetch hworks ((ticked store).contentKey (Path.normalize path))
      have hbody : bodyAt (ticked store) ((ticked store).contentKey (Path.normalize path)) =
        bodyAt store (store.contentKey (Path.normalize path)) := rfl
      rw [hfetch, hbody]
      cases bodyAt store (store.contentKey (Path.normalize path)) <;> rfl

theorem sight_eq (path : String) (store : Objects) :
    Storage.sight path store =
      let node := loaded store (bodyAt store (store.nodeKey (Path.normalize path)))
      (node, readFrom store node (bodyAt store (store.contentKey (Path.normalize path)))) := by
  have hworks : ∀ n request, (Sighted.steady store).client.fails n request = false := fun _ _ => rfl
  refine Prod.ext ?_ ?_
  · change ((load (Path.normalize path)).on (Sighted.steady store)).1 = _
    rw [on_load hworks]
    rfl
  · exact on_read hworks path

/-- The same store, but for the bodies under some keys. -/
private structure Apart (keys : List String) (start store : Objects) : Prop where
  bucket_eq : store.bucket = start.bucket
  prefix_eq : store.keyPrefix = start.keyPrefix
  same : ∀ key ∉ keys, bodyAt store key = bodyAt start key

private theorem Apart.sight {keys : List String} {start store : Objects} (h : Apart keys start store) {path : String}
    (hnode : start.nodeKey (Path.normalize path) ∉ keys) (hcontent : start.contentKey (Path.normalize path) ∉ keys) :
    Storage.sight path store = Storage.sight path start := by
  have hkey (kind path : String) : store.key kind path = start.key kind path := by rw [key_eq, key_eq, h.prefix_eq]
  have hmissing : missing store = missing start := by rw [missing, missing, h.bucket_eq]
  rw [sight_eq, sight_eq, nodeKey, contentKey, hkey, hkey]
  simp only [loaded, readFrom, hmissing]
  rw [← nodeKey, ← contentKey, h.same _ hnode, h.same _ hcontent]

variable {keys : List String}

section client
variable {bucket : String} {before : String → Option (Option ByteArray)}

/-- What is under all but some keys of a bucket. -/
private def Finds (bucket : String) (keys : List String) (before : String → Option (Option ByteArray)) (client : Client) : Prop :=
  ∀ key ∉ keys, (Keyed.find? bucket client.buckets).map (Keyed.find? key) = before key

private theorem preserves_attempt {α : Type} {req : Request} {act : Storing Client α} (h : Preserves (Finds bucket keys before) act) :
    Preserves (Finds bucket keys before) (Client.attempt req act) :=
  .get_bind fun _ hc => .bind (fun _ _ => hc) fun _ => .ite (.throw _) h

private theorem preserves_objects : Preserves (Finds bucket keys before) (Client.objects bucket) := by
  refine .get_bind fun client hc => ?_
  split
  · exact .pure _
  · exact .throw _

/-- Changing a bucket whose objects are known. -/
private theorem preserves_changing (change : Keyed ByteArray → Keyed ByteArray)
    (h : ∀ objects, ∀ key ∉ keys, Keyed.find? key (change objects) = Keyed.find? key objects) :
    Preserves (Finds bucket keys before) (do Client.store bucket (change (← Client.objects bucket))) := by
  refine preserves_objects.bind_of fun objects client _ hc he _ _ key hk => ?_
  have hfound : Keyed.find? bucket client.buckets = some objects := by
    cases hb : Keyed.find? bucket client.buckets with
    | none => simp [Client.objects, on_bind, hb] at he
    | some found =>
      obtain ⟨hf,_⟩ : found = objects ∧ _ := by simpa [Client.objects, on_bind, hb] using he
      rw [hf]
  have hbefore := hc key hk
  rw [hfound] at hbefore
  simpa [Client.store, Keyed.find?_insert, h objects key hk] using hbefore

end client

variable {start : Objects}

private theorem preserves_request {α : Type} {act : Storing Client α}
    (h : Preserves (Finds start.bucket keys (bodyAt start)) act) : Preserves (Apart keys start) (request act) := by
  refine h.within (fun store hs key hk => ?_) fun store client hs hc => ⟨hs.bucket_eq,hs.prefix_eq,fun key hk => ?_⟩
  · rw [← hs.bucket_eq]
    exact hs.same key hk
  · refine Eq.trans ?_ (hc key hk)
    rw [bodyAt, hs.bucket_eq]

/-! ### Invariants that requests keep -/

/-- An invariant of a store is kept by requests that look at its bucket and by changes of some keys. -/
structure Admits (bucket keyPrefix : String) (keys : List String) (inv : Objects → Prop) : Prop where
  bucket_eq : ∀ store, inv store → store.bucket = bucket
  prefix_eq : ∀ store, inv store → store.keyPrefix = keyPrefix
  fetch (key : String) : Preserves inv (request (Client.fetch bucket key))
  list (start : String) : Preserves inv (request (Client.list bucket start))
  put (key : String) (body : ByteArray) : key ∈ keys → Preserves inv (request (Client.put bucket key body))
  erase (key : String) : key ∈ keys → Preserves inv (request (Client.delete bucket key))

/-- The two keys of a path. -/
def keysOf (keyPrefix path : String) : List String := [keyIn keyPrefix "nodes" path, keyIn keyPrefix "content" path]

namespace Admits
variable {bucket keyPrefix : String} {keys : List String} {inv : Objects → Prop}

private theorem decode (body : ByteArray) : Preserves inv (Objects.decode body) := by
  unfold Objects.decode
  split
  · exact .pure _
  · exact .throw _

theorem load (h : Admits bucket keyPrefix keys inv) (path : String) : Preserves inv (Objects.load path) := by
  refine .get_bind fun store hs => ?_
  rw [h.bucket_eq store hs]
  refine (h.fetch _).bind fun found => ?_
  cases found with
  | none => exact .pure _
  | some body => exact (decode body).bind fun _ => .pure _

private theorem putNode {path : String} (h : Admits bucket keyPrefix (keysOf keyPrefix path) inv) (node : Node) :
    Preserves inv (Objects.putNode path node) := by
  refine .get_bind fun store hs => ?_
  rw [h.bucket_eq store hs, nodeKey, key_eq, h.prefix_eq store hs]
  exact h.put _ _ (by simp [keysOf])

private theorem putContent {path : String} (h : Admits bucket keyPrefix (keysOf keyPrefix path) inv) (content : String) :
    Preserves inv (Objects.putContent path content) := by
  refine .get_bind fun store hs => ?_
  rw [h.bucket_eq store hs, contentKey, key_eq, h.prefix_eq store hs]
  exact h.put _ _ (by simp [keysOf])

private theorem children (h : Admits bucket keyPrefix keys inv) (dir : String) : Preserves inv (Objects.children dir) := by
  refine .get_bind fun store hs => ?_
  rw [h.bucket_eq store hs]
  exact (h.list _).bind fun _ => .pure _

private theorem survey (h : Admits bucket keyPrefix keys inv) (found : List String) (stats : StorageStats) :
    Preserves inv (Objects.survey bucket found stats) := by
  induction found generalizing stats with
  | nil => exact .pure _
  | cons key rest ih =>
    refine (h.fetch key).bind fun body => ?_
    cases body with
    | none => exact ih _
    | some body => exact (decode body).bind fun _ => ih _

theorem createNode {node : Node} (h : Admits bucket keyPrefix (keysOf keyPrefix (Path.normalize node.path)) inv) :
    Preserves inv (Objects.createNode node) := by
  by_cases hname : Path.isName node.name = true
  · refine .bind (.ite (.pure _) ?_) fun can => .ite (.pure _) ?_
    · refine (h.load _).bind fun taken => .ite (.pure _) ((h.load _).bind fun parent => ?_)
      cases parent <;> exact .pure _
    · dsimp only
      rw [Node.path_placed hname]
      exact .ite ((h.putNode _).bind fun _ => .pure _) ((h.putContent _).bind fun _ => (h.putNode _).bind fun _ => .pure _)
  · have hno : Objects.createNode node = pure false := by
      simp [Objects.createNode, canCreate, hname]
    rw [hno]
    exact .pure false

theorem writePath {path : String} (h : Admits bucket keyPrefix (keysOf keyPrefix (Path.normalize path)) inv) (now : Timestamp)
    (content : String) : Preserves inv (Objects.writePath now path content) := by
  refine (h.load _).bind fun found => ?_
  cases found with
  | none => exact .pure _
  | some node => exact .ite (.pure _) ((h.putContent _).bind fun _ => (h.putNode _).bind fun _ => .pure _)

theorem readPath (h : Admits bucket keyPrefix keys inv) (path : String) : Preserves inv (Objects.readPath path) := by
  refine (h.load _).bind fun found => ?_
  cases found with
  | none => exact .pure _
  | some node =>
    refine .ite (.pure _) (.get_bind fun store hs => ?_)
    rw [h.bucket_eq store hs]
    exact (h.fetch _).bind fun _ => .pure _

theorem deletePath {path : String} (h : Admits bucket keyPrefix (keysOf keyPrefix (Path.normalize path)) inv) :
    Preserves inv (Objects.deletePath path) := by
  refine .ite (.pure _) ((h.load _).bind fun found => ?_)
  cases found with
  | none => exact .pure _
  | some node =>
    refine .get_bind fun store hs => ?_
    rw [h.bucket_eq store hs, nodeKey, contentKey, key_eq, key_eq, h.prefix_eq store hs]
    have hnode : Preserves inv (do
        request (Client.delete bucket (keyIn keyPrefix "nodes" (Path.normalize path)))
        return true) := (h.erase _ (by simp [keysOf])).bind fun _ => .pure _
    refine .ite ((h.children _).bind fun _ => .ite (.pure _) hnode) ?_
    exact (h.erase _ (by simp [keysOf])).bind fun _ => hnode

theorem touchPath {path : String} (h : Admits bucket keyPrefix (keysOf keyPrefix (Path.normalize path)) inv) (now : Timestamp) :
    Preserves inv (Objects.touchPath now path) := by
  refine (h.load _).bind fun found => ?_
  cases found with
  | none => exact .pure _
  | some node => exact (h.putNode _).bind fun _ => .pure _

theorem listPath (h : Admits bucket keyPrefix keys inv) (path : String) : Preserves inv (Objects.listPath path) := by
  refine (h.load _).bind fun found => ?_
  cases found with
  | none => exact .pure _
  | some node => exact .ite (h.children _) (.pure _)

theorem statsOf (h : Admits bucket keyPrefix keys inv) : Preserves inv Objects.statsOf := by
  refine .get_bind fun store hs => ?_
  rw [h.bucket_eq store hs]
  exact (h.list _).bind fun _ => h.survey _ _

end Admits

/-! ### Frames -/

private theorem admits_apart (start : Objects) : Admits start.bucket start.keyPrefix keys (Apart keys start) where
  bucket_eq _ h := h.bucket_eq
  prefix_eq _ h := h.prefix_eq
  fetch _ := preserves_request (preserves_attempt (preserves_objects.bind fun _ => .pure _))
  list _ := preserves_request ((preserves_attempt (preserves_objects.bind fun _ => .pure _)).bind fun _ => .pure _)
  put key body hk := preserves_request (preserves_attempt (preserves_changing (Keyed.insert key body) fun objects k hk' => by
    rw [Keyed.find?_insert, if_neg (ne_of_mem_of_not_mem hk hk')]))
  erase key hk := preserves_request (preserves_attempt (preserves_changing (Keyed.erase key) fun _ _ hk' =>
    Keyed.find?_erase_ne (ne_of_mem_of_not_mem hk hk')))

private theorem confined_path {α : Type} {act : Storing Objects α} {path : String}
    (h : ∀ {bucket keyPrefix inv}, Admits bucket keyPrefix (keysOf keyPrefix (Path.normalize path)) inv → Preserves inv act) :
    Confined {Path.segments path} act := by
  refine fun store _ => ⟨trivial,fun other ho => ?_⟩
  have hne : Path.normalize other ≠ Path.normalize path := fun he => ho ((Path.normalize_eq_iff _ _).mp he)
  refine (h (admits_apart store) store ⟨rfl,rfl,fun _ _ => rfl⟩).sight ?_ ?_
  · simp only [keysOf, nodeKey, key_eq, List.mem_cons, List.not_mem_nil, or_false, not_or, keyIn_inj]
    exact ⟨hne,nodes_ne_content _ _⟩
  · simp only [keysOf, contentKey, key_eq, List.mem_cons, List.not_mem_nil, or_false, not_or, keyIn_inj]
    exact ⟨(nodes_ne_content _ _).symm,hne⟩

private theorem confined_nowhere {α : Type} {act : Storing Objects α}
    (h : ∀ {bucket keyPrefix inv}, Admits bucket keyPrefix [] inv → Preserves inv act) : Confined ∅ act :=
  fun store _ => ⟨trivial,fun _ _ => (h (admits_apart store) store ⟨rfl,rfl,fun _ _ => rfl⟩).sight (by simp) (by simp)⟩

instance : Framed Objects where
  setUp _ _ _ := trivial
  info _ := confined_nowhere fun h => h.load _
  create _ := confined_path fun h => h.createNode
  list path := confined_nowhere fun h => h.listPath path
  write now _ content := confined_path fun h => h.writePath now content
  read path := confined_nowhere fun h => h.readPath path
  delete _ := confined_path fun h => h.deletePath
  touch now _ := confined_path fun h => h.touchPath now
  stats := confined_nowhere fun h => h.statsOf
  cleanup _ _ := trivial

end VirtualShell.Objects
