import VirtualShell.Proofs.Node.RoundTrip
import VirtualShell.Proofs.Storage.Client
import VirtualShell.Proofs.Storage.View
import VirtualShell.Storage.Objects

/-!
What the calls of the store over an object service come to, whatever requests fail on the way. A node is where its
sidecar is; the body of a file is put before its sidecar and taken before it, so a call that fails between the two
leaves the sidecar as it was.
-/
namespace VirtualShell.Objects
open Storing

/-! ### Keys -/

/-- The key of a path under a prefix of keys. -/
def keyIn (keyPrefix kind path : String) : String :=
  (if keyPrefix.isEmpty then "" else keyPrefix ++ "/") ++ kind ++ path

theorem key_eq (objects : Objects) (kind path : String) : objects.key kind path = keyIn objects.keyPrefix kind path := by
  rw [key, keyIn]
  split <;> simp [String.append_assoc]

variable {keyPrefix : String}

theorem keyIn_inj {kind a b : String} : keyIn keyPrefix kind a = keyIn keyPrefix kind b ↔ a = b := by
  rw [← String.toList_inj]
  simp [keyIn, String.toList_inj]

theorem keyIn_append (kind a b : String) : keyIn keyPrefix kind (a ++ b) = keyIn keyPrefix kind a ++ b := by
  simp [keyIn, String.append_assoc]

theorem content_not_nodes (path : String) :
    ¬ (keyIn keyPrefix "nodes" "").toList <+: (keyIn keyPrefix "content" path).toList := by
  simp [keyIn, List.prefix_append_right_inj]

theorem nodes_ne_content (a b : String) : keyIn keyPrefix "nodes" a ≠ keyIn keyPrefix "content" b := by
  intro h
  apply @content_not_nodes keyPrefix b
  rw [← h]
  exact ⟨a.toList,by rw [← String.toList_append, ← keyIn_append]; simp⟩

/-! ### What a bucket holds -/

/-- The metadata at a chain of names. -/
def nodeAt (keyPrefix : String) (objects : Keyed ByteArray) (names : List String) : Option Node :=
  if Path.Named names then
    (Keyed.find? (keyIn keyPrefix "nodes" (Path.ofSegments names)) objects).bind fun body =>
      (Node.ofJson (Text.decodeLossy body)).toOption
  else none

/-- The text at a chain of names; empty without one. -/
def textAt (keyPrefix : String) (objects : Keyed ByteArray) (names : List String) : String :=
  Text.decodeLossy ((Keyed.find? (keyIn keyPrefix "content" (Path.ofSegments names)) objects).getD .empty)

def itemOf (node : Node) (text : String) : Item := if node.isDir then .dir else .file text

def viewOf (keyPrefix : String) (objects : Keyed ByteArray) : View := fun names =>
  (nodeAt keyPrefix objects names).map fun node => itemOf node (textAt keyPrefix objects names)

/-- Keys rise, and whatever has the key of a sidecar is one. Nothing is said about other bodies. -/
structure Tidy (keyPrefix : String) (objects : Keyed ByteArray) : Prop where
  rising : objects.Rising
  known : ∀ key body, (key, body) ∈ objects → (keyIn keyPrefix "nodes" "").toList <+: key.toList →
    ∃ names, ∃ node : Node, Path.Named names ∧ key = keyIn keyPrefix "nodes" (Path.ofSegments names) ∧
      body = node.toJson.toUTF8

variable {objects : Keyed ByteArray} {names : List String}

private theorem decoded (node : Node) : Node.ofJson (Text.decodeLossy node.toJson.toUTF8) = .ok node := by
  rw [Text.decodeLossy_toUTF8, Node.ofJson_toJson]

theorem starts_with (kind path : String) :
    (keyIn keyPrefix kind "").toList <+: (keyIn keyPrefix kind path).toList :=
  ⟨path.toList,by rw [← String.toList_append, ← keyIn_append]; simp⟩

/-- Every sidecar can be read. -/
private theorem Tidy.decodes (h : Tidy keyPrefix objects) {key : String} {body : ByteArray} {e : JsonError}
    (hf : Keyed.find? key objects = some body) (hkey : (keyIn keyPrefix "nodes" "").toList <+: key.toList) :
    Node.ofJson (Text.decodeLossy body) ≠ .error e := by
  obtain ⟨_,node,_,_,rfl⟩ := h.known _ _ (Keyed.mem_of_find? hf) hkey
  rw [decoded]
  simp

/-- A node is found just where its sidecar is. -/
theorem Tidy.nodeAt_eq_some_iff (h : Tidy keyPrefix objects) (hn : Path.Named names) {node : Node} :
    nodeAt keyPrefix objects names = some node ↔
      Keyed.find? (keyIn keyPrefix "nodes" (Path.ofSegments names)) objects = some node.toJson.toUTF8 := by
  rw [nodeAt, if_pos hn]
  constructor
  · intro hs
    obtain ⟨body,hb,hd⟩ := Option.bind_eq_some_iff.mp hs
    obtain ⟨_,other,_,_,rfl⟩ := h.known _ _ (Keyed.mem_of_find? hb) (starts_with _ _)
    rw [decoded] at hd
    rw [hb, Option.some.inj hd]
  · intro hs
    rw [hs, Option.bind_some, decoded]
    rfl

theorem named_of_nodeAt {node : Node} (h : nodeAt keyPrefix objects names = some node) : Path.Named names := by
  by_contra hn
  simp [nodeAt, hn] at h

/-! ### Changes of a bucket -/

def insertNode (keyPrefix : String) (names : List String) (node : Node) (objects : Keyed ByteArray) : Keyed ByteArray :=
  Keyed.insert (keyIn keyPrefix "nodes" (Path.ofSegments names)) node.toJson.toUTF8 objects

def insertText (keyPrefix : String) (names : List String) (text : String) (objects : Keyed ByteArray) : Keyed ByteArray :=
  Keyed.insert (keyIn keyPrefix "content" (Path.ofSegments names)) text.toUTF8 objects

def eraseNode (keyPrefix : String) (names : List String) (objects : Keyed ByteArray) : Keyed ByteArray :=
  Keyed.erase (keyIn keyPrefix "nodes" (Path.ofSegments names)) objects

def eraseText (keyPrefix : String) (names : List String) (objects : Keyed ByteArray) : Keyed ByteArray :=
  Keyed.erase (keyIn keyPrefix "content" (Path.ofSegments names)) objects

theorem Tidy.insertNode (h : Tidy keyPrefix objects) (hn : Path.Named names) (node : Node) :
    Tidy keyPrefix (insertNode keyPrefix names node objects) where
  rising := h.rising.insert _ _
  known key body hm hp := by
    rcases Keyed.mem_insert hm with he | hm
    · obtain ⟨rfl,rfl⟩ := Prod.mk.inj he
      exact ⟨names,node,hn,rfl,rfl⟩
    · exact h.known key body hm hp

theorem Tidy.insertText (h : Tidy keyPrefix objects) (names : List String) (text : String) :
    Tidy keyPrefix (insertText keyPrefix names text objects) where
  rising := h.rising.insert _ _
  known key body hm hp := by
    rcases Keyed.mem_insert hm with he | hm
    · obtain ⟨rfl,rfl⟩ := Prod.mk.inj he
      exact absurd hp (content_not_nodes _)
    · exact h.known key body hm hp

theorem Tidy.erase (h : Tidy keyPrefix objects) (key : String) : Tidy keyPrefix (Keyed.erase key objects) where
  rising := h.rising.erase key
  known k body hm hp := h.known k body ((Keyed.erase_sublist key objects).subset hm) hp

theorem nodeAt_insertNode (hn : Path.Named names) (node : Node) (other : List String) :
    nodeAt keyPrefix (insertNode keyPrefix names node objects) other =
      if other = names then some node else nodeAt keyPrefix objects other := by
  by_cases ho : Path.Named other
  · rw [nodeAt, if_pos ho, insertNode, Keyed.find?_insert]
    simp only [keyIn_inj, Path.ofSegments_inj hn ho, eq_comm (a := names)]
    split
    · rw [Option.bind_some, decoded]
      rfl
    · rw [nodeAt, if_pos ho]
  · rw [nodeAt, if_neg ho, nodeAt, if_neg ho, if_neg fun he : other = names => ho (he ▸ hn)]

theorem nodeAt_insertText (text : String) (other : List String) :
    nodeAt keyPrefix (insertText keyPrefix names text objects) other = nodeAt keyPrefix objects other := by
  rw [nodeAt, nodeAt, insertText, Keyed.find?_insert, if_neg (nodes_ne_content _ _).symm]

theorem nodeAt_eraseNode (h : objects.Rising) (hn : Path.Named names) (other : List String) :
    nodeAt keyPrefix (eraseNode keyPrefix names objects) other =
      if other = names then none else nodeAt keyPrefix objects other := by
  by_cases ho : Path.Named other
  · rw [nodeAt, if_pos ho, eraseNode, h.find?_erase]
    simp only [keyIn_inj, Path.ofSegments_inj hn ho, eq_comm (a := names)]
    split
    · rfl
    · rw [nodeAt, if_pos ho]
  · rw [nodeAt, if_neg ho, nodeAt, if_neg ho, ite_self]

theorem nodeAt_eraseText (h : objects.Rising) (other : List String) :
    nodeAt keyPrefix (eraseText keyPrefix names objects) other = nodeAt keyPrefix objects other := by
  rw [nodeAt, nodeAt, eraseText, h.find?_erase, if_neg (nodes_ne_content _ _).symm]

theorem textAt_insertNode (node : Node) (other : List String) :
    textAt keyPrefix (insertNode keyPrefix names node objects) other = textAt keyPrefix objects other := by
  rw [textAt, textAt, insertNode, Keyed.find?_insert, if_neg (nodes_ne_content _ _)]

theorem textAt_insertText (hn : Path.Named names) (text : String) {other : List String} (ho : Path.Named other) :
    textAt keyPrefix (insertText keyPrefix names text objects) other =
      if other = names then text else textAt keyPrefix objects other := by
  rw [textAt, insertText, Keyed.find?_insert]
  simp only [keyIn_inj, Path.ofSegments_inj hn ho, eq_comm (a := names)]
  split
  · rw [Option.getD_some, Text.decodeLossy_toUTF8]
  · rfl

theorem textAt_eraseNode (h : objects.Rising) (other : List String) :
    textAt keyPrefix (eraseNode keyPrefix names objects) other = textAt keyPrefix objects other := by
  rw [textAt, textAt, eraseNode, h.find?_erase, if_neg (nodes_ne_content _ _)]

theorem textAt_eraseText (h : objects.Rising) (hn : Path.Named names) {other : List String} (ho : Path.Named other)
    (hne : other ≠ names) : textAt keyPrefix (eraseText keyPrefix names objects) other = textAt keyPrefix objects other := by
  rw [textAt, textAt, eraseText, h.find?_erase, if_neg (by rw [keyIn_inj, Path.ofSegments_inj hn ho]; exact hne.symm)]

/-! ### Requests -/

/-- The store has its bucket with these objects, and requests fail as told. -/
structure Stocks (fails : Nat → Request → Bool) (bucket keyPrefix : String) (objects : Keyed ByteArray) (store : Objects) : Prop where
  bucket_eq : store.bucket = bucket
  prefix_eq : store.keyPrefix = keyPrefix
  client : Client.Stocks fails bucket objects store.client

/-- A call that came to an end before it changed anything: a request failed, or a sidecar could not be read. -/
def Halts (fails : Nat → Request → Bool) (bucket keyPrefix : String) (objects : Keyed ByteArray) (after : Objects) : Prop :=
  Stocks fails bucket keyPrefix objects after ∧ (Tidy keyPrefix objects → ∃ request, Client.Refused fails request)

variable {fails : Nat → Request → Bool} {bucket : String} {store : Objects}

private theorem request_ends {α : Type} {act : Storing Client α} {failed : Client → Prop} {wanted : α → Client → Prop}
    (h : act.Ends store.client failed wanted) : (request act).Ends store
      (fun after => after.bucket = store.bucket ∧ after.keyPrefix = store.keyPrefix ∧ failed after.client)
      fun a after => after.bucket = store.bucket ∧ after.keyPrefix = store.keyPrefix ∧ wanted a after.client := by
  cases he : act.on store.client with
  | mk result client =>
    rw [Ends, request, on_within, he]
    cases result with
    | error e => exact ⟨rfl,rfl,h.of_error he⟩
    | ok a => exact ⟨rfl,rfl,h.of_ok he⟩

/-- A request that fails leaves the bucket as it is. -/
private theorem refused_ends {α : Type} {act : Storing Client α} {refused : Request} {wanted : α → Client → Prop}
    (h : Stocks fails bucket keyPrefix objects store) (hact : act.Ends store.client
      (fun after => Client.Stocks fails bucket objects after ∧ Client.Refused fails refused) wanted) :
    (request act).Ends store (fun after => Stocks fails bucket keyPrefix objects after ∧ Client.Refused fails refused)
      fun a after => after.bucket = bucket ∧ after.keyPrefix = keyPrefix ∧ wanted a after.client :=
  (request_ends hact).mono
    (fun _ ⟨hb,hp,hc,hr⟩ => ⟨⟨hb.trans h.bucket_eq,hp.trans h.prefix_eq,hc⟩,hr⟩)
    fun _ _ ⟨hb,hp,hw⟩ => ⟨hb.trans h.bucket_eq,hp.trans h.prefix_eq,hw⟩

private theorem halts_of_refused {refused : Request} {after : Objects}
    (h : Stocks fails bucket keyPrefix objects after ∧ Client.Refused fails refused) : Halts fails bucket keyPrefix objects after :=
  ⟨h.1,fun _ => ⟨refused,h.2⟩⟩

theorem fetch_ends (h : Stocks fails bucket keyPrefix objects store) (key : String) :
    (request (Client.fetch bucket key)).Ends store (Halts fails bucket keyPrefix objects)
      fun found after => found = Keyed.find? key objects ∧ Stocks fails bucket keyPrefix objects after :=
  (refused_ends h (Client.fetch_ends h.client key)).mono (fun _ => halts_of_refused)
    fun _ _ ⟨hb,hp,hf,hc⟩ => ⟨hf,hb,hp,hc⟩

private theorem keys_ends (h : Stocks fails bucket keyPrefix objects store) (start : String) :
    (request (Client.list bucket start)).Ends store (Halts fails bucket keyPrefix objects)
      fun keys after => keys = (Client.startingWith start objects).keys ∧ Stocks fails bucket keyPrefix objects after :=
  (refused_ends h (Client.list_ends h.client start)).mono (fun _ => halts_of_refused)
    fun _ _ ⟨hb,hp,hk,hc⟩ => ⟨hk,hb,hp,hc⟩

private theorem put_ends (h : Stocks fails bucket keyPrefix objects store) (key : String) (body : ByteArray) :
    (request (Client.put bucket key body)).Ends store
      (fun after => Stocks fails bucket keyPrefix objects after ∧ Client.Refused fails (.put bucket key))
      fun _ => Stocks fails bucket keyPrefix (Keyed.insert key body objects) :=
  (refused_ends h (Client.put_ends h.client key body)).mono (fun _ hf => hf) fun _ _ ⟨hb,hp,hc⟩ => ⟨hb,hp,hc⟩

private theorem erase_ends (h : Stocks fails bucket keyPrefix objects store) (key : String) :
    (request (Client.delete bucket key)).Ends store
      (fun after => Stocks fails bucket keyPrefix objects after ∧ Client.Refused fails (.delete bucket key))
      fun _ => Stocks fails bucket keyPrefix (Keyed.erase key objects) :=
  (refused_ends h (Client.delete_ends h.client key)).mono (fun _ hf => hf) fun _ _ ⟨hb,hp,hc⟩ => ⟨hb,hp,hc⟩

private theorem key_of (h : store.keyPrefix = keyPrefix) (kind path : String) :
    store.key kind path = keyIn keyPrefix kind path := by
  rw [key_eq, h]

/-- The request for the sidecar of a chain of names to be put. -/
def nodePut (bucket keyPrefix : String) (names : List String) : Request :=
  .put bucket (keyIn keyPrefix "nodes" (Path.ofSegments names))

/-- The request for the sidecar of a chain of names to be deleted. -/
def nodeDelete (bucket keyPrefix : String) (names : List String) : Request :=
  .delete bucket (keyIn keyPrefix "nodes" (Path.ofSegments names))

theorem load_ends (h : Stocks fails bucket keyPrefix objects store) (hn : Path.Named names) :
    (load (Path.ofSegments names)).Ends store (Halts fails bucket keyPrefix objects) fun node after =>
      node = nodeAt keyPrefix objects names ∧ Stocks fails bucket keyPrefix objects after := by
  refine .get_bind ?_
  rw [h.bucket_eq, nodeKey, key_of h.prefix_eq]
  refine (fetch_ends h _).bind fun body after ⟨hf,h⟩ => ?_
  rw [nodeAt, if_pos hn, ← hf]
  cases body with
  | none => exact .pure ⟨rfl,h⟩
  | some body =>
    dsimp only [Option.bind_some]
    rw [decode]
    cases hd : Node.ofJson (Text.decodeLossy body) with
    | ok node => exact .pure ⟨rfl,h⟩
    | error e => exact .throw ⟨h,fun ht => (ht.decodes hf.symm (starts_with _ _) hd).elim⟩

private theorem putNode_ends (h : Stocks fails bucket keyPrefix objects store) (names : List String) (node : Node) :
    (putNode (Path.ofSegments names) node).Ends store
      (fun after => Stocks fails bucket keyPrefix objects after ∧ Client.Refused fails (nodePut bucket keyPrefix names))
      fun _ => Stocks fails bucket keyPrefix (insertNode keyPrefix names node objects) := by
  refine .get_bind ?_
  rw [h.bucket_eq, nodeKey, key_of h.prefix_eq]
  exact put_ends h _ _

private theorem putContent_ends (h : Stocks fails bucket keyPrefix objects store) (names : List String) (text : String) :
    (putContent (Path.ofSegments names) text).Ends store (Halts fails bucket keyPrefix objects)
      fun _ => Stocks fails bucket keyPrefix (insertText keyPrefix names text objects) := by
  refine .get_bind ?_
  rw [h.bucket_eq, contentKey, key_of h.prefix_eq]
  exact (put_ends h _ _).mono (fun _ => halts_of_refused) fun _ _ h => h

theorem childName?_eq_some_iff {start key name : String} :
    childName? start key = some name ↔ key = start ++ name ∧ name ≠ "" ∧ '/' ∉ name.toList := by
  simp only [childName?, Option.ite_none_right_eq_some, Bool.and_eq_true, List.isPrefixOf_iff_prefix, Option.some.injEq]
  constructor
  · rintro ⟨⟨⟨⟨rest,hr⟩,hne⟩,hslash⟩,rfl⟩
    rw [← hr, List.drop_left] at hne hslash ⊢
    refine ⟨by rw [← String.toList_inj, ← hr]; simp,?_,by simpa using hslash⟩
    rw [ne_eq, ← String.toList_inj]
    simpa using hne
  · rintro ⟨rfl,hne,hslash⟩
    simpa using ⟨hne,hslash⟩

private theorem lt_of_append_lt {start a b : List Char} (h : start ++ a < start ++ b) : a < b := by
  induction start with
  | nil => exact h
  | cons c start ih => exact ih (by simpa [List.cons_lt_cons_iff] using h)

/-- The names that the keys below a directory give for its children. -/
def namesIn (keyPrefix : String) (objects : Keyed ByteArray) (dir : List String) : List String :=
  let start := keyIn keyPrefix "nodes" (Path.slashed (Path.ofSegments dir))
  (Client.startingWith start objects).keys.filterMap (childName? start)

theorem mem_namesIn (h : Tidy keyPrefix objects) {dir : List String} (hd : Path.Named dir) (name : String) :
    name ∈ namesIn keyPrefix objects dir ↔ (nodeAt keyPrefix objects (dir ++ [name])).isSome := by
  simp only [namesIn, List.mem_filterMap, Keyed.keys, List.mem_map, Client.startingWith_eq_filter h.rising, List.mem_filter,
    childName?_eq_some_iff, List.isPrefixOf_iff_prefix, ← keyIn_append]
  constructor
  · rintro ⟨key,⟨⟨_,body⟩,⟨hm,hp⟩,rfl⟩,hk,hne,hslash⟩
    have hnodes : (keyIn keyPrefix "nodes" "").toList <+: _ := (starts_with _ _).trans hp
    obtain ⟨names,node,hn,hkey,rfl⟩ := h.known _ _ hm hnodes
    dsimp only at hk hm
    rw [hkey, keyIn_inj, eq_comm, Path.slashed_append_iff hd hn hne hslash] at hk
    subst hk
    rw [Option.isSome_iff_exists]
    exact ⟨node,(h.nodeAt_eq_some_iff hn).mpr (h.rising.find?_iff.mpr (hkey ▸ hm))⟩
  · intro hs
    obtain ⟨node,hnode⟩ := Option.isSome_iff_exists.mp hs
    have hn := named_of_nodeAt hnode
    have hname := (Path.isName_iff name).mp (Path.named_concat.mp hn).2
    have hne : name ≠ "" := fun he => hname.1 (by simp [he])
    have hpath := (Path.slashed_append_iff hd hn hne hname.2.1).mpr rfl
    refine ⟨_,⟨(_,_),⟨Keyed.mem_of_find? ((h.nodeAt_eq_some_iff hn).mp hnode),?_⟩,rfl⟩,by rw [hpath],hne,hname.2.1⟩
    rw [← hpath, keyIn_append]
    exact ⟨name.toList,by simp⟩

theorem namesIn_pairwise (h : objects.Rising) (dir : List String) : (namesIn keyPrefix objects dir).Pairwise (· < ·) := by
  rw [namesIn, Client.startingWith_eq_filter h, List.pairwise_filterMap]
  refine (Keyed.Rising.keys_pairwise (h.sublist List.filter_sublist)).imp fun {a b} hlt x hx y hy => ?_
  rw [(childName?_eq_some_iff.mp hx).1, (childName?_eq_some_iff.mp hy).1] at hlt
  rw [String.lt_iff_toList_lt, String.toList_append, String.toList_append] at hlt
  exact String.lt_iff_toList_lt.mpr (lt_of_append_lt hlt)

theorem children_ends (h : Stocks fails bucket keyPrefix objects store) (dir : List String) :
    (children (Path.ofSegments dir)).Ends store (Halts fails bucket keyPrefix objects) fun names after =>
      names = namesIn keyPrefix objects dir ∧ Stocks fails bucket keyPrefix objects after := by
  refine .get_bind ?_
  have hstart : store.childrenKey (Path.ofSegments dir) = keyIn keyPrefix "nodes" (Path.slashed (Path.ofSegments dir)) := by
    rw [childrenKey, nodeKey, key_of h.prefix_eq, Path.slashed]
  rw [h.bucket_eq, hstart]
  exact (keys_ends h _).bind fun keys after h => .pure ⟨by rw [h.1, namesIn],h.2⟩

/-! ### The calls -/

/-- A file or an empty directory below the root. -/
def Removable (keyPrefix : String) (objects : Keyed ByteArray) (names : List String) (node : Node) : Prop :=
  names ≠ [] ∧ nodeAt keyPrefix objects names = some node ∧ (node.isDir = true → namesIn keyPrefix objects names = [])

/-- A node with a proper name that is free in an existing directory. -/
def Creatable (keyPrefix : String) (objects : Keyed ByteArray) (node : Node) : Prop :=
  Path.isName node.name = true ∧ nodeAt keyPrefix objects node.target = none ∧
    ∃ parent, nodeAt keyPrefix objects (Path.segments node.parentPath) = some parent ∧ parent.isDir = true

/-- A node as it is stored when it is created. -/
def created (node : Node) : Node :=
  { node with parentPath := Path.normalize node.parentPath, size := if node.isDir then node.size else some 0 }

theorem read_ends (h : Stocks fails bucket keyPrefix objects store) (path : String) :
    (readPath path).Ends store (Halts fails bucket keyPrefix objects) fun content after =>
      content = (viewOf keyPrefix objects).content? (Path.segments path) ∧ Stocks fails bucket keyPrefix objects after := by
  rw [readPath, Path.normalize_eq]
  refine (load_ends h (Path.named_segments path)).bind fun node after ⟨hnode,h⟩ => ?_
  rw [View.content?, viewOf, ← hnode]
  cases node with
  | none => exact .pure ⟨rfl,h⟩
  | some node =>
    dsimp only
    cases hd : node.isDir with
    | true => exact .pure ⟨by simp [itemOf, hd, Item.content?],h⟩
    | false =>
      refine .get_bind ?_
      rw [h.bucket_eq, contentKey, key_of h.prefix_eq]
      exact (fetch_ends h _).bind fun body after ⟨hf,h⟩ => .pure ⟨by simp [itemOf, hd, Item.content?, textAt, hf],h⟩

theorem list_ends (h : Stocks fails bucket keyPrefix objects store) (path : String) :
    (listPath path).Ends store (Halts fails bucket keyPrefix objects) fun names after =>
      names = (if (nodeAt keyPrefix objects (Path.segments path)).any Node.isDir
        then namesIn keyPrefix objects (Path.segments path) else []) ∧ Stocks fails bucket keyPrefix objects after := by
  rw [listPath, Path.normalize_eq]
  refine (load_ends h (Path.named_segments path)).bind fun node after ⟨hnode,h⟩ => ?_
  rw [← hnode]
  cases node with
  | none => exact .pure ⟨rfl,h⟩
  | some node =>
    dsimp only [Option.any_some]
    split
    · exact children_ends h _
    · exact .pure ⟨rfl,h⟩

theorem touch_ends (h : Stocks fails bucket keyPrefix objects store) (now : Timestamp) (path : String) :
    let names := Path.segments path
    (touchPath now path).Ends store (Halts fails bucket keyPrefix objects) fun done after =>
      (done = false ∧ nodeAt keyPrefix objects names = none ∧ Stocks fails bucket keyPrefix objects after) ∨
      (done = true ∧ ∃ node, nodeAt keyPrefix objects names = some node ∧
        Stocks fails bucket keyPrefix (insertNode keyPrefix names { node with modifiedAt := now } objects) after) := by
  intro names
  rw [touchPath, Path.normalize_eq]
  refine (load_ends h (Path.named_segments path)).bind fun node after ⟨hnode,h⟩ => ?_
  cases node with
  | none => exact .pure (.inl ⟨rfl,hnode.symm,h⟩)
  | some node =>
    refine ((putNode_ends h _ _).mono (fun _ => halts_of_refused) fun _ _ h => h).bind fun _ after h => ?_
    exact .pure (.inr ⟨rfl,node,hnode.symm,h⟩)

/-- A write that fails in the middle has replaced the content and left the sidecar. -/
theorem write_ends (h : Stocks fails bucket keyPrefix objects store) (now : Timestamp) (path content : String) :
    let names := Path.segments path
    let file (node : Node) := nodeAt keyPrefix objects names = some node ∧ node.isDir = false
    (writePath now path content).Ends store
      (fun after => Halts fails bucket keyPrefix objects after ∨
        (∃ node, file node) ∧ Stocks fails bucket keyPrefix (insertText keyPrefix names content objects) after ∧
          Client.Refused fails (nodePut bucket keyPrefix names))
      fun done after =>
        (done = false ∧ (∀ node, ¬ file node) ∧ Stocks fails bucket keyPrefix objects after) ∨
        (done = true ∧ ∃ node, file node ∧ Stocks fails bucket keyPrefix
          (insertNode keyPrefix names { node with size := some content.utf8ByteSize.toUInt64, modifiedAt := now }
            (insertText keyPrefix names content objects)) after) := by
  intro names file
  rw [writePath, Path.normalize_eq]
  refine .bind ((load_ends h (Path.named_segments path)).mono (fun _ => .inl) fun _ _ h => h) fun node after ⟨hnode,h⟩ => ?_
  cases node with
  | none => exact .pure (.inl ⟨rfl,fun node hf => by simp [names, ← hnode, file] at hf,h⟩)
  | some node =>
    dsimp only
    by_cases hd : node.isDir = true
    · rw [if_pos hd]
      refine .pure (.inl ⟨rfl,fun other hf => ?_,h⟩)
      obtain rfl := Option.some.inj (hnode.trans hf.1)
      exact absurd hd (by simp [hf.2])
    · rw [if_neg hd]
      have hfile : file node := ⟨hnode.symm,by simpa using hd⟩
      refine ((putContent_ends h _ _).mono (fun _ => .inl) fun _ _ h => h).bind fun _ after h => ?_
      refine ((putNode_ends h _ _).mono (fun _ hf => .inr ⟨⟨node,hfile⟩,hf⟩) fun _ _ h => h).bind fun _ after h => ?_
      exact .pure (.inr ⟨rfl,node,hfile,h⟩)

/-- A deletion that fails in the middle has taken the content and left the sidecar. -/
theorem delete_ends (h : Stocks fails bucket keyPrefix objects store) (path : String) :
    let names := Path.segments path
    (deletePath path).Ends store
      (fun after => Halts fails bucket keyPrefix objects after ∨
        (∃ node, Removable keyPrefix objects names node ∧ node.isDir = false) ∧
          Stocks fails bucket keyPrefix (eraseText keyPrefix names objects) after ∧
          Client.Refused fails (nodeDelete bucket keyPrefix names))
      fun done after =>
        (done = false ∧ (∀ node, ¬ Removable keyPrefix objects names node) ∧ Stocks fails bucket keyPrefix objects after) ∨
        (done = true ∧ ∃ node, Removable keyPrefix objects names node ∧ Stocks fails bucket keyPrefix
          (eraseNode keyPrefix names (if node.isDir then objects else eraseText keyPrefix names objects)) after) := by
  intro names
  rw [deletePath]
  have hroot : (Path.normalize path == "/") = true ↔ names = [] := by rw [beq_iff_eq, Path.normalize_eq_root_iff]
  by_cases hne : names = []
  · rw [if_pos (hroot.mpr hne)]
    exact .pure (.inl ⟨rfl,fun _ hr => hr.1 hne,h⟩)
  rw [if_neg (fun he => hne (hroot.mp he)), Path.normalize_eq]
  refine .bind ((load_ends h (Path.named_segments path)).mono (fun _ => .inl) fun _ _ h => h) fun node after ⟨hnode,h⟩ => ?_
  cases node with
  | none => exact .pure (.inl ⟨rfl,fun node hr => by simp [Removable, names, ← hnode] at hr,h⟩)
  | some node =>
    refine .get_bind ?_
    dsimp only
    rw [h.bucket_eq, contentKey, nodeKey, key_of h.prefix_eq, key_of h.prefix_eq]
    cases hd : node.isDir with
    | true =>
      refine ((children_ends h _).mono (fun _ => .inl) fun _ _ h => h).bind fun found after ⟨hfound,h⟩ => ?_
      by_cases hempty : found = []
      · have hr : Removable keyPrefix objects names node := ⟨hne,hnode.symm,fun _ => hfound ▸ hempty⟩
        rw [if_neg (by simp [hempty])]
        refine ((erase_ends h _).mono (fun _ hf => .inl (halts_of_refused hf)) fun _ _ h => h).bind fun _ after h => ?_
        exact .pure (.inr ⟨rfl,node,hr,by rw [if_pos hd]; exact h⟩)
      · rw [if_pos (by simpa using hempty)]
        refine .pure (.inl ⟨rfl,fun other hr => hempty ?_,h⟩)
        obtain rfl := Option.some.inj (hnode.trans hr.2.1)
        rw [hfound]
        exact hr.2.2 hd
    | false =>
      have hr : Removable keyPrefix objects names node := ⟨hne,hnode.symm,by simp [hd]⟩
      refine ((erase_ends h _).mono (fun _ hf => .inl (halts_of_refused hf)) fun _ _ h => h).bind fun _ after h => ?_
      refine ((erase_ends h _).mono (fun _ hf => .inr ⟨⟨node,hr,hd⟩,hf⟩) fun _ _ h => h).bind fun _ after h => ?_
      exact .pure (.inr ⟨rfl,node,hr,by rw [if_neg (by simp [hd])]; exact h⟩)

private theorem canCreate_ends (h : Stocks fails bucket keyPrefix objects store) (node : Node) :
    (canCreate node).Ends store (Halts fails bucket keyPrefix objects) fun can after =>
      (can = true ↔ Creatable keyPrefix objects node) ∧ Stocks fails bucket keyPrefix objects after := by
  rw [canCreate]
  cases hname : Path.isName node.name with
  | false => exact .pure ⟨by simp [Creatable, hname],h⟩
  | true =>
    rw [if_neg (by simp), Path.normalize_eq, Path.normalize_eq, node.segments_path hname]
    have htarget : Path.Named node.target := Path.named_concat.mpr ⟨Path.named_segments _,hname⟩
    refine (load_ends h htarget).bind fun taken after ⟨htaken,h⟩ => ?_
    cases taken with
    | some other => exact .pure ⟨by simp [Creatable, ← htaken],h⟩
    | none =>
      refine (load_ends h (Path.named_segments _)).bind fun parent after ⟨hparent,h⟩ => ?_
      cases parent with
      | none => exact .pure ⟨by simp [Creatable, ← hparent],h⟩
      | some parent => exact .pure ⟨by simp [Creatable, ← hparent, ← htaken, hname],h⟩

/-- The path of a node under a parent in normal form. -/
theorem path_created {node : Node} (h : Path.isName node.name = true) : (created node).path = Path.ofSegments node.target := by
  rw [Node.path, created, if_neg (by simp [Path.name_nonempty h]), Path.normalize_eq,
    Path.join_ofSegments (Path.named_segments _) h, Node.target]

/-- A creation that fails in the middle has left an empty content and no sidecar. -/
theorem create_ends (h : Stocks fails bucket keyPrefix objects store) (node : Node) :
    (createNode node).Ends store
      (fun after => Halts fails bucket keyPrefix objects after ∨
        (Creatable keyPrefix objects node ∧ node.isDir = false) ∧
          Stocks fails bucket keyPrefix (insertText keyPrefix node.target "" objects) after ∧
          Client.Refused fails (nodePut bucket keyPrefix node.target))
      fun done after =>
        (done = false ∧ ¬ Creatable keyPrefix objects node ∧ Stocks fails bucket keyPrefix objects after) ∨
        (done = true ∧ Creatable keyPrefix objects node ∧ Stocks fails bucket keyPrefix
          (insertNode keyPrefix node.target (created node)
            (if node.isDir then objects else insertText keyPrefix node.target "" objects)) after) := by
  refine .bind ((canCreate_ends h node).mono (fun _ => .inl) fun _ _ h => h) fun can after ⟨hcan,h⟩ => ?_
  cases can with
  | false => exact .pure (.inl ⟨rfl,by simpa using hcan,h⟩)
  | true =>
    have hc := hcan.mp rfl
    have hpath : ({ node with parentPath := Path.normalize node.parentPath } : Node).path = Path.ofSegments node.target :=
      path_created hc.1
    rw [if_neg (by simp)]
    dsimp only
    rw [hpath]
    by_cases hd : node.isDir = true
    · have hcreated : created node = { node with parentPath := Path.normalize node.parentPath } := by simp [created, hd]
      rw [if_pos hd]
      refine ((putNode_ends h _ _).mono (fun _ hf => .inl (halts_of_refused hf)) fun _ _ h => h).bind fun _ after h => ?_
      exact .pure (.inr ⟨rfl,hc,by rw [hcreated, if_pos hd]; exact h⟩)
    · have hcreated : created node = { node with parentPath := Path.normalize node.parentPath, size := some 0 } := by
        simp [created, hd]
      rw [if_neg hd]
      refine ((putContent_ends h _ _).mono (fun _ => .inl) fun _ _ h => h).bind fun _ after h => ?_
      refine ((putNode_ends h _ _).mono (fun _ hf => .inr ⟨⟨hc,by simpa using hd⟩,hf⟩) fun _ _ h => h).bind fun _ after h => ?_
      exact .pure (.inr ⟨rfl,hc,by rw [hcreated, if_neg hd]; exact h⟩)

/-- Setting up makes a missing bucket, and then the root if that is missing. -/
theorem setUp_ends (hfails : store.client.fails = fails) (now : Timestamp) :
    let objects := (Keyed.find? store.bucket store.client.buckets).getD []
    (setUp now).Ends store
      (fun after => Halts fails store.bucket store.keyPrefix objects after ∨
        after.bucket = store.bucket ∧ after.keyPrefix = store.keyPrefix ∧
          (after.client.fails = fails ∧ after.client.buckets = store.client.buckets) ∧
          Client.Refused fails (.ensureBucket store.bucket))
      fun done after => done = true ∧ Stocks fails store.bucket store.keyPrefix
        (if (nodeAt store.keyPrefix objects []).isSome then objects
          else insertNode store.keyPrefix [] (Node.root now) objects) after := by
  intro objects
  refine .get_bind (.bind ((request_ends (Client.ensureBucket_ends hfails)).mono (fun _ => .inr) fun _ _ h => h) ?_)
  rintro _ made ⟨hb,hp,hc⟩
  have h : Stocks fails store.bucket store.keyPrefix objects made := ⟨hb,hp,hc⟩
  refine .bind ((load_ends h Path.named_nil).mono (fun _ => .inl) fun _ _ h => h) fun root after ⟨hroot,h⟩ => ?_
  rw [← hroot]
  cases root with
  | some root =>
    simp only [Option.isNone_some, Option.isSome_some, Bool.false_eq_true, if_false, if_true]
    exact .pure ⟨rfl,h⟩
  | none =>
    simp only [Option.isNone_none, Option.isSome_none, Bool.false_eq_true, if_false, if_true]
    have hput := putNode_ends h [] (Node.root now)
    rw [Path.ofSegments_nil] at hput
    exact (hput.mono (fun _ hf => .inl (halts_of_refused hf)) fun _ _ h => h).bind fun _ after h => .pure ⟨rfl,h⟩

/-! ### Without a bucket -/

/-- The store has no bucket. -/
structure Lacks (fails : Nat → Request → Bool) (bucket keyPrefix : String) (store : Objects) : Prop where
  bucket_eq : store.bucket = bucket
  prefix_eq : store.keyPrefix = keyPrefix
  fails_eq : store.client.fails = fails
  missing : Keyed.find? bucket store.client.buckets = none

namespace Lacks

private theorem request {α : Type} (h : Lacks fails bucket keyPrefix store) {act : Storing Client α}
    (hact : act.Ends store.client (fun after => after.fails = fails ∧ Keyed.find? bucket after.buckets = none) fun _ _ => False) :
    (request act).Ends store (Lacks fails bucket keyPrefix) fun _ _ => False :=
  (request_ends hact).mono (fun _ ⟨hb,hp,hf,hm⟩ => ⟨hb.trans h.bucket_eq,hp.trans h.prefix_eq,hf,hm⟩)
    fun _ _ ⟨_,_,hf⟩ => hf.elim

theorem load (h : Lacks fails bucket keyPrefix store) (path : String) :
    (load path).Ends store (Lacks fails bucket keyPrefix) fun _ _ => False := by
  refine .get_bind ?_
  rw [h.bucket_eq]
  exact (h.request (Client.missing_ends h.fails_eq h.missing)).bind_never

theorem list (h : Lacks fails bucket keyPrefix store) (path : String) :
    (listPath path).Ends store (Lacks fails bucket keyPrefix) fun _ _ => False :=
  (h.load _).bind_never

theorem read (h : Lacks fails bucket keyPrefix store) (path : String) :
    (readPath path).Ends store (Lacks fails bucket keyPrefix) fun _ _ => False :=
  (h.load _).bind_never

theorem stats (h : Lacks fails bucket keyPrefix store) :
    statsOf.Ends store (Lacks fails bucket keyPrefix) fun _ _ => False := by
  refine .get_bind ?_
  rw [h.bucket_eq]
  exact (h.request (Client.missing_ends h.fails_eq h.missing).bind_never).bind_never

theorem write (h : Lacks fails bucket keyPrefix store) (now : Timestamp) (path content : String) :
    (writePath now path content).Ends store (Lacks fails bucket keyPrefix) fun _ _ => False :=
  (h.load _).bind_never

theorem touch (h : Lacks fails bucket keyPrefix store) (now : Timestamp) (path : String) :
    (touchPath now path).Ends store (Lacks fails bucket keyPrefix) fun _ _ => False :=
  (h.load _).bind_never

theorem delete (h : Lacks fails bucket keyPrefix store) (path : String) :
    (deletePath path).Ends store (Lacks fails bucket keyPrefix) fun done after =>
      done = false ∧ Lacks fails bucket keyPrefix after := by
  rw [deletePath]
  split
  · exact .pure ⟨rfl,h⟩
  · exact (h.load _).bind_never

theorem create (h : Lacks fails bucket keyPrefix store) (node : Node) :
    (createNode node).Ends store (Lacks fails bucket keyPrefix) fun done after =>
      done = false ∧ Lacks fails bucket keyPrefix after := by
  rw [createNode, canCreate]
  split
  · exact .pure ⟨rfl,h⟩
  · exact .bind_never (h.load _).bind_never

end Lacks

/-! ### Numbers -/

/-- The numbers of a store once the node of a sidecar is added. -/
def tallied (objects : Keyed ByteArray) (stats : StorageStats) (key : String) : StorageStats :=
  match (Keyed.find? key objects).bind fun body => (Node.ofJson (Text.decodeLossy body)).toOption with
  | some node => tally stats node
  | none => stats

private theorem survey_ends (h : Stocks fails bucket keyPrefix objects store) {keys : List String}
    (hkeys : ∀ key ∈ keys, (keyIn keyPrefix "nodes" "").toList <+: key.toList) (stats : StorageStats) :
    (survey bucket keys stats).Ends store (Halts fails bucket keyPrefix objects) fun total after =>
      total = keys.foldl (tallied objects) stats ∧ Stocks fails bucket keyPrefix objects after := by
  induction keys generalizing stats store with
  | nil => exact .pure ⟨rfl,h⟩
  | cons key keys ih =>
    have hrest (key' : String) (hk : key' ∈ keys) := hkeys key' (by simp [hk])
    refine (fetch_ends h key).bind fun body after ⟨hf,h⟩ => ?_
    rw [List.foldl_cons, tallied, ← hf]
    cases body with
    | none => exact ih h hrest stats
    | some body =>
      dsimp only [Option.bind_some]
      rw [decode]
      cases hd : Node.ofJson (Text.decodeLossy body) with
      | ok node => exact ih h hrest _
      | error e => exact .throw ⟨h,fun ht => (ht.decodes hf.symm (hkeys key (by simp)) hd).elim⟩

theorem stats_ends (h : Stocks fails bucket keyPrefix objects store) :
    statsOf.Ends store (Halts fails bucket keyPrefix objects) fun total after =>
      total = (Client.startingWith (keyIn keyPrefix "nodes" "") objects).keys.foldl (tallied objects)
        ⟨"s3",0,0,0,some (.bucket bucket keyPrefix),none⟩ ∧ Stocks fails bucket keyPrefix objects after := by
  refine .get_bind ?_
  rw [h.bucket_eq, h.prefix_eq, nodeKey, key_of h.prefix_eq]
  refine (keys_ends h _).bind fun keys after ⟨hk,h⟩ => ?_
  subst hk
  exact survey_ends h (fun key hk => Client.prefix_of_mem_keys hk) _

end VirtualShell.Objects
