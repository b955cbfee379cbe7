import VirtualShell.Proofs.Path.Resolution
import VirtualShell.Proofs.Storage.ObjectsIntegrity

/-!
Listing by the start of keys. A bucket is listed from a text on up to the first key that does not start with it, and the
names in a directory are cut from the keys so found; neither misses anything and neither finds too much.
-/
namespace VirtualShell

/-! ### Paths of children -/

namespace Path
variable {dir name : String}

private theorem trimSlashes_of_last {path : List Char} (h : path.getLast? ≠ some '/') : trimSlashes path = path := by
  rcases List.eq_nil_or_concat path with rfl | ⟨init,last,rfl⟩
  · rfl
  · rw [List.concat_eq_append, List.getLast?_concat, ne_eq, Option.some.injEq] at h
    simp [trimSlashes, h]

/-- Joined to a canonical directory, a text stands after its slash, whether or not it is a proper name. -/
theorem Canonical.join_eq (h : Canonical dir) (hname : name ≠ "") : join dir name = slashed dir ++ name := by
  have hempty : dir.isEmpty = false := by
    rw [← Bool.not_eq_true, String.isEmpty_iff]
    rintro rfl
    exact absurd h.absolute (by simp)
  rw [join, if_neg (by simpa using hname), slashed, hempty, Bool.false_or]
  split
  · rfl
  · rename_i hroot
    rw [trimSlashes_of_last (h.ending (by simpa using hroot)), String.ofList_toList]

private theorem Canonical.exists_slashed (h : Canonical dir) : ∃ rest, slashed dir = "/" ++ rest := by
  rw [slashed]
  split
  · exact ⟨"",rfl⟩
  · obtain ⟨rest,hrest⟩ := List.head?_eq_some_iff.mp h.absolute
    exact ⟨.ofList rest ++ "/",by rw [← String.toList_inj]; simp [hrest]⟩

/-- What stands alone after the slash of a directory makes a canonical path only if it is a name. -/
theorem Canonical.isName_of_join (h : Canonical dir) (hname : name ≠ "") (hslash : '/' ∉ name.toList)
    (hjoin : Canonical (join dir name)) : isName name = true := by
  have hsegments := (slashed_append_iff (named_segments dir) (named_segments (join dir name)) hname hslash).mp (by
    rw [← h.eq_ofSegments, ← hjoin.eq_ofSegments, h.join_eq hname])
  exact (named_concat.mp (hsegments ▸ named_segments (join dir name))).2

end Path

/-! ### Requests -/

namespace Client
variable {client : Client} {bucket start : String} {objects : Keyed ByteArray}

theorem on_summaries (hb : Keyed.find? bucket client.buckets = some objects)
    (hserved : client.fails client.requests (.list bucket start) = false) :
    ((summaries bucket start).on client).1 = .ok ((startingWith start objects).map Summary.of) := by
  simp [summaries, attempt, Client.objects, Storing.on_bind, hb, hserved]

theorem on_list (hb : Keyed.find? bucket client.buckets = some objects)
    (hserved : client.fails client.requests (.list bucket start) = false) :
    ((list bucket start).on client).1 = .ok (startingWith start objects).keys := by
  rw [list, Storing.on_bind_ok (Prod.ext (on_summaries hb hserved) rfl), Storing.on_pure, map_key_summaries]

end Client

/-! ### Directories -/

namespace Objects
open Storing

/-- The request for the keys below a directory goes through. -/
def Lists (store : Objects) (dir : String) : Prop :=
  store.client.fails store.client.requests (.list store.bucket (store.childrenKey dir)) = false

/-- The bucket of a store is there, with its objects in the order of their keys. -/
structure Keeps (store : Objects) (objects : Keyed ByteArray) : Prop where
  found : Keyed.find? store.bucket store.client.buckets = some objects
  rising : objects.Rising

/-- Among the keys of sidecars there are none but those of paths. -/
def Own (store : Objects) (objects : Keyed ByteArray) : Prop :=
  ∀ key ∈ objects.keys, (store.nodeKey "/").toList <+: key.toList → ∃ path, Path.Canonical path ∧ key = store.nodeKey path

variable {store : Objects} {objects : Keyed ByteArray} {dir name : String}

private theorem nodeKey_append (store : Objects) (a b : String) : store.nodeKey (a ++ b) = store.nodeKey a ++ b := by
  rw [nodeKey, nodeKey, key_eq, key_eq, keyIn_append]

private theorem nodeKey_inj {a b : String} : store.nodeKey a = store.nodeKey b ↔ a = b := by
  rw [nodeKey, nodeKey, key_eq, key_eq, keyIn_inj]

private theorem nodeKey_join (hd : Path.Canonical dir) (hname : name ≠ "") :
    store.nodeKey (Path.join dir name) = store.childrenKey dir ++ name := by
  rw [hd.join_eq hname, nodeKey_append]
  rfl

/-- The names that the bucket of a store gives for a directory. -/
private theorem namesIn_eq (hd : Path.Canonical dir) : namesIn store.keyPrefix objects (Path.segments dir) =
    (Client.startingWith (store.childrenKey dir) objects).keys.filterMap (childName? (store.childrenKey dir)) := by
  rw [namesIn, ← hd.eq_ofSegments, ← key_eq]
  rfl

theorem on_children (h : store.Keeps objects) (hd : Path.Canonical dir) (hserved : store.Lists dir) :
    ((children dir).on store).1 = .ok (namesIn store.keyPrefix objects (Path.segments dir)) := by
  have hlist : ((request (Client.list store.bucket (store.childrenKey dir))).on store).1 =
      .ok (Client.startingWith (store.childrenKey dir) objects).keys := by
    rw [request, on_within]
    exact Client.on_list h.found hserved
  rw [namesIn_eq hd, children, on_bind_ok (on_get store), on_bind_ok (Prod.ext hlist rfl)]
  rfl

/-- Whatever is in the bucket, what is found in a directory is what stands alone after its slash. -/
theorem mem_namesIn_iff (h : objects.Rising) (hd : Path.Canonical dir) :
    name ∈ namesIn store.keyPrefix objects (Path.segments dir) ↔
      name ≠ "" ∧ '/' ∉ name.toList ∧ store.nodeKey (Path.join dir name) ∈ objects.keys := by
  simp only [namesIn_eq hd, List.mem_filterMap, Client.mem_keys_startingWith h, childName?_eq_some_iff,
    Keyed.find?_isSome_iff]
  constructor
  · rintro ⟨key,⟨hkey,-⟩,rfl,hname,hslash⟩
    exact ⟨hname,hslash,by rwa [nodeKey_join hd hname]⟩
  · rintro ⟨hname,hslash,hkey⟩
    rw [nodeKey_join hd hname] at hkey
    exact ⟨_,⟨hkey,by simp⟩,rfl,hname,hslash⟩

/-- Where the sidecars are those of paths, every name that is found is a proper one. -/
theorem Own.mem_namesIn_iff (hown : store.Own objects) (h : objects.Rising) (hd : Path.Canonical dir) :
    name ∈ namesIn store.keyPrefix objects (Path.segments dir) ↔
      Path.isName name = true ∧ store.nodeKey (Path.join dir name) ∈ objects.keys := by
  rw [Objects.mem_namesIn_iff h hd]
  constructor
  · rintro ⟨hname,hslash,hkey⟩
    have hbelow : (store.nodeKey "/").toList <+: (store.nodeKey (Path.join dir name)).toList := by
      obtain ⟨rest,hrest⟩ := hd.exists_slashed
      rw [hd.join_eq hname, hrest, String.append_assoc, nodeKey_append]
      exact ⟨(rest ++ name).toList,by simp⟩
    obtain ⟨path,hpath,heq⟩ := hown _ hkey hbelow
    rw [nodeKey_inj] at heq
    exact ⟨hd.isName_of_join hname hslash (heq ▸ hpath),hkey⟩
  · rintro ⟨hname,hkey⟩
    obtain ⟨hempty,hslash,-⟩ := (Path.isName_iff name).mp hname
    exact ⟨fun he => hempty (by simp [he]),hslash,hkey⟩

/-- The sidecars of a store that can be read are those of paths. -/
theorem Tidy.own (h : Tidy store.keyPrefix objects) : store.Own objects := by
  intro key hkey hstart
  obtain ⟨⟨_,body⟩,hm,rfl⟩ := List.mem_map.mp hkey
  have hnodes : (keyIn store.keyPrefix "nodes" "").toList <+: (store.nodeKey "/").toList := by
    rw [nodeKey, key_eq]
    exact starts_with _ _
  obtain ⟨names,_,hnamed,hkey,_⟩ := h.known _ body hm (hnodes.trans hstart)
  exact ⟨Path.ofSegments names,Path.canonical_ofSegments hnamed,by rw [nodeKey, key_eq, ← hkey]⟩

/-- Whatever was called since there were no sidecars, and whichever requests failed. -/
theorem Bare.keeps {start : Objects} (h : start.Bare) (calls : List (Timestamp × Storage.Operation)) {objects : Keyed ByteArray}
    (hfound : Keyed.find? (Storage.Operation.play calls start).bucket (Storage.Operation.play calls start).client.buckets = some objects) :
    (Storage.Operation.play calls start).Keeps objects ∧ (Storage.Operation.play calls start).Own objects := by
  obtain ⟨hbucket,_,_,hmissing⟩ | ⟨held,hstocks,hplanted⟩ := Storage.Operation.play_preserves sown_run calls h.sown
  · rw [hbucket, hmissing] at hfound
    cases hfound
  · have hheld := hstocks.client.found
    rw [← hstocks.bucket_eq, hfound] at hheld
    cases hheld
    exact ⟨⟨hfound,hplanted.tidy.rising⟩,Tidy.own (hstocks.prefix_eq ▸ hplanted.tidy)⟩

/-! ### Nothing is missed -/

/--
Listing misses nothing. Whatever is in a bucket, its part from a text on up to the first key that does not start with it is
all that starts with the text, and a request that goes through answers the keys and sizes of that part in order. Whatever is
in the bucket of a store, the names in a canonical directory are, in order and each once, the texts without a slash after which a
sidecar is called in the directory; and where the sidecars are those of paths, as they are whatever was called since there
were none and whichever requests failed, these are the names with a sidecar.
-/
theorem listing_complete :
    (∀ (objects : Keyed ByteArray) (start : String), objects.Rising →
      Client.startingWith start objects = objects.filter fun object => start.toList.isPrefixOf object.1.toList) ∧
    (∀ (client : Client) (bucket start : String) (objects : Keyed ByteArray),
      Keyed.find? bucket client.buckets = some objects → objects.Rising →
      client.fails client.requests (.list bucket start) = false →
        ((Client.summaries bucket start).on client).1 =
          .ok ((objects.filter fun object => start.toList.isPrefixOf object.1.toList).map Summary.of) ∧
        ∃ keys, ((Client.list bucket start).on client).1 = .ok keys ∧ keys.Pairwise (· < ·) ∧
          ∀ key, key ∈ keys ↔ key ∈ objects.keys ∧ start.toList <+: key.toList) ∧
    (∀ (store : Objects) (objects : Keyed ByteArray) (dir : String), store.Keeps objects → Path.Canonical dir → store.Lists dir →
      ∃ names, ((children dir).on store).1 = .ok names ∧ names.Pairwise (· < ·) ∧
        (∀ name, name ∈ names ↔ name ≠ "" ∧ '/' ∉ name.toList ∧ store.nodeKey (Path.join dir name) ∈ objects.keys) ∧
        (store.Own objects → ∀ name, name ∈ names ↔
          Path.isName name = true ∧ store.nodeKey (Path.join dir name) ∈ objects.keys)) ∧
    ∀ (start : Objects) (calls : List (Timestamp × Storage.Operation)) (objects : Keyed ByteArray), start.Bare →
      let store := Storage.Operation.play calls start
      Keyed.find? store.bucket store.client.buckets = some objects → store.Keeps objects ∧ store.Own objects := by
  refine ⟨fun objects start h => Client.startingWith_eq_filter h start,?_,?_,fun start calls objects h => h.keeps calls⟩
  · intro client bucket start objects hfound hrising hserved
    refine ⟨?_,_,Client.on_list hfound hserved,?_,fun key => ?_⟩
    · rw [Client.on_summaries hfound hserved, Client.startingWith_eq_filter hrising]
    · rw [Client.startingWith_eq_filter hrising]
      exact Keyed.Rising.keys_pairwise (hrising.sublist List.filter_sublist)
    · rw [Client.mem_keys_startingWith hrising, Keyed.find?_isSome_iff]
  · intro store objects dir hkeeps hdir hserved
    exact ⟨_,on_children hkeeps hdir hserved,namesIn_pairwise hkeeps.rising _,fun _ => mem_namesIn_iff hkeeps.rising hdir,
      fun hown _ => hown.mem_namesIn_iff hkeeps.rising hdir⟩

private def shared : Objects := new ⟨[("b",[("nodes/z",.empty)])],0,fun _ _ => false⟩ "b" "/p/"

private def fillings : List (Timestamp × Storage.Operation) :=
  [(0,.setUp),(1,.create (Node.directory 1 "a" "/")),(2,.create (Node.file 2 "a.b" "/")),(3,.create (Node.file 3 "b" "/a"))]

private def filled : Objects := Storage.Operation.play fillings shared

private def held : Keyed ByteArray := (Keyed.find? filled.bucket filled.client.buckets).getD []

/-- A directory beside a file whose name goes on after its own, in a bucket with a node of another store. -/
theorem listing_beside_lookalikes :
    filled.Keeps held ∧ filled.Own held ∧ Path.Canonical "/" ∧ filled.Lists "/" ∧ Path.Canonical "/a" ∧ filled.Lists "/a" ∧
      ((children "/").on filled).1 = .ok ["a", "a.b"] ∧ ((children "/a").on filled).1 = .ok ["b"] ∧
      ∀ name, name ∈ ["a", "a.b"] ↔ Path.isName name = true ∧ filled.nodeKey (Path.join "/" name) ∈ held.keys := by
  obtain ⟨-,-,hchildren,hcalls⟩ := listing_complete
  have hbare : shared.Bare := by
    intro objects h
    have hobjects : objects = [("nodes/z",.empty)] := (Option.some.inj h).symm
    subst hobjects
    refine ⟨.cons (by simp) .nil,fun key body hm => ?_⟩
    obtain ⟨rfl,rfl⟩ := Prod.mk.inj (List.mem_singleton.mp hm)
    decide
  obtain ⟨hsome,hserved,hruns⟩ : (Keyed.find? filled.bucket filled.client.buckets).isSome = true ∧
      (filled.Lists "/" ∧ filled.Lists "/a") ∧
      ((children "/").on filled).1 = .ok ["a", "a.b"] ∧ ((children "/a").on filled).1 = .ok ["b"] := by
    rw [Lists, Lists]
    decide +kernel
  obtain ⟨objects,hfound⟩ := Option.isSome_iff_exists.mp hsome
  have hheld : held = objects := congrArg (Option.getD · []) hfound
  subst hheld
  obtain ⟨hkeeps,hown⟩ : filled.Keeps held ∧ filled.Own held := by
    rw [filled] at hfound ⊢
    exact hcalls shared fillings held hbare hfound
  have hroot : Path.Canonical "/" := Path.canonical_iff.mpr (by decide)
  have hdir : Path.Canonical "/a" := Path.canonical_iff.mpr (by decide)
  obtain ⟨names,hnames,-,-,hmem⟩ := hchildren filled held "/" hkeeps hroot hserved.1
  have hall : names = ["a", "a.b"] := by simpa [hruns.1] using hnames.symm
  exact ⟨hkeeps,hown,hroot,hserved.1,hdir,hserved.2,hruns.1,hruns.2,fun name => hall ▸ hmem hown name⟩

end Objects
end VirtualShell
