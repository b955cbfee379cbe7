import Mathlib.Data.List.Sort
import Mathlib.Data.List.TakeWhile
import VirtualShell.Proofs.Keyed
import VirtualShell.Proofs.Storage.Outcome
import VirtualShell.Storage.Client

/-!
What the requests of a client come to, whether they fail or not. The keys that start with a text stand together in a bucket,
so listing them by position finds all.
-/
namespace VirtualShell.Client

/-! ### Listing -/

private theorem not_lt_of_prefix {start key : List Char} (h : start <+: key) : ¬ key < start := by
  obtain ⟨rest,rfl⟩ := h
  induction start with
  | nil => exact List.not_lt_nil _
  | cons c start ih => simpa [List.cons_lt_cons_iff] using ih

/-- What does not come before a text and does not start with it comes after all that start with it. -/
private theorem lt_of_not_prefix {start key : List Char} (hle : ¬ key < start) (hp : ¬ start <+: key)
    (rest : List Char) : start ++ rest < key := by
  induction start generalizing key with
  | nil => exact absurd key.nil_prefix hp
  | cons c start ih =>
    cases key with
    | nil => exact absurd (List.nil_lt_cons c start) hle
    | cons d key =>
      rw [List.cons_append, List.cons_lt_cons_iff]
      rw [List.cons_lt_cons_iff, not_or, not_and] at hle
      rcases lt_trichotomy c d with hlt | rfl | hgt
      · exact .inl hlt
      · exact .inr ⟨rfl,ih (hle.2 rfl) fun h => hp (by simpa using h)⟩
      · exact absurd hgt hle.1

private theorem takeWhile_prefix {objects : Keyed ByteArray} (h : objects.Rising) {start : String}
    (hstart : ∀ object ∈ objects, ¬ object.1 < start) :
    objects.takeWhile (fun object => start.toList.isPrefixOf object.1.toList) =
      objects.filter fun object => start.toList.isPrefixOf object.1.toList := by
  induction h with
  | nil => rfl
  | @cons p rest hp hr ih =>
    rw [List.takeWhile_cons, List.filter_cons]
    split
    · rw [ih fun object ho => hstart object (by simp [ho])]
    · rename_i hno
      rw [List.isPrefixOf_iff_prefix] at hno
      symm
      rw [List.filter_eq_nil_iff]
      intro object ho hpre
      obtain ⟨more,hm⟩ := List.isPrefixOf_iff_prefix.mp hpre
      have hlt := lt_of_not_prefix (hstart p (by simp)) hno more
      rw [hm] at hlt
      exact lt_asymm hlt (hp object ho)

/-- Listing by position is the same as going through the whole bucket. -/
theorem startingWith_eq_filter {objects : Keyed ByteArray} (h : objects.Rising) (start : String) :
    startingWith start objects = objects.filter fun object => start.toList.isPrefixOf object.1.toList := by
  rw [startingWith]
  induction h with
  | nil => rfl
  | @cons p rest hp hr ih =>
    rw [List.dropWhile_cons]
    split
    · rename_i hlt
      have hno : ¬ start.toList <+: p.1.toList := fun hpre =>
        not_lt_of_prefix hpre (String.lt_iff_toList_lt.mp (of_decide_eq_true hlt))
      rw [ih, List.filter_cons, if_neg (by rwa [List.isPrefixOf_iff_prefix])]
    · rename_i hge
      have hge : ¬ p.1 < start := fun hlt => hge (decide_eq_true hlt)
      apply takeWhile_prefix (.cons hp hr)
      intro object ho
      rcases List.mem_cons.mp ho with rfl | ho
      · exact hge
      · exact fun hlt => hge ((hp object ho).trans hlt)

/-- Whatever is listed starts as it is to start. -/
theorem prefix_of_mem_keys {objects : Keyed ByteArray} {start key : String} (h : key ∈ (startingWith start objects).keys) :
    start.toList <+: key.toList := by
  obtain ⟨object,ho,rfl⟩ := List.mem_map.mp h
  rw [startingWith] at ho
  simpa using List.mem_takeWhile_imp ho

theorem mem_keys_startingWith {objects : Keyed ByteArray} (h : objects.Rising) {start key : String} :
    key ∈ (startingWith start objects).keys ↔ (Keyed.find? key objects).isSome ∧ start.toList <+: key.toList := by
  rw [startingWith_eq_filter h, Keyed.find?_isSome_iff]
  simp only [Keyed.keys, List.mem_map, List.mem_filter, List.isPrefixOf_iff_prefix]
  constructor
  · rintro ⟨object,⟨ho,hp⟩,rfl⟩
    exact ⟨⟨object,ho,rfl⟩,hp⟩
  · rintro ⟨⟨object,ho,rfl⟩,hp⟩
    exact ⟨object,⟨ho,hp⟩,rfl⟩

theorem map_key_summaries (objects : Keyed ByteArray) : (objects.map Summary.of).map Summary.key = objects.keys := by
  rw [List.map_map]
  rfl

/-- Where the same keys are taken, the same are listed. -/
theorem keys_startingWith_congr {a b : Keyed ByteArray} (ha : a.Rising) (hb : b.Rising) {start : String}
    (h : ∀ key : String, start.toList <+: key.toList → Keyed.find? key a = Keyed.find? key b) :
    (startingWith start a).keys = (startingWith start b).keys := by
  have hrising {objects : Keyed ByteArray} (ho : objects.Rising) : (startingWith start objects).keys.Pairwise (· < ·) := by
    rw [startingWith_eq_filter ho]
    exact Keyed.Rising.keys_pairwise (ho.sublist List.filter_sublist)
  refine (hrising ha).eq_of_mem_iff (hrising hb) fun key => ?_
  rw [mem_keys_startingWith ha, mem_keys_startingWith hb]
  exact and_congr_left fun hp => by rw [h key hp]

/-! ### Requests -/

/-- No request fails, and the bucket is there with its objects. -/
structure Has (bucket : String) (objects : Keyed ByteArray) (client : Client) : Prop where
  works : ∀ n request, client.fails n request = false
  found : Keyed.find? bucket client.buckets = some objects

/-- The bucket is there with its objects, and requests fail as told. -/
structure Stocks (fails : Nat → Request → Bool) (bucket : String) (objects : Keyed ByteArray) (client : Client) : Prop where
  fails_eq : client.fails = fails
  found : Keyed.find? bucket client.buckets = some objects

variable {fails : Nat → Request → Bool} {bucket : String} {objects : Keyed ByteArray} {client : Client}

theorem has_iff : Has bucket objects client ↔ Stocks (fun _ _ => false) bucket objects client :=
  ⟨fun h => ⟨funext fun n => funext fun request => h.works n request,h.found⟩,
    fun h => ⟨fun n request => by rw [h.fails_eq],h.found⟩⟩

/-- A request of some kind fails at some time. -/
def Refused (fails : Nat → Request → Bool) (request : Request) : Prop := ∃ n, fails n request = true

/-- A request is counted, and then it fails or does what it is to do. -/
private theorem attempt_ends {α : Type} {request : Request} {act : Storing Client α} {held : Client → Prop}
    {wanted : α → Client → Prop} (hfails : client.fails = fails) (hheld : held { client with requests := client.requests + 1 })
    (hact : act.Ends { client with requests := client.requests + 1 } (fun _ => False) wanted) :
    (attempt request act).Ends client (fun after => held after ∧ Refused fails request) wanted := by
  refine .get_bind (.bind_ok (Storing.on_set _ _) ?_)
  split
  · rename_i hrefused
    exact .throw ⟨hheld,client.requests,by rwa [hfails] at hrefused⟩
  · exact hact.mono (fun _ hf => hf.elim) fun _ _ hw => hw

/-- Nothing can be done with the objects of a missing bucket. -/
theorem missing_ends {α : Type} {request : Request} {act : Keyed ByteArray → Storing Client α} (hfails : client.fails = fails)
    (hmissing : Keyed.find? bucket client.buckets = none) : (attempt request (Client.objects bucket >>= act)).Ends client
      (fun after => after.fails = fails ∧ Keyed.find? bucket after.buckets = none) fun _ _ => False := by
  refine .get_bind (.bind_ok (Storing.on_set _ _) ?_)
  split
  · exact .throw ⟨hfails,hmissing⟩
  · refine .bind_never (.get_bind ?_)
    rw [hmissing]
    exact .throw ⟨hfails,hmissing⟩

/-- What is done with the objects of a bucket. -/
private theorem objects_ends {α : Type} {request : Request} {act : Keyed ByteArray → Storing Client α}
    {wanted : α → Client → Prop} (h : Stocks fails bucket objects client)
    (hact : ∀ client, Stocks fails bucket objects client → (act objects).Ends client (fun _ => False) wanted) :
    (attempt request (do act (← Client.objects bucket))).Ends client
      (fun after => Stocks fails bucket objects after ∧ Refused fails request) wanted := by
  have hticked : Stocks fails bucket objects { client with requests := client.requests + 1 } := ⟨h.fails_eq,h.found⟩
  refine attempt_ends h.fails_eq hticked ?_
  refine .bind_ok (t := { client with requests := client.requests + 1 }) ?_ (hact _ hticked)
  simp [Client.objects, Storing.on_bind, h.found]

private theorem store_ends (hfails : client.fails = fails) (after : Keyed ByteArray) :
    (store bucket after).Ends client (fun _ => False) fun _ => Stocks fails bucket after :=
  ⟨hfails,by simp [Keyed.find?_insert]⟩

/-- A bucket that is there stays as it is, and a missing one is made. -/
theorem ensureBucket_ends (hfails : client.fails = fails) : (ensureBucket bucket).Ends client
    (fun after => (after.fails = fails ∧ after.buckets = client.buckets) ∧ Refused fails (.ensureBucket bucket))
    fun _ => Stocks fails bucket ((Keyed.find? bucket client.buckets).getD []) := by
  refine attempt_ends hfails ⟨hfails,rfl⟩ ?_
  refine .get_bind ?_
  cases hb : Keyed.find? bucket client.buckets with
  | none =>
    have hticked : ({ client with requests := client.requests + 1 } : Client).fails = fails := hfails
    rw [if_pos (by simp)]
    exact store_ends hticked []
  | some objects =>
    rw [if_neg (by simp)]
    exact .pure ⟨hfails,hb⟩

theorem put_ends (h : Stocks fails bucket objects client) (key : String) (body : ByteArray) :
    (put bucket key body).Ends client (fun after => Stocks fails bucket objects after ∧ Refused fails (.put bucket key))
      fun _ => Stocks fails bucket (Keyed.insert key body objects) :=
  objects_ends h fun _ h => store_ends h.fails_eq _

theorem fetch_ends (h : Stocks fails bucket objects client) (key : String) :
    (fetch bucket key).Ends client (fun after => Stocks fails bucket objects after ∧ Refused fails (.get bucket key))
      fun found after => found = Keyed.find? key objects ∧ Stocks fails bucket objects after :=
  objects_ends h fun _ h => .pure ⟨rfl,h⟩

theorem delete_ends (h : Stocks fails bucket objects client) (key : String) :
    (delete bucket key).Ends client (fun after => Stocks fails bucket objects after ∧ Refused fails (.delete bucket key))
      fun _ => Stocks fails bucket (Keyed.erase key objects) :=
  objects_ends h fun _ h => store_ends h.fails_eq _

theorem summaries_ends (h : Stocks fails bucket objects client) (start : String) :
    (summaries bucket start).Ends client (fun after => Stocks fails bucket objects after ∧ Refused fails (.list bucket start))
      fun found after => found = (startingWith start objects).map Summary.of ∧ Stocks fails bucket objects after :=
  objects_ends h fun _ h => .pure ⟨rfl,h⟩

theorem list_ends (h : Stocks fails bucket objects client) (start : String) :
    (list bucket start).Ends client (fun after => Stocks fails bucket objects after ∧ Refused fails (.list bucket start))
      fun keys after => keys = (startingWith start objects).keys ∧ Stocks fails bucket objects after :=
  (summaries_ends h start).bind fun _ _ ⟨hfound,h⟩ => .pure ⟨hfound ▸ map_key_summaries _,h⟩

end VirtualShell.Client
