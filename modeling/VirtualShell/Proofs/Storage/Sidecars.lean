import VirtualShell.Proofs.Node.RoundTrip
import VirtualShell.Proofs.Storage.Client
import VirtualShell.Proofs.Storage.ObjectsFrame

/-!
What is written as a sidecar is what is loaded from it: whichever node it is, and whatever happens in between elsewhere in
the bucket.
-/
namespace VirtualShell.Objects
open Storing

variable {store after : Objects} {key path : String}

/-- A body that was put is in the bucket. -/
theorem bodyAt_put {body : ByteArray} (h : (request (Client.put store.bucket key body)).on store = (.ok (),after)) :
    after.keyPrefix = store.keyPrefix ∧ bodyAt after key = some (some body) := by
  rw [request, on_within] at h
  obtain ⟨hanswer,rfl⟩ := Prod.mk.inj h
  have hput : (Client.put store.bucket key body).on store.client =
      (.ok (),((Client.put store.bucket key body).on store.client).2) := Prod.ext hanswer rfl
  refine ⟨rfl,?_⟩
  cases hb : Keyed.find? store.bucket store.client.buckets with
  | none => exact ((Client.missing_ends rfl hb).of_ok hput).elim
  | some objects =>
    have hfound := ((Client.put_ends ⟨rfl,hb⟩ key body).of_ok hput).found
    rw [bodyAt, hfound, Option.map_some, Keyed.find?_insert, if_pos rfl]

theorem bodyAt_putNode {node : Node} (h : (putNode path node).on store = (.ok (),after)) :
    bodyAt after (after.nodeKey path) = some (some node.toJson.toUTF8) := by
  rw [putNode, on_bind_ok (on_get store)] at h
  obtain ⟨hsame,hbody⟩ := bodyAt_put h
  rw [nodeKey, key_eq, hsame, ← key_eq]
  exact hbody

/-- The request for the sidecar of a path goes through. -/
def Serves (store : Objects) (path : String) : Prop :=
  store.client.fails store.client.requests (.get store.bucket (store.nodeKey path)) = false

theorem load_of_bodyAt {node : Node} (hfetch : Serves store path)
    (hbody : bodyAt store (store.nodeKey path) = some (some node.toJson.toUTF8)) :
    ((load path).on store).1 = .ok (some node) := by
  obtain ⟨objects,hb,hf⟩ := Option.map_eq_some_iff.mp hbody
  have hanswer : (request (Client.fetch store.bucket (store.nodeKey path))).on store =
      (.ok (some node.toJson.toUTF8),ticked store) := by
    rw [Serves] at hfetch
    rw [request, on_within]
    simp [Client.fetch, Client.attempt, Client.objects, on_bind, hfetch, hb, hf, ticked]
  rw [load, on_bind_ok (on_get store), on_bind_ok hanswer]
  simp only [decode, Text.decodeLossy_toUTF8, Node.ofJson_toJson]
  rfl

/-- A node is what its text as JSON says, whatever its texts and numbers are; and once it was written as a sidecar, it is
what every later request for the sidecar gives that goes through, as long as the sidecar stays. -/
theorem sidecar_reads_back (node : Node) :
    Node.ofJson node.toJson = .ok node ∧
      ∀ (path : String) (store after : Objects), (putNode path node).on store = (.ok (),after) →
        ∀ later : Objects, bodyAt later (later.nodeKey path) = bodyAt after (after.nodeKey path) → Serves later path →
          ((load path).on later).1 = .ok (some node) := by
  refine ⟨node.ofJson_toJson,fun path store after hput later hstays hfetch => load_of_bodyAt hfetch ?_⟩
  rw [hstays, bodyAt_putNode hput]

private def awkward : Node := ⟨"a \"b\"\\\n\x01é",false,"/ü",0,18446744073709551615,some 18446744073709551615⟩

private def shelf : Objects := new ⟨[("b",[])],0,fun _ _ => false⟩ "b" "p"

private def shelved : Objects := ((putNode "/x" awkward).on shelf).2

/-- A name with quotes, a backslash, control characters and an accent, and the largest numbers. -/
theorem awkward_reads_back :
    (putNode "/x" awkward).on shelf = (.ok (),shelved) ∧ Serves shelved "/x" ∧
      ((load "/x").on shelved).1 = .ok (some awkward) := by
  have hput : (putNode "/x" awkward).on shelf = (.ok (),shelved) := rfl
  have hfetch : Serves shelved "/x" := rfl
  exact ⟨hput,hfetch,(sidecar_reads_back awkward).2 "/x" shelf shelved hput shelved rfl hfetch⟩

end VirtualShell.Objects
