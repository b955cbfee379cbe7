import VirtualShell.Node.Json
import VirtualShell.Proofs.Json.RoundTrip
import VirtualShell.Text.Utf8

/-!
Nodes survive being written as JSON: what is read from the text of a node is the node.
-/
namespace VirtualShell

namespace Node

private theorem members_known (node : Node) : ∀ m ∈ node.members, m.1 ∈ fieldNames ∧ Json.Flat m.2 := by
  intro m hm
  simp only [members, List.mem_append, List.mem_cons, List.not_mem_nil, or_false] at hm
  rcases hm with (rfl | rfl | rfl | rfl | rfl) | hm
  · exact ⟨by simp [fieldNames],.string _⟩
  · exact ⟨by simp [fieldNames],.bool _⟩
  · exact ⟨by simp [fieldNames],.string _⟩
  · exact ⟨by simp [fieldNames],.natural _⟩
  · exact ⟨by simp [fieldNames],.natural _⟩
  · split at hm
    · obtain rfl := List.mem_singleton.mp hm
      exact ⟨by simp [fieldNames],.natural _⟩
    · simp at hm

theorem ofJson_toJson (node : Node) : ofJson node.toJson = .ok node := by
  have hread : Json.readRecord fieldNames node.toJson = .ok (.object node.members) :=
    Json.readRecord_compact (by simp [members]) node.members_known
  rw [ofJson, hread]
  obtain ⟨name,isDir,parentPath,createdAt,modifiedAt,size⟩ := node
  cases size <;> rfl

end Node

/-- Text that was encoded is decoded as it was. -/
theorem Text.decodeLossy_toUTF8 (text : String) : decodeLossy text.toUTF8 = text := by
  have hvalid : String.fromUTF8? text.toUTF8 = some text := by
    simp [String.fromUTF8?, String.fromUTF8, text.isValidUTF8]
  rw [decodeLossy, hvalid]

end VirtualShell
