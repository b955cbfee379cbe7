import Mathlib.Algebra.BigOperators.Finprod
import Mathlib.Algebra.Order.BigOperators.Group.Finset
import VirtualShell.Proofs.Storage.Contract

/-! The bytes of all files of a view together, and how changes of the view change them. -/
namespace VirtualShell.View

/-- The bytes of the file at a chain of names; none for what is no file. -/
def bytesAt (view : View) (names : List String) : Nat := ((view names).map Item.bytes).getD 0

noncomputable def total (view : View) : Nat := ∑ᶠ names, view.bytesAt names

theorem bytesAt_of_file {view : View} {names : List String} {content : String} (h : view names = some (.file content)) :
    view.bytesAt names = content.utf8ByteSize := by
  simp [bytesAt, h, Item.bytes]

/-- The size that is kept with what stands somewhere. -/
def sizeAt (view : View) (names : List String) : Nat := view.bytesAt names % 2 ^ 64

theorem sizeAt_eq {view : View} {names : List String} {node : Option Node} (h : node.map Node.untimed = view.node? names) :
    ((node.bind Node.size).getD 0).toNat = view.sizeAt names := by
  have hsize : node.bind Node.size = (view.node? names).bind Node.size := by
    rw [← h]
    cases node <;> rfl
  rw [hsize, View.node?, sizeAt, bytesAt]
  rcases view names with _ | _ | content
  · rfl
  · rfl
  · exact UInt64.toNat_ofNat'

private theorem total_eq_sum {view : View} (s : Finset (List String)) (h : ∀ names, (view names).isSome → names ∈ s) :
    view.total = ∑ names ∈ s, view.bytesAt names := by
  refine finsum_eq_sum_of_support_subset _ fun names hn => h names ?_
  by_contra hnone
  rw [Option.not_isSome_iff_eq_none] at hnone
  simp [bytesAt, hnone] at hn

/-- The bytes of an enumeration are those of the view. -/
theorem Enumerates.byteCount_eq {view : View} {entries : List (List String × Item)} (h : view.Enumerates entries) :
    byteCount entries = view.total := by
  have hmem (names : List String) (hs : (view names).isSome) : names ∈ (entries.map Prod.fst).toFinset := by
    obtain ⟨item,hi⟩ := Option.isSome_iff_exists.mp hs
    exact List.mem_toFinset.mpr (List.mem_map.mpr ⟨(names,item),(h.2 names item).mpr hi,rfl⟩)
  rw [total_eq_sum _ hmem, List.sum_toFinset _ h.1, List.map_map, byteCount]
  congr 1
  apply List.map_congr_left
  rintro ⟨names,item⟩ hm
  simp [bytesAt, (h.2 names item).mp hm]

/-- A count of bytes that may have been kept in 64 bits is exact when all bytes fit them. -/
theorem Counts.eq_total {view : View} {n : Nat} {entries : List (List String × Item)} (hc : Counts n entries)
    (he : view.Enumerates entries) (hfits : view.total < 2 ^ 64) : n = view.total := by
  obtain ⟨hle,hmod⟩ := hc
  rw [he.byteCount_eq] at hle hmod
  rwa [Nat.mod_eq_of_lt hfits, Nat.mod_eq_of_lt (hle.trans_lt hfits)] at hmod

/-- A number that a store may report for the bytes it holds; it is kept in 64 bits. -/
def Reports (view : View) (total : Nat) : Prop := total ≤ view.total ∧ total % 2 ^ 64 = view.total % 2 ^ 64

theorem Measures.reports {view after : View} {stats : StorageStats} (h : view.Measures stats after) : view.Reports stats.bytes := by
  obtain ⟨_,entries,hentries,_,_,hcounts⟩ := h
  rwa [Counts, hentries.byteCount_eq] at hcounts

namespace WellFormed
variable {view : View}

theorem bytesAt_le_total (h : view.WellFormed) (names : List String) : view.bytesAt names ≤ view.total := by
  by_cases hs : (view names).isSome
  · rw [total_eq_sum h.finite.toFinset (by simp)]
    exact Finset.single_le_sum (fun _ _ => Nat.zero_le _) (by simpa using hs)
  · rw [Option.not_isSome_iff_eq_none] at hs
    simp [bytesAt, hs]

/-- Putting an item in place of another changes the total by their difference. -/
theorem total_set (h : view.WellFormed) (names : List String) (item : Option Item) :
    (view.set names item).total + view.bytesAt names = view.total + (item.map Item.bytes).getD 0 := by
  have hin : names ∈ insert names h.finite.toFinset := Finset.mem_insert_self _ _
  have hview : view.total = ∑ n ∈ insert names h.finite.toFinset, view.bytesAt n :=
    total_eq_sum _ fun n hn => Finset.mem_insert_of_mem (by simpa using hn)
  have hset : (view.set names item).total = ∑ n ∈ insert names h.finite.toFinset, (view.set names item).bytesAt n := by
    refine total_eq_sum _ fun n hn => ?_
    by_cases hne : n = names
    · exact hne ▸ hin
    · rw [set_ne _ _ hne] at hn
      exact Finset.mem_insert_of_mem (by simpa using hn)
  have hsame : ∑ n ∈ (insert names h.finite.toFinset).erase names, (view.set names item).bytesAt n =
      ∑ n ∈ (insert names h.finite.toFinset).erase names, view.bytesAt n := by
    refine Finset.sum_congr rfl fun n hn => ?_
    rw [bytesAt, set_ne _ _ (Finset.ne_of_mem_erase hn), bytesAt]
  have hitem : (view.set names item).bytesAt names = (item.map Item.bytes).getD 0 := by rw [bytesAt, set_self]
  rw [hview, hset, ← Finset.add_sum_erase _ _ hin, ← Finset.add_sum_erase _ _ hin, hsame, hitem]
  omega

/-- What is cleared away only lowers the total. -/
theorem total_cleared_le (h : view.WellFormed) : view.cleared.total ≤ view.total := by
  have hcleared (names : List String) : view.cleared.bytesAt names ≤ view.bytesAt names := by
    by_cases ht : Temporary names
    · simp [bytesAt, cleared_of_temporary _ ht]
    · rw [bytesAt, cleared_of_not_temporary _ ht, bytesAt]
  have hview : view.total = ∑ names ∈ h.finite.toFinset, view.bytesAt names := total_eq_sum _ (by simp)
  have hafter : view.cleared.total = ∑ names ∈ h.finite.toFinset, view.cleared.bytesAt names := by
    refine total_eq_sum _ fun names hs => ?_
    by_cases ht : Temporary names
    · simp [cleared_of_temporary _ ht] at hs
    · simpa [cleared_of_not_temporary _ ht] using hs
  rw [hview, hafter]
  exact Finset.sum_le_sum fun names _ => hcleared names

end WellFormed
end VirtualShell.View
