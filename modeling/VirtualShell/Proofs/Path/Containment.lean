import VirtualShell.Proofs.Path.Resolution

/-!
Containment of paths. The test looks at text, at a path and a directory followed by a slash; on canonical paths it is the
order of the lists of segments by prefix. It is therefore a partial order, the directories above one path form a chain,
and what only continues the last name of a directory lies beside it.
-/
namespace VirtualShell.Path
variable {path dir parent : String}

/-- On a canonical path the test compares segments, however the directory is written. -/
theorem Canonical.isWithin_iff (h : Canonical path) (dir : String) :
    isWithin path dir = true ↔ segments (normalize dir) <+: segments path := by
  rw [segments_normalize]
  exact Path.isWithin_iff (canonical_iff.mp h) dir

theorem Canonical.isWithin_self (h : Canonical path) : isWithin path path = true := by
  apply (h.isWithin_iff path).mpr
  simp

/-- What lies in a canonical directory lies in all that the directory lies in. -/
theorem Canonical.isWithin_trans (h : Canonical path) (hdir : Canonical dir) (hin : isWithin path dir = true) {top : String}
    (htop : isWithin dir top = true) : isWithin path top = true := by
  rw [h.isWithin_iff, segments_normalize] at hin
  rw [hdir.isWithin_iff] at htop
  rw [h.isWithin_iff]
  exact htop.trans hin

theorem Canonical.isWithin_antisymm (h : Canonical path) (hdir : Canonical dir) (hin : isWithin path dir = true)
    (hback : isWithin dir path = true) : path = dir := by
  rw [h.isWithin_iff, segments_normalize] at hin
  rw [hdir.isWithin_iff, segments_normalize] at hback
  rw [h.eq_ofSegments, hdir.eq_ofSegments, hback.eq_of_length_le hin.length_le]

/-- The directories above one path form a chain. -/
theorem Canonical.isWithin_total (h : Canonical path) {a b : String} (ha : isWithin path a = true) (hb : isWithin path b = true) :
    isWithin (normalize a) b = true ∨ isWithin (normalize b) a = true := by
  rw [h.isWithin_iff] at ha hb
  rw [(canonical_normalize a).isWithin_iff, (canonical_normalize b).isWithin_iff]
  exact (List.prefix_or_prefix_of_prefix ha hb).symm

/-! ### Neighbours -/

/-- A path lies below one name of a directory only. -/
theorem Canonical.name_unique (h : Canonical path) (parent : String) {a b : String} (ha : isName a = true) (hb : isName b = true)
    (hina : isWithin path (join parent a) = true) (hinb : isWithin path (join parent b) = true) : a = b := by
  rw [h.isWithin_iff, segments_normalize, segments_join parent ha] at hina
  rw [h.isWithin_iff, segments_normalize, segments_join parent hb] at hinb
  -- Two prefixes of one list that are of one length are the same list.
  have hsame : segments parent ++ [a] = segments parent ++ [b] := by
    apply (List.prefix_of_prefix_length_le hina hinb (by simp)).eq_of_length
    simp
  exact (List.cons.inj (List.append_cancel_left hsame)).1

/-- What continues the text of a directory otherwise than with a slash is not in it. -/
theorem Canonical.not_isWithin_append {rest : String} (h : Canonical (dir ++ rest)) (hdir : Canonical dir) (hroot : dir ≠ "/")
    (hrest : rest ≠ "") (hslash : rest.toList.head? ≠ some '/') : isWithin (dir ++ rest) dir = false := by
  rw [← Bool.not_eq_true]
  intro hin
  have hnil : segments dir ≠ [] := by rwa [ne_eq, ← normalize_eq_root_iff, canonical_iff.mp hdir]
  obtain ⟨more,hmore⟩ := (h.isWithin_iff dir).mp hin
  rw [segments_normalize] at hmore
  have hcontinued : (dir ++ rest).toList = dir.toList ++ rest.toList := String.toList_append
  by_cases hempty : more = []
  · have hsame : dir ++ rest = dir := by
      rw [h.eq_ofSegments, ← hmore, hempty, List.append_nil, ← hdir.eq_ofSegments]
    rw [hsame, List.self_eq_append_right, String.toList_eq_nil_iff] at hcontinued
    exact hrest hcontinued
  · -- Below the directory its text is followed by a slash.
    obtain ⟨tail,htail⟩ := (slash_prefix_iff (named_segments dir) (named_segments (dir ++ rest)) hnil).mpr ⟨more,hempty,hmore.symm⟩
    rw [← hdir.eq_ofSegments, ← h.eq_ofSegments, hcontinued, List.append_assoc, List.append_cancel_left_eq] at htail
    exact hslash (by rw [← htail]; rfl)

/--
For a canonical path and a directory written in any way, the test of containment holds if and only if the segments of the
directory begin those of the path. So on canonical paths containment is a partial order; the directories that hold one
path, however they are written, are comparable; a path lies below one name of a directory only, so that two names side by
side, alike as they may be, share nothing; and what continues a directory other than with a slash is outside it.
-/
theorem containment_segmentwise :
    (∀ path dir, Canonical path → (isWithin path dir = true ↔ segments (normalize dir) <+: segments path)) ∧
    (∀ path, Canonical path → isWithin path path = true) ∧
    (∀ path dir top, Canonical path → Canonical dir → isWithin path dir = true → isWithin dir top = true →
      isWithin path top = true) ∧
    (∀ path dir, Canonical path → Canonical dir → isWithin path dir = true → isWithin dir path = true → path = dir) ∧
    (∀ path a b, Canonical path → isWithin path a = true → isWithin path b = true →
      isWithin (normalize a) b = true ∨ isWithin (normalize b) a = true) ∧
    (∀ path parent a b, Canonical path → isName a = true → isName b = true → isWithin path (join parent a) = true →
      isWithin path (join parent b) = true → a = b) ∧
    ∀ dir rest, Canonical dir → Canonical (dir ++ rest) → dir ≠ "/" → rest ≠ "" → rest.toList.head? ≠ some '/' →
      isWithin (dir ++ rest) dir = false := by
  refine ⟨?_,fun path h => h.isWithin_self,?_,?_,?_,?_,?_⟩
  · intro path dir h
    exact h.isWithin_iff dir
  · intro path dir top h hdir hin htop
    exact h.isWithin_trans hdir hin htop
  · intro path dir h hdir hin hback
    exact h.isWithin_antisymm hdir hin hback
  · intro path a b h ha hb
    exact h.isWithin_total ha hb
  · intro path parent a b h ha hb hina hinb
    exact h.name_unique parent ha hb hina hinb
  · intro dir rest hdir h hroot hrest hslash
    exact h.not_isWithin_append hdir hroot hrest hslash

/-- A home with a neighbour whose name continues its own, and directories that are written in several ways. -/
theorem homely_beside_home :
    Canonical "/home/user/docs" ∧ Canonical "/home" ∧ Canonical "/homely" ∧ isName "home" = true ∧
    isWithin "/home/user/docs" "home//./user/" = true ∧ isWithin "/home/user" "/home" = true ∧
    isWithin "/home/user/docs" "/x/../home" = true ∧ isWithin (normalize "home//./user/") "/x/../home" = true ∧
    isWithin "/home" "/homely" = false ∧ isWithin "/homely" "/home" = false := by
  obtain ⟨hiff,hself,htrans,hanti,htotal,hname,happend⟩ := containment_segmentwise
  have hpath : Canonical "/home/user/docs" := canonical_iff.mpr (by decide)
  have huser : Canonical "/home/user" := canonical_iff.mpr (by decide)
  have hhome : Canonical "/home" := canonical_iff.mpr (by decide)
  have hhomely : Canonical "/homely" := canonical_iff.mpr (by decide)
  have hin : isWithin "/home/user/docs" "home//./user/" = true := (hiff _ _ hpath).mpr (by decide)
  have hup : isWithin "/home/user/docs" "/x/../home" = true :=
    htrans _ "/home/user" _ hpath huser (by decide) (by decide)
  have hchain : isWithin (normalize "home//./user/") "/x/../home" = true := by
    rcases htotal _ _ _ hpath hin hup with h | h
    · exact h
    · exact absurd h (by decide)
  refine ⟨hpath,hhome,hhomely,by decide,hin,by decide,hup,hchain,?_,?_⟩
  · -- Were it in there, the two names would be one.
    rw [← Bool.not_eq_true]
    intro hback
    exact absurd (hname "/home" "/" "home" "homely" hhome (by decide) (by decide) (hself _ hhome) hback) (by decide)
  · exact happend "/home" "ly" hhome hhomely (by decide) (by decide) (by decide)

end VirtualShell.Path
