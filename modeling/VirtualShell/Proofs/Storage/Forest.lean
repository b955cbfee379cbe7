import Mathlib.Data.List.Basic
import Mathlib.Data.String.Basic
import Mathlib.Tactic.Common
import VirtualShell.Storage.Forest

/-!
Laws of forests whose names rise strictly at every depth, and of changing one entry of a tree: what lies
elsewhere stays as it is.
-/
namespace VirtualShell

namespace Forest

def Rising : Forest → Prop
  | nil => True
  | file name _ _ next => (∀ n ∈ next.names, name < n) ∧ Rising next
  | dir name _ below next => (∀ n ∈ next.names, name < n) ∧ Rising below ∧ Rising next

end Forest

namespace Entry

def Rising : Entry → Prop
  | .file .. => True
  | .dir _ below => below.Rising

/-- What an entry shows of itself: its node, and its content if it is a file. -/
def face : Entry → Node × Option String
  | .file node content => (node, some content)
  | .dir node _ => (node, none)

end Entry

namespace Forest

theorem mem_names_iff (name : String) (forest : Forest) : name ∈ forest.names ↔ (forest.find? name).isSome := by
  induction forest with
  | nil => simp [names, find?]
  | file n node content next ih => simp only [names, find?, List.mem_cons, ih, eq_comm (a := name)]; split <;> simp_all
  | dir n node below next _ ih => simp only [names, find?, List.mem_cons, ih, eq_comm (a := name)]; split <;> simp_all

theorem Rising.names_pairwise {forest : Forest} (h : forest.Rising) : forest.names.Pairwise (· < ·) := by
  induction forest with
  | nil => exact .nil
  | file n node content next ih => exact .cons h.1 (ih h.2)
  | dir n node below next _ ih => exact .cons h.1 (ih h.2.2)

theorem Rising.find? {forest : Forest} (h : forest.Rising) {name : String} {entry : Entry}
    (hf : forest.find? name = some entry) : entry.Rising := by
  induction forest with
  | nil => simp [Forest.find?] at hf
  | file n node content next ih =>
    simp only [Forest.find?] at hf
    split at hf
    · obtain rfl := Option.some.inj hf; trivial
    · exact ih h.2 hf
  | dir n node below next _ ih =>
    simp only [Forest.find?] at hf
    split at hf
    · obtain rfl := Option.some.inj hf; exact h.2.1
    · exact ih h.2.2 hf

theorem rising_link {name : String} {entry : Entry} {next : Forest} (h : ∀ n ∈ next.names, name < n)
    (he : entry.Rising) (hn : next.Rising) : (link name entry next).Rising := by
  cases entry with
  | file node content => exact ⟨h,hn⟩
  | dir node below => exact ⟨h,he,hn⟩

theorem mem_names_put (name n : String) (entry : Entry) (forest : Forest) :
    n ∈ (put name entry forest).names ↔ n = name ∨ n ∈ forest.names := by
  simp only [mem_names_iff, find?_put, eq_comm (a := n)]
  split <;> simp_all

theorem Rising.put {forest : Forest} (h : forest.Rising) (name : String) {entry : Entry} (he : entry.Rising) :
    (forest.put name entry).Rising := by
  induction forest with
  | nil => exact rising_link (by simp [names]) he trivial
  | file n node content next ih =>
    simp only [Forest.put]
    split
    · subst n; exact rising_link h.1 he h.2
    · rename_i hne
      split
      · rename_i hlt
        refine rising_link ?_ he h
        intro m hm
        rcases List.mem_cons.mp hm with rfl | hm
        · exact hlt
        · exact hlt.trans (h.1 m hm)
      · rename_i hlt
        refine ⟨?_,ih h.2⟩
        intro m hm
        rcases (mem_names_put name m entry next).mp hm with rfl | hm
        · exact lt_of_le_of_ne (not_lt.mp hlt) hne
        · exact h.1 m hm
  | dir n node below next _ ih =>
    simp only [Forest.put]
    split
    · subst n; exact rising_link h.1 he h.2.2
    · rename_i hne
      split
      · rename_i hlt
        refine rising_link ?_ he h
        intro m hm
        rcases List.mem_cons.mp hm with rfl | hm
        · exact hlt
        · exact hlt.trans (h.1 m hm)
      · rename_i hlt
        refine ⟨?_,h.2.1,ih h.2.2⟩
        intro m hm
        rcases (mem_names_put name m entry next).mp hm with rfl | hm
        · exact lt_of_le_of_ne (not_lt.mp hlt) hne
        · exact h.1 m hm

theorem mem_names_of_erase {name n : String} {forest : Forest} (h : n ∈ (erase name forest).names) :
    n ∈ forest.names := by
  induction forest with
  | nil => exact h
  | file a node content next ih =>
    simp only [erase] at h
    split at h
    · exact List.mem_cons_of_mem _ h
    · exact List.mem_cons.mpr ((List.mem_cons.mp h).imp_right ih)
  | dir a node below next _ ih =>
    simp only [erase] at h
    split at h
    · exact List.mem_cons_of_mem _ h
    · exact List.mem_cons.mpr ((List.mem_cons.mp h).imp_right ih)

theorem Rising.erase {forest : Forest} (h : forest.Rising) (name : String) : (forest.erase name).Rising := by
  induction forest with
  | nil => exact h
  | file n node content next ih =>
    simp only [Forest.erase]
    split
    · exact h.2
    · exact ⟨fun m hm => h.1 m (mem_names_of_erase hm),ih h.2⟩
  | dir n node below next _ ih =>
    simp only [Forest.erase]
    split
    · exact h.2.2
    · exact ⟨fun m hm => h.1 m (mem_names_of_erase hm),h.2.1,ih h.2.2⟩

private theorem find?_after {name n : String} {next : Forest} (h : ∀ m ∈ next.names, name < m) (hn : name = n) :
    next.find? n = none := by
  subst hn
  by_contra hs
  exact lt_irrefl _ (h name ((mem_names_iff name next).mpr (Option.isSome_iff_ne_none.mpr hs)))

/-- An erased name is gone, since no later sibling has it. -/
theorem find?_erase {forest : Forest} (h : forest.Rising) (name n : String) :
    (forest.erase name).find? n = if name = n then none else forest.find? n := by
  induction forest with
  | nil => simp [Forest.erase, Forest.find?]
  | file a node content next ih =>
    simp only [Forest.erase]
    by_cases ha : a = name
    · subst ha
      by_cases hn : a = n
      · simp [hn, find?_after h.1 hn]
      · simp [Forest.find?, hn]
    · by_cases hn : a = n
      · subst hn
        simp [Forest.find?, ha, Ne.symm ha]
      · simp [Forest.find?, ha, hn, ih h.2]
  | dir a node below next _ ih =>
    simp only [Forest.erase]
    by_cases ha : a = name
    · subst ha
      by_cases hn : a = n
      · simp [hn, find?_after h.1 hn]
      · simp [Forest.find?, hn]
    · by_cases hn : a = n
      · subst hn
        simp [Forest.find?, ha, Ne.symm ha]
      · simp [Forest.find?, ha, hn, ih h.2.2]

end Forest

namespace Entry

theorem find?_append (a b : List String) (entry : Entry) :
    entry.find? (a ++ b) = (entry.find? a).bind (find? b) := by
  induction a generalizing entry with
  | nil => rfl
  | cons part a ih =>
    cases entry with
    | file node content => rfl
    | dir node below =>
      simp only [List.cons_append, find?]
      cases below.find? part with
      | none => rfl
      | some child => exact ih child

theorem Rising.find? {names : List String} {entry found : Entry} (h : entry.Rising)
    (hf : entry.find? names = some found) : found.Rising := by
  induction names generalizing entry with
  | nil => obtain rfl := Option.some.inj hf; exact h
  | cons part names ih =>
    cases entry with
    | file node content => simp [Entry.find?] at hf
    | dir node below =>
      simp only [Entry.find?] at hf
      split at hf
      · rename_i child hc
        exact ih (Forest.Rising.find? h hc) hf
      · simp at hf

/-- Nothing is altered where nothing is found. -/
theorem alter_of_none {f : Entry → Option Entry} {names : List String} {entry : Entry}
    (h : (entry.find? names).bind f = none) : entry.alter f names = none := by
  induction names generalizing entry with
  | nil => exact h
  | cons part names ih =>
    cases entry with
    | file node content => rfl
    | dir node below =>
      simp only [alter]
      split
      · rename_i child hc
        rw [ih (by simpa [Entry.find?, hc] using h)]
        rfl
      · rfl

/-- What altering does: the entry at the end of the chain is replaced, and all that does not lie at or below it
keeps its face. -/
theorem alter_of_some {f : Entry → Option Entry} {names : List String} {entry found replaced : Entry}
    (hf : entry.find? names = some found) (hr : f found = some replaced) :
    ∃ altered, entry.alter f names = some altered ∧
      (∀ rest, altered.find? (names ++ rest) = replaced.find? rest) ∧
      (∀ other, ¬ names <+: other → (altered.find? other).map face = (entry.find? other).map face) ∧
      (entry.Rising → replaced.Rising → altered.Rising) := by
  induction names generalizing entry with
  | nil =>
    obtain rfl := Option.some.inj hf
    exact ⟨replaced,hr,fun _ => rfl,fun other h => absurd other.nil_prefix h,fun _ h => h⟩
  | cons part names ih =>
    cases entry with
    | file node content => simp [Entry.find?] at hf
    | dir node below =>
      simp only [Entry.find?] at hf
      cases hc : below.find? part with
      | none => simp [hc] at hf
      | some child =>
        rw [hc] at hf
        obtain ⟨altered,ha,hbelow,hother,hrising⟩ := ih hf
        refine ⟨.dir node (below.put part altered),by simp [alter, hc, ha],?_,?_,?_⟩
        · intro rest
          simp [Entry.find?, Forest.find?_put, hbelow]
        · intro other ho
          cases other with
          | nil => rfl
          | cons p other =>
            simp only [Entry.find?, Forest.find?_put]
            by_cases hp : part = p
            · subst hp
              simpa [hc] using hother other fun h => ho (by simpa using h)
            · simp [hp]
        · intro hb hre
          exact Forest.Rising.put hb part (hrising (Forest.Rising.find? hb hc) hre)

end Entry
end VirtualShell
