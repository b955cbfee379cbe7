import Mathlib.Data.List.Basic
import Mathlib.Data.String.Basic
import Mathlib.Tactic.Common
import VirtualShell.Keyed

/-! Laws of lists of pairs whose keys rise strictly. -/
namespace VirtualShell.Keyed
variable {α : Type}

def Rising (pairs : Keyed α) : Prop := pairs.Pairwise fun a b => a.1 < b.1

theorem rising_nil : Rising ([] : Keyed α) := .nil

variable {pairs : Keyed α} {key : String} {value : α}

theorem mem_of_find? (h : find? key pairs = some value) : (key, value) ∈ pairs := by
  induction pairs with
  | nil => simp [find?] at h
  | cons p rest ih =>
    simp only [find?] at h
    split at h
    · rename_i he
      exact List.mem_cons.mpr (.inl (Prod.ext he.symm (Option.some.inj h).symm))
    · exact List.mem_cons_of_mem _ (ih h)

theorem find?_isSome_iff : (find? key pairs).isSome ↔ key ∈ keys pairs := by
  induction pairs with
  | nil => simp [find?, keys]
  | cons p rest ih =>
    change (find? key (p :: rest)).isSome ↔ key ∈ p.1 :: Keyed.keys rest
    rw [List.mem_cons, find?]
    split
    · simp [*]
    · rename_i hne
      simp [ih, Ne.symm hne]

theorem Rising.find?_iff (h : pairs.Rising) : find? key pairs = some value ↔ (key, value) ∈ pairs := by
  refine ⟨mem_of_find?,fun hm => ?_⟩
  induction h with
  | nil => simp at hm
  | @cons p rest hp _ ih =>
    simp only [find?]
    rcases List.mem_cons.mp hm with rfl | hm
    · simp
    · rw [if_neg (hp _ hm).ne]
      exact ih hm

theorem mem_insert {pair : String × α} (h : pair ∈ insert key value pairs) : pair = (key, value) ∨ pair ∈ pairs := by
  induction pairs with
  | nil => simpa [insert] using h
  | cons p rest ih =>
    simp only [insert] at h
    split at h
    · rcases List.mem_cons.mp h with h | h
      · exact .inl h
      · exact .inr (List.mem_cons_of_mem _ h)
    · split at h
      · rcases List.mem_cons.mp h with h | h
        · exact .inl h
        · exact .inr h
      · rcases List.mem_cons.mp h with h | h
        · exact .inr (List.mem_cons.mpr (.inl h))
        · exact (ih h).imp_right (List.mem_cons_of_mem _)

theorem mem_of_mem_ofList {entries : List (String × α)} {pair : String × α} (h : pair ∈ ofList entries) : pair ∈ entries := by
  have hfold (sorted : Keyed α) : pair ∈ entries.foldl (fun sorted entry => insert entry.1 entry.2 sorted) sorted →
      pair ∈ sorted ∨ pair ∈ entries := by
    clear h
    induction entries generalizing sorted with
    | nil => exact .inl
    | cons entry entries ih =>
      intro h
      rcases ih _ h with h | h
      · exact (mem_insert h).elim (fun he => .inr (by simp [he])) .inl
      · exact .inr (List.mem_cons_of_mem _ h)
  exact (hfold [] h).resolve_left List.not_mem_nil

theorem Rising.insert (h : pairs.Rising) (key : String) (value : α) : (Keyed.insert key value pairs).Rising := by
  induction h with
  | nil => exact .cons (by simp) .nil
  | @cons p rest hp hr ih =>
    simp only [Keyed.insert]
    split
    · rename_i he
      exact .cons (he ▸ hp) hr
    · rename_i hne
      split
      · rename_i hlt
        refine .cons (fun pair hm => ?_) (.cons hp hr)
        rcases List.mem_cons.mp hm with rfl | hm
        · exact hlt
        · exact hlt.trans (hp pair hm)
      · rename_i hlt
        refine .cons (fun pair hm => ?_) ih
        rcases mem_insert hm with rfl | hm
        · exact lt_of_le_of_ne (not_lt.mp hlt) hne
        · exact hp pair hm

/-- What comes behind all keys is stored at the end. -/
theorem insert_of_lt (h : ∀ pair ∈ pairs, pair.1 < key) : Keyed.insert key value pairs = pairs ++ [(key, value)] := by
  induction pairs with
  | nil => rfl
  | cons p rest ih =>
    have hp : p.1 < key := h p (by simp)
    rw [Keyed.insert, if_neg hp.ne, if_neg hp.asymm, ih fun pair hpair => h pair (by simp [hpair]), List.cons_append]

/-- Pairs in order need no sorting. -/
theorem Rising.ofList_eq (h : pairs.Rising) : ofList pairs = pairs := by
  have hfold (sorted : Keyed α) (hsorted : (sorted ++ pairs).Rising) :
      pairs.foldl (fun sorted pair => Keyed.insert pair.1 pair.2 sorted) sorted = sorted ++ pairs := by
    clear h
    induction pairs generalizing sorted with
    | nil => simp
    | cons p rest ih =>
      have hp : ∀ pair ∈ sorted, pair.1 < p.1 := fun pair hpair => (List.pairwise_append.mp hsorted).2.2 pair hpair p (by simp)
      rw [List.append_cons] at hsorted ⊢
      rw [List.foldl_cons, insert_of_lt hp, ih _ hsorted]
  exact hfold [] h

theorem rising_ofList (entries : List (String × α)) : (ofList entries).Rising := by
  have hfold (sorted : Keyed α) (hsorted : sorted.Rising) :
      Rising (entries.foldl (fun sorted entry => Keyed.insert entry.1 entry.2 sorted) sorted) := by
    induction entries generalizing sorted with
    | nil => exact hsorted
    | cons entry entries ih => exact ih _ (hsorted.insert entry.1 entry.2)
  exact hfold [] rising_nil

theorem erase_sublist (key : String) (pairs : Keyed α) : (erase key pairs).Sublist pairs := by
  induction pairs with
  | nil => exact .slnil
  | cons p rest ih =>
    simp only [erase]
    split
    · exact List.sublist_cons_self _ _
    · exact ih.cons_cons _

theorem Rising.erase (h : pairs.Rising) (key : String) : (Keyed.erase key pairs).Rising :=
  h.sublist (erase_sublist key pairs)

theorem find?_erase_ne {k : String} (h : key ≠ k) : find? k (Keyed.erase key pairs) = find? k pairs := by
  induction pairs with
  | nil => rfl
  | cons p rest ih =>
    simp only [Keyed.erase]
    split
    · rename_i hp
      rw [find?, if_neg (hp ▸ h)]
    · rw [find?, find?, ih]

/-- An erased key is gone, since no later pair has it. -/
theorem Rising.find?_erase (h : pairs.Rising) (key k : String) :
    find? k (Keyed.erase key pairs) = if key = k then none else find? k pairs := by
  induction h with
  | nil => simp [Keyed.erase, find?]
  | @cons p rest hp hr ih =>
    have hafter : find? p.1 rest = none := by
      by_contra hs
      obtain ⟨v,hv⟩ := Option.ne_none_iff_exists'.mp hs
      exact lt_irrefl _ (hp (p.1,v) (mem_of_find? hv))
    simp only [Keyed.erase]
    by_cases hk : p.1 = key
    · subst hk
      by_cases hn : p.1 = k
      · subst hn
        simpa using hafter
      · simp [find?, hn]
    · by_cases hn : p.1 = k
      · subst hn
        simp [find?, hk, Ne.symm hk]
      · simp [find?, hk, hn, ih]

/-- Only the pair with the key goes. -/
theorem Rising.erase_eq (h : pairs.Rising) (key : String) : Keyed.erase key pairs = pairs.filter fun pair => pair.1 != key := by
  induction h with
  | nil => rfl
  | @cons p rest hp _ ih =>
    rw [Keyed.erase]
    split
    · rename_i hkey
      have hrest : ∀ pair ∈ rest, (pair.1 != key) = true := fun pair hpair => bne_iff_ne.mpr (hkey ▸ (hp pair hpair).ne')
      rw [List.filter_cons_of_neg (by simp [hkey]), List.filter_eq_self.mpr hrest]
    · rename_i hkey
      rw [ih, List.filter_cons_of_pos (by simpa using hkey)]

theorem find?_filter (p : String → Bool) (key : String) (pairs : Keyed α) :
    find? key (pairs.filter fun pair => p pair.1) = if p key then find? key pairs else none := by
  induction pairs with
  | nil => simp [find?]
  | cons pair rest ih =>
    by_cases hkey : pair.1 = key
    · subst hkey
      cases hp : p pair.1 <;> simp [find?, hp, ih]
    · cases hp : p pair.1 <;> simp [find?, hp, hkey, ih]

theorem Rising.nodup (h : pairs.Rising) : pairs.Nodup :=
  List.Pairwise.imp (fun hlt heq => hlt.ne (congrArg Prod.fst heq)) h

theorem Rising.keys_pairwise (h : pairs.Rising) : (keys pairs).Pairwise (· < ·) :=
  List.pairwise_map.mpr h

end VirtualShell.Keyed
