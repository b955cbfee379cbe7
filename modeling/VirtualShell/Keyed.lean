/-! Lists of pairs kept in strictly rising order of their text keys. -/
namespace VirtualShell

/-- Pairs sorted by key, every key once. Text is ordered by code point. -/
abbrev Keyed (α : Type) := List (String × α)

namespace Keyed
variable {α : Type}

/-- The value stored under a key. -/
def find? (key : String) : Keyed α → Option α
  | [] => none
  | (k, v) :: rest => if k = key then some v else find? key rest

/-- Stores a value under a key, replacing the one there. -/
def insert (key : String) (value : α) : Keyed α → Keyed α
  | [] => [(key, value)]
  | (k, v) :: rest =>
    if k = key then (key, value) :: rest
    else if key < k then (key, value) :: (k, v) :: rest
    else (k, v) :: insert key value rest

/-- Drops the pair of a key. -/
def erase (key : String) : Keyed α → Keyed α
  | [] => []
  | (k, v) :: rest => if k = key then rest else (k, v) :: erase key rest

/-- Whether a key is present. -/
def contains (key : String) (pairs : Keyed α) : Bool := (find? key pairs).isSome

/-- The keys, in order. -/
def keys (pairs : Keyed α) : List String := pairs.map Prod.fst

/-- Sorts pairs by key; of two pairs with one key the later wins. -/
def ofList (pairs : List (String × α)) : Keyed α :=
  pairs.foldl (fun sorted pair => insert pair.1 pair.2 sorted) []

theorem find?_insert (key k : String) (value : α) (pairs : Keyed α) :
    find? k (insert key value pairs) = if key = k then some value else find? k pairs := by
  induction pairs with
  | nil => simp [insert, find?]
  | cons p rest ih =>
    obtain ⟨a, v⟩ := p
    by_cases h : a = key
    · subst h
      by_cases hk : a = k <;> simp [insert, find?, hk]
    · by_cases hlt : key < a
      · simp [insert, find?, h, hlt]
      · by_cases hk : a = k
        · subst hk
          simp [insert, find?, h, hlt, Ne.symm h]
        · simp [insert, find?, h, hlt, hk, ih]

end Keyed
end VirtualShell
