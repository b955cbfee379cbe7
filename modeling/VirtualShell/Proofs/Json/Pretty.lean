import VirtualShell.Proofs.Json.RoundTrip
import VirtualShell.Proofs.Keyed

/-!
Reading back an object that was spread over lines. Its members are read as they were written, and sorting leaves
them as they are if they were in order.
-/
namespace VirtualShell
namespace Keyed
variable {α : Type}

/-- What comes after all keys is added at the end. -/
theorem insert_eq_concat {pairs : Keyed α} {key : String} (h : ∀ pair ∈ pairs, pair.1 < key) (value : α) :
    insert key value pairs = pairs ++ [(key, value)] := by
  induction pairs with
  | nil => rfl
  | cons pair rest ih =>
    have hlt := h pair (by simp)
    rw [insert, if_neg hlt.ne, if_neg hlt.asymm, ih fun other ho => h other (by simp [ho]), List.cons_append]

end Keyed

namespace Json

/-- A value without parts is the same on one line and over several. -/
private theorem pretty_of_flat {value : Json} (h : Flat value) (depth : Nat) : pretty depth value = compact value := by
  cases h <;> simp [pretty, compact]

private theorem canonical_of_flat {value : Json} (h : Flat value) : canonical value = value := by
  cases h <;> rfl

private theorem canonicalMembers_of_rising {members sorted : Keyed Json} (hflat : ∀ m ∈ members, Flat m.2)
    (h : (sorted ++ members).Rising) : canonicalMembers members sorted = sorted ++ members := by
  induction members generalizing sorted with
  | nil => simp [canonicalMembers]
  | cons m members ih =>
    obtain ⟨key,value⟩ := m
    have hlast : ∀ pair ∈ sorted, pair.1 < key := fun pair hp =>
      (List.pairwise_append.mp h).2.2 pair hp _ List.mem_cons_self
    have hmore : (sorted ++ [(key, value)] ++ members).Rising := by rwa [List.append_assoc, List.singleton_append]
    rw [canonicalMembers, canonical_of_flat (hflat _ List.mem_cons_self), Keyed.insert_eq_concat hlast,
      ih (fun m hm => hflat m (by simp [hm])) hmore, List.append_assoc, List.singleton_append]

/-! ### Lines -/

private theorem skipSpace_indent (depth : Nat) (rest : List Char) :
    skipSpace ((indent depth).toList ++ rest) = skipSpace rest := by
  have hblank : ∀ c ∈ (indent depth).toList, isSpace c = true := by
    intro c hc
    simp only [indent, String.toList_ofList, List.mem_cons, List.mem_replicate] at hc
    obtain rfl | ⟨_,rfl⟩ := hc <;> decide
  rw [skipSpace, skipSpace, List.dropWhile_append_of_pos hblank]

private theorem readValue_blank (fuel limit : Nat) (s : List Char) :
    readValue (fuel + 1) limit (' ' :: s) = readValue (fuel + 1) limit s := by
  have hskip : skipSpace (' ' :: s) = skipSpace s := by simp [skipSpace, isSpace]
  rw [readValue, readValue, hskip]

private theorem stops_indent (depth : Nat) (rest : List Char) : Stops ((indent depth).toList ++ rest) :=
  ⟨'\n',List.replicate (2 * depth) ' ' ++ rest,by simp [indent],.inr (.inr rfl)⟩

/-- One member is read from its line, and then the end of the object or the next line. -/
private theorem readMembers_line {value : Json} (hv : Flat value) (depth : Nat) (key : String) {rest tail : List Char}
    (h : Stops rest) (fuel limit : Nat) :
    let text := (indent depth ++ quote key ++ ": " ++ pretty depth value).toList ++ rest
    (skipSpace rest = '\x7d' :: tail → readMembers (fuel + 2) limit text = .ok ([(key, value)], tail)) ∧
    (skipSpace rest = ',' :: tail → readMembers (fuel + 2) limit text =
      (readMembers (fuel + 1) limit tail).map fun (members, rest) => ((key, value) :: members, rest)) := by
  intro text
  have htext : text = (indent depth).toList ++
      '\"' :: (key.toList.flatMap escapeChar ++ '\"' :: ':' :: ' ' :: ((compact value).toList ++ rest)) := by
    simp [text, quote, pretty_of_flat hv]
  rw [htext, readMembers, skipSpace_indent, skipSpace_of_not (by decide)]
  simp only [bind, Except.bind, readString_quoted, skipSpace_of_not (c := ':') (by decide), readValue_blank,
    readValue_compact hv h]
  refine ⟨fun hskip => ?_,fun hskip => ?_⟩
  · rw [hskip]
    rfl
  · rw [hskip]
    rfl

private theorem readMembers_pretty {members : List (String × Json)} (hne : members ≠ []) (hflat : ∀ m ∈ members, Flat m.2)
    (depth fuel limit : Nat) (hfuel : members.length < fuel) (rest : List Char) :
    readMembers fuel limit ((prettyMembers (depth + 1) members).toList ++ ((indent depth).toList ++ '\x7d' :: rest)) =
      .ok (members, rest) := by
  induction members generalizing fuel with
  | nil => exact absurd rfl hne
  | cons m members ih =>
    obtain ⟨fuel,rfl⟩ : ∃ n, fuel = n + 2 := ⟨fuel - 2,by simp at hfuel; omega⟩
    obtain ⟨key,value⟩ := m
    have hvalue : Flat value := hflat _ List.mem_cons_self
    cases members with
    | nil =>
      rw [prettyMembers]
      exact (readMembers_line hvalue _ key (stops_indent _ _) fuel limit).1
        (by rw [skipSpace_indent, skipSpace_of_not (by decide)])
    | cons next members =>
      have hrest := ih (by simp) (fun m hm => hflat m (by simp [hm])) (fuel + 1) (by simpa using hfuel)
      have htext : (prettyMembers (depth + 1) ((key, value) :: next :: members)).toList ++
            ((indent depth).toList ++ '\x7d' :: rest) =
          (indent (depth + 1) ++ quote key ++ ": " ++ pretty (depth + 1) value).toList ++
            ',' :: ((prettyMembers (depth + 1) (next :: members)).toList ++ ((indent depth).toList ++ '\x7d' :: rest)) := by
        rw [prettyMembers] <;> simp
      rw [htext, (readMembers_line hvalue _ key ⟨_,_,rfl,.inl rfl⟩ fuel limit).2 (skipSpace_of_not (by decide) _), hrest]
      rfl

/-! ### Whole texts -/

private theorem length_le_prettyMembers (depth : Nat) (members : List (String × Json)) :
    members.length ≤ (prettyMembers depth members).toList.length := by
  induction members with
  | nil => simp
  | cons m members ih =>
    cases members with
    | nil =>
      simp [prettyMembers, quote]
      omega
    | cons next members =>
      have htext : prettyMembers depth (m :: next :: members) =
          indent depth ++ quote m.1 ++ ": " ++ pretty depth m.2 ++ "," ++ prettyMembers depth (next :: members) := by
        rw [prettyMembers]
        simp
      have hcomma : ",".toList.length = 1 := by decide
      simp only [htext, String.toList_append, List.length_append, List.length_cons] at ih ⊢
      omega

/-- The lines of members begin with blanks, and then comes a quote. -/
private theorem skipSpace_prettyMembers {members : List (String × Json)} (hne : members ≠ []) (depth : Nat) (rest : List Char) :
    ∃ more, skipSpace ((prettyMembers depth members).toList ++ rest) = '\"' :: more ∧
      (prettyMembers depth members).toList ++ rest = (indent depth).toList ++ '\"' :: more := by
  have hquote : ∃ more, (prettyMembers depth members).toList ++ rest = (indent depth).toList ++ '\"' :: more := by
    cases members with
    | nil => exact absurd rfl hne
    | cons m members => cases members <;> simp [prettyMembers, quote]
  obtain ⟨more,hmore⟩ := hquote
  exact ⟨more,by rw [hmore, skipSpace_indent, skipSpace_of_not (by decide)],hmore⟩

/-- Reading members does not depend on the blanks before the first. -/
private theorem readMembers_indent (depth fuel limit : Nat) (s : List Char) :
    readMembers fuel limit ((indent depth).toList ++ s) = readMembers fuel limit s := by
  cases fuel with
  | zero => rw [readMembers, readMembers]
  | succ fuel => rw [readMembers, readMembers, skipSpace_indent]

/-- An object of values without parts is read back from its lines. -/
theorem read_pretty {members : Keyed Json} (hne : members ≠ []) (hrising : members.Rising) (hflat : ∀ m ∈ members, Flat m.2) :
    read (pretty 0 (.object members)) = .ok (.object members) := by
  have htext : (pretty 0 (.object members)).toList =
      '\x7b' :: ((prettyMembers 1 members).toList ++ ((indent 0).toList ++ ['\x7d'])) := by
    rw [pretty] <;> simp [hne]
  obtain ⟨more,hskip,hmore⟩ := skipSpace_prettyMembers hne 1 ((indent 0).toList ++ ['\x7d'])
  have hread : ∀ fuel, members.length < fuel → readMembers fuel 126 ('\"' :: more) = .ok (members, []) := by
    intro fuel hfuel
    rw [← readMembers_indent 1, ← hmore]
    exact readMembers_pretty hne hflat 0 fuel 126 hfuel []
  have hvalue : readValue (2 * (pretty 0 (.object members)).toList.length + 2) depthLimit (pretty 0 (.object members)).toList =
      .ok (.object members, []) := by
    have hlength := length_le_prettyMembers 1 members
    rw [htext, readValue, skipSpace_of_not (by decide)]
    simp only [depthLimit, hskip]
    change (readMembers _ 126 ('\"' :: more)).map _ = _
    rw [hread _ (by simp only [List.length_cons, List.length_append]; omega)]
    rfl
  have hsorted : canonicalMembers members [] = members := canonicalMembers_of_rising hflat hrising
  rw [read, readAsWritten, hvalue]
  simp [bind, Except.bind, pure, Except.pure, skipSpace, Except.map, canonical, hsorted]

end Json
end VirtualShell
