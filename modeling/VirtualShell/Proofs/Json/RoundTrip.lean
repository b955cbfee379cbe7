import VirtualShell.Json.Printer
import VirtualShell.Json.Skip
import VirtualShell.Proofs.Text.Digits

/-!
Reading back what was printed: texts between quotes, whole numbers, and records of such values.
-/
namespace VirtualShell.Json

/-! ### Texts -/

private theorem hex_pair (n : Nat) (h : n < 32) (rest : List Char) :
    hex4 ('0' :: '0' :: hexDigit (n / 16) :: hexDigit (n % 16) :: rest) = .ok (n, rest) := by
  have hall : ∀ m < 32, Text.digitValue? 16 (hexDigit (m / 16)) = some (m / 16) ∧
      Text.digitValue? 16 (hexDigit (m % 16)) = some (m % 16) := by decide
  obtain ⟨hhigh,hlow⟩ := hall n h
  rw [hex4, hhigh, hlow, show Text.digitValue? 16 '0' = some 0 from by decide]
  simp only [Except.ok.injEq, Prod.mk.injEq, and_true]
  omega

/-- Whatever a character is written as between quotes, reading takes it back in one step. -/
theorem stringBody_escapeChar (fuel : Nat) (done : List Char) (c : Char) (rest : List Char) :
    stringBody (fuel + 1) done (escapeChar c ++ rest) = stringBody fuel (c :: done) rest := by
  unfold escapeChar
  split_ifs with h1 h2 h3 h4 h5 h6 h7 h8
  · subst h1; simp [stringBody, simpleEscape?]
  · subst h2; simp [stringBody, simpleEscape?]
  · subst h3; simp [stringBody, simpleEscape?]
  · subst h4; simp [stringBody, simpleEscape?]
  · subst h5; simp [stringBody, simpleEscape?]
  · have hc : c = '\x08' := Char.toNat_inj.mp h6
    subst hc; simp [stringBody, simpleEscape?]
  · have hc : c = '\x0c' := Char.toNat_inj.mp h7
    subst hc; simp [stringBody, simpleEscape?]
  · have hsmall : c.toNat < 0xD800 := by omega
    have hpair := hex_pair c.toNat h8
    simp only [List.cons_append, List.nil_append, stringBody, unicodeEscape, hpair]
    simp [show ¬ 55296 ≤ c.toNat by omega, show ¬ 56320 ≤ c.toNat by omega]
  · simp [stringBody, h1, h2, h8]

theorem stringBody_quoted (s : List Char) {fuel : Nat} (hfuel : s.length < fuel) (done rest : List Char) :
    stringBody fuel done (s.flatMap escapeChar ++ '\"' :: rest) = .ok (.ofList (done.reverse ++ s), rest) := by
  induction s generalizing fuel done with
  | nil =>
    obtain ⟨fuel,rfl⟩ := Nat.exists_eq_succ_of_ne_zero (by simp at hfuel; omega : fuel ≠ 0)
    simp [stringBody]
  | cons c s ih =>
    obtain ⟨fuel,rfl⟩ := Nat.exists_eq_succ_of_ne_zero (by omega : fuel ≠ 0)
    rw [List.flatMap_cons, List.append_assoc, Nat.succ_eq_add_one, stringBody_escapeChar,
      ih (by simpa using hfuel)]
    simp

private theorem length_flatMap_escapeChar (s : List Char) : s.length ≤ (s.flatMap escapeChar).length := by
  induction s with
  | nil => exact Nat.le_refl _
  | cons c s ih =>
    have hc : 1 ≤ (escapeChar c).length := by
      unfold escapeChar
      split_ifs <;> simp
    simp only [List.flatMap_cons, List.length_append, List.length_cons]
    omega

theorem readString_quoted (s : String) (rest : List Char) :
    readString (s.toList.flatMap escapeChar ++ '\"' :: rest) = .ok (s, rest) := by
  have hlength := length_flatMap_escapeChar s.toList
  rw [readString, stringBody_quoted _ (by simp only [List.length_append]; omega)]
  simp

/-! ### Whole numbers -/

private theorem absorb_concat {ds : List Char} {significand n : Nat} (d : Char) (h : absorb significand ds = (n, 0))
    (hn : n * 10 + (d.toNat - 48) ≤ maxNatural) : absorb significand (ds ++ [d]) = (n * 10 + (d.toNat - 48), 0) := by
  induction ds generalizing significand with
  | nil =>
    obtain rfl := (Prod.mk.inj h).1
    simp [absorb, hn]
  | cons c ds ih =>
    simp only [List.cons_append, absorb] at h ⊢
    split at h
    · rw [if_pos ‹_›]
      exact ih h
    · simp at h

private theorem absorb_toDigits {n : Nat} (h : n ≤ maxNatural) : absorb 0 (Nat.toDigits 10 n) = (n, 0) := by
  induction n using Nat.strongRecOn with
  | ind n ih =>
    by_cases hn : n < 10
    · rw [Nat.toDigits_of_lt_base hn]
      simp [absorb, Nat.toNat_digitChar_sub_48_of_lt_ten hn, h]
    · have hd := Nat.toNat_digitChar_sub_48_of_lt_ten (Nat.mod_lt n (by omega : 10 > 0))
      have hsum : n / 10 * 10 + ((n % 10).digitChar.toNat - 48) = n := by rw [hd]; omega
      rw [Nat.toDigits_of_base_le (by omega) (by omega),
        absorb_concat _ (ih (n / 10) (by omega) (by omega)) (by rw [hsum]; exact h), hsum]

/-- What may follow a member of a record. -/
def Ends (rest : List Char) : Prop := ∃ c more, rest = c :: more ∧ (c = ',' ∨ c = '\x7d')

/-- No value goes on here: a member ends, or its line does. -/
def Stops (rest : List Char) : Prop := ∃ c more, rest = c :: more ∧ (c = ',' ∨ c = '\x7d' ∨ c = '\n')

private theorem Ends.stops {rest : List Char} (h : Ends rest) : Stops rest := by
  obtain ⟨c,more,hr,hc⟩ := h
  exact ⟨c,more,hr,hc.imp_right .inl⟩

theorem readMagnitude_toDigits (n : UInt64) {rest : List Char} (h : Stops rest) :
    readMagnitude false (Nat.toDigits 10 n.toNat ++ rest) = .ok (.natural n, rest) := by
  obtain ⟨c,more,rfl,hc⟩ := h
  have hdigit : c.isDigit = false := by rcases hc with rfl | rfl | rfl <;> decide
  have htake : (Nat.toDigits 10 n.toNat ++ c :: more).takeWhile Char.isDigit = Nat.toDigits 10 n.toNat := by
    rw [List.takeWhile_append_of_pos fun _ => Text.isDigit_of_mem_toDigits]
    simp [hdigit]
  have hdrop : (Nat.toDigits 10 n.toNat ++ c :: more).dropWhile Char.isDigit = c :: more := by
    rw [List.dropWhile_append_of_pos fun _ => Text.isDigit_of_mem_toDigits]
    simp [hdigit]
  have hleading : ((Nat.toDigits 10 n.toNat).isEmpty || ((Nat.toDigits 10 n.toNat).head? = some '0' &&
      (Nat.toDigits 10 n.toNat).length > 1)) = false := by
    have hne : (Nat.toDigits 10 n.toNat).isEmpty = false := by simp
    rw [hne, Bool.false_or]
    by_cases hz : (Nat.toDigits 10 n.toNat).head? = some '0'
    · rw [Text.head?_toDigits hz]
      decide
    · simp [hz]
  have hmax : n.toNat ≤ maxNatural := by
    have := n.toNat_lt
    simp only [maxNatural, UInt64.size]
    omega
  simp only [readMagnitude, htake, hdrop, hleading, absorb_toDigits hmax, Bool.false_eq_true, if_false]
  rcases hc with rfl | rfl | rfl <;> simp [wholeNumber]

/-! ### Records -/

/-- The values whose text is read back here: all but arrays, objects and other numbers. -/
inductive Flat : Json → Prop where
  | null : Flat .null
  | bool (b : Bool) : Flat (.bool b)
  | natural (n : UInt64) : Flat (.number (.natural n))
  | string (s : String) : Flat (.string s)

theorem skipSpace_of_not {c : Char} (h : isSpace c = false) (rest : List Char) :
    skipSpace (c :: rest) = c :: rest := by
  simp [skipSpace, h]

theorem readValue_compact {value : Json} (hv : Flat value) {rest : List Char} (h : Stops rest) (fuel limit : Nat) :
    readValue (fuel + 1) limit ((compact value).toList ++ rest) = .ok (value, rest) := by
  cases hv with
  | null => simp [compact, readValue, skipSpace, isSpace, expect]
  | bool b => cases b <;> simp [compact, readValue, skipSpace, isSpace, expect]
  | natural n =>
    have htext : (compact (.number (.natural n))).toList = Nat.toDigits 10 n.toNat := by
      simp [compact, numberText]
    have hmagnitude := readMagnitude_toDigits n h
    have hdigits : ∀ c ∈ Nat.toDigits 10 n.toNat, c.isDigit = true := fun _ => Text.isDigit_of_mem_toDigits
    rw [htext]
    obtain ⟨d,ds,hd⟩ := List.exists_cons_of_ne_nil (Nat.toDigits_ne_nil (n := n.toNat) (b := 10))
    rw [hd, List.cons_append] at hmagnitude ⊢
    have hdigit : d.isDigit = true := hdigits d (by simp [hd])
    have hspace : isSpace d = false := by
      by_contra hs
      simp only [isSpace, Bool.not_eq_false, Bool.or_eq_true, decide_eq_true_eq] at hs
      rcases hs with ((rfl | rfl) | rfl) | rfl <;> exact absurd hdigit (by decide)
    rw [readValue, skipSpace_of_not hspace]
    split
    all_goals first | (rename_i he; obtain ⟨rfl,_⟩ := List.cons.inj he; exact absurd hdigit (by decide)) | skip
    rw [hmagnitude]
    rfl
  | string s =>
    have hq : (compact (.string s)).toList ++ rest = '\"' :: (s.toList.flatMap escapeChar ++ '\"' :: rest) := by
      simp [compact, quote]
    rw [hq, readValue, skipSpace_of_not (by decide)]
    simp [readString_quoted, Except.map]

private theorem member_text (key : String) (value : Json) (rest : List Char) :
    (quote key ++ ":" ++ compact value).toList ++ rest =
      '\"' :: (key.toList.flatMap escapeChar ++ '\"' :: ':' :: ((compact value).toList ++ rest)) := by
  simp [quote]

/-- One member is read, whatever is made of what follows it. -/
private theorem readKnown_member {names : List String} {key : String} {value : Json} (hk : key ∈ names)
    (hv : Flat value) {rest : List Char} (h : Ends rest) (fuel : Nat) :
    readKnown names (fuel + 1) ((quote key ++ ":" ++ compact value).toList ++ rest) =
      match skipSpace rest with
      | '\x7d' :: rest => .ok ([(key, value)], rest)
      | ',' :: rest => (readKnown names fuel rest).map fun (members, rest) => ((key, value) :: members, rest)
      | _ => .error .malformed := by
  rw [member_text, readKnown, skipSpace_of_not (by decide)]
  simp only [bind, Except.bind, readString_quoted, skipSpace_of_not (c := ':') (by decide), List.contains_eq_mem, hk,
    decide_true, if_true, readValue_compact hv h.stops]
  simp only [pure, Except.pure, List.singleton_append]
  obtain ⟨c,more,rfl,rfl | rfl⟩ := h
  · rw [skipSpace_of_not (by decide)]
    cases readKnown names fuel more <;> rfl
  · rw [skipSpace_of_not (by decide)]
    rfl

theorem readKnown_compactMembers {names : List String} {members : List (String × Json)} (hne : members ≠ [])
    (hk : ∀ m ∈ members, m.1 ∈ names ∧ Flat m.2) (fuel : Nat) (hfuel : members.length ≤ fuel) (rest : List Char) :
    readKnown names fuel ((compactMembers members).toList ++ '\x7d' :: rest) = .ok (members, rest) := by
  induction members generalizing fuel with
  | nil => exact absurd rfl hne
  | cons m members ih =>
    obtain ⟨fuel,rfl⟩ := Nat.exists_eq_succ_of_ne_zero (by simp at hfuel; omega : fuel ≠ 0)
    obtain ⟨hm,hv⟩ := hk m (by simp)
    cases members with
    | nil =>
      rw [compactMembers, readKnown_member hm hv ⟨_,_,rfl,.inr rfl⟩, skipSpace_of_not (by decide)]
      rfl
    | cons n members =>
      have htail := ih (by simp) (fun m hm => hk m (by simp [hm])) fuel (by simpa using hfuel)
      have htext : (compactMembers (m :: n :: members)).toList ++ '\x7d' :: rest =
          (quote m.1 ++ ":" ++ compact m.2).toList ++
            ',' :: ((compactMembers (n :: members)).toList ++ '\x7d' :: rest) := by
        rw [compactMembers] <;> simp
      rw [htext, readKnown_member hm hv ⟨_,_,rfl,.inl rfl⟩, skipSpace_of_not (by decide)]
      simp only [htail]
      rfl

/-- A record whose members are all known is read back as it was. -/
theorem readRecord_compact {names : List String} {members : List (String × Json)} (hne : members ≠ [])
    (hk : ∀ m ∈ members, m.1 ∈ names ∧ Flat m.2) :
    readRecord names (Json.object members).compact = .ok (.object members) := by
  have htext : (Json.object members).compact.toList = '\x7b' :: ((compactMembers members).toList ++ ['\x7d']) := by
    simp [compact]
  have hquote : ∃ more, (compactMembers members).toList = '\"' :: more := by
    cases members with
    | nil => exact absurd rfl hne
    | cons m members => cases members <;> simp [compactMembers, quote]
  have hlength : ∀ ms : List (String × Json), ms.length ≤ (compactMembers ms).toList.length := by
    intro ms
    induction ms with
    | nil => simp
    | cons m ms ih =>
      cases ms with
      | nil => simp [compactMembers, quote]
      | cons n ms =>
        rw [compactMembers]
        · simp only [String.toList_append, List.length_append, List.length_cons] at ih ⊢
          have hcomma : ",".toList.length = 1 := by decide
          omega
        · simp
  have hread := readKnown_compactMembers hne hk (((compactMembers members).toList ++ ['\x7d']).length + 1)
    (by have := hlength members; simp only [List.length_append]; omega) []
  obtain ⟨more,hm⟩ := hquote
  rw [readRecord, htext, skipSpace_of_not (by decide)]
  rw [hm, List.cons_append] at hread ⊢
  simp only [skipSpace_of_not (c := '\"') (by decide)]
  change (readKnown names _ _ >>= fun x => if (skipSpace x.2).isEmpty then _ else _) = _
  rw [hread]
  rfl

end VirtualShell.Json
