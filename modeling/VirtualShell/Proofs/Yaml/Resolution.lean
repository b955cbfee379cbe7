import VirtualShell.Proofs.Yaml.Floats

/-!
What plain scalars stand for. A number that is read is of its proper size and form, and the text of such a number stands
for nothing else.
-/
namespace VirtualShell

/-- A number as it is read: what is negative has 64 bits and is not zero, what has a fraction is in the one form. -/
def JsonNumber.Proper : JsonNumber → Prop
  | .natural _ => True
  | .negative n => 0 < n.toNat ∧ n.toNat ≤ 2 ^ 63
  | .float x => x.isFinite = true ∧ x.Canonical

namespace Yaml
open Number Text Resolved

/-- What a text resolves to if it is written for a number. -/
def Resolved.ofNumber : JsonNumber → Resolved
  | .natural n => .natural n
  | .negative n => .negative n
  | .float x => .float x

/-- A number that a text stands for is of its proper size and form. -/
def Resolved.Proper : Resolved → Prop
  | .negative n => (JsonNumber.negative n).Proper
  | .float x => x.Canonical
  | _ => True

/-! ### What is read is proper -/

namespace Resolved

theorem lt_of_below {limit n : Nat} {found : Option Nat} (h : below limit found = some n) : n < limit := by
  rw [below, Option.filter_eq_some_iff] at h
  exact of_decide_eq_true h.2

theorem negative?_lt {limit n : Nat} {cs : List Char} (h : negative? limit cs = some n) : n < limit := by
  unfold negative? at h
  split at h
  · split at h
    · rename_i hmarked
      exact Option.some.inj h ▸ lt_of_below hmarked
    · split at h
      · cases h
      · exact lt_of_below h
  · cases h

theorem proper_whole? {cs : List Char} {r : Resolved} (h : whole? cs = some r) : r.Proper := by
  unfold whole? at h
  split at h
  · obtain rfl := Option.some.inj h
    trivial
  · split at h
    · rename_i n hnegative
      have hlt : n < 2 ^ 63 + 1 := negative?_lt hnegative
      obtain rfl := Option.some.inj h
      split
      · trivial
      · have hword : n.toUInt64.toNat = n := by
          rw [Nat.toUInt64_eq, UInt64.toNat_ofNat']
          exact Nat.mod_eq_of_lt (by omega)
        exact ⟨by omega,by omega⟩
    · split at h
      · obtain rfl := Option.some.inj h
        trivial
      · cases h

theorem canonical_decimal? {negative : Bool} {cs : List Char} {x : Binary64} (h : decimal? negative cs = some x) : x.Canonical := by
  unfold decimal? at h
  dsimp only at h
  split at h
  all_goals
    obtain ⟨digits,_,h⟩ := Option.bind_eq_some_iff.mp h
    obtain ⟨exponent,_,h⟩ := Option.bind_eq_some_iff.mp h
    rw [← Option.some.inj h]
    exact Binary64.canonical_ofDecimal _ _ _

theorem canonical_float? {cs : List Char} {x : Binary64} (h : float? cs = some x) : x.Canonical := by
  unfold float? at h
  dsimp only at h
  split at h
  · exact Option.some.inj h ▸ trivial
  · split at h
    · exact Option.some.inj h ▸ trivial
    · split at h
      · exact Option.some.inj h ▸ trivial
      · obtain ⟨h,_⟩ := Option.filter_eq_some_iff.mp h
        split at h <;> exact canonical_decimal? h

end Resolved

theorem proper_resolve (text : String) : (resolve text).Proper := by
  unfold resolve
  dsimp only
  split
  · trivial
  · split
    · trivial
    · rename_i hwhole
      exact proper_whole? hwhole
    · split
      · trivial
      · split
        · rename_i hfloat
          exact canonical_float? hfloat
        · trivial

/-! ### Numbers are no words -/

/-- A digit rules out the words for nothing and for truth values. -/
theorem resolve_of_digit {text : String} {d : Char} (hmem : d ∈ text.toList) (hd : d.isDigit = true) :
    resolve text = match whole? text.toList with
      | some n => n
      | none => if isPadded text.toList then .text else match float? text.toList with
        | some x => .float x
        | none => .text := by
  have hnot (words : List String) (hwords : ∀ word ∈ words, ∀ c ∈ word.toList, c.isDigit = false) : words.contains text = false := by
    rw [← Bool.not_eq_true, List.contains_iff_mem]
    intro h
    rw [hwords text h d hmem] at hd
    cases hd
  have hempty : text.isEmpty = false := by
    rw [← Bool.not_eq_true, String.isEmpty_iff]
    rintro rfl
    cases hmem
  have hnull : isNullWord text = false := hnot _ (by simp)
  have hbool : boolOf? text = none := by
    rw [boolOf?, hnot _ (by simp), hnot _ (by simp)]
    rfl
  rw [resolve, hempty, hnull, hbool]
  cases whole? text.toList <;> rfl

/-! ### Whole numbers -/

/-- A minus sign before digits does not matter for a needless zero. -/
private theorem isPadded_minus {c : Char} (hc : c.isDigit = true) (rest : List Char) : isPadded ('-' :: c :: rest) = isPadded (c :: rest) := by
  have hsign : isSignChar c = false := by
    rw [isSignChar, Bool.or_eq_false_iff]
    constructor <;> exact beq_eq_false_iff_ne.mpr fun h => by simp [h] at hc
  have hunsigned : unsigned (c :: rest) = c :: rest := by
    rw [unsigned, hsign]
    rfl
  rw [isPadded, isPadded, hunsigned]
  rfl

private theorem number?_of_mem {cs : List Char} {c : Char} (hmem : c ∈ cs) (hc : digitValue? 10 c = none) : number? 10 cs = none := by
  have hfold (start : Nat) : cs.foldlM (fun n d => (digitValue? 10 d).map fun v => 10 * n + v) start = none := by
    induction cs generalizing start with
    | nil => cases hmem
    | cons d rest ih =>
      rw [List.foldlM_cons]
      rcases List.mem_cons.mp hmem with rfl | hmem
      · rw [hc]
        rfl
      · cases digitValue? 10 d with
        | none => rfl
        | some v => exact ih hmem _
  rw [number?]
  split
  · rfl
  · exact hfold 0

private theorem marked?_of_second {cs : List Char} (h : ∀ c, cs[1]? = some c → c ≠ 'x' ∧ c ≠ 'o' ∧ c ≠ 'b') : marked? cs = none := by
  unfold marked?
  split
  · exact absurd rfl (h 'x' rfl).1
  · exact absurd rfl (h 'o' rfl).2.1
  · exact absurd rfl (h 'b' rfl).2.2
  · rfl

private theorem natural?_minus (limit : Nat) (cs : List Char) : natural? limit ('-' :: cs) = none := by
  have hnumber : number? 10 ('-' :: cs) = none := number?_of_mem List.mem_cons_self rfl
  simp [natural?, marked?, below, hnumber]

private theorem whole?_minus_toDigits {n : Nat} (hn : n < 2 ^ 63 + 1) :
    whole? ('-' :: Nat.toDigits 10 n) = some (if n = 0 then .natural 0 else .negative n.toUInt64) := by
  obtain ⟨c,rest,hcons,hc,hrest,hzero⟩ := toDigits_eq_cons n
  have hpadded : isPadded ('-' :: c :: rest) = false := by rw [isPadded_minus hc, isPadded_of_isDigit hc hzero]
  have hmarked : marked? (c :: rest) = none := marked?_of_isDigit (by simpa [hc] using hrest)
  have hnumber := number?_toDigits n
  rw [hcons] at hnumber ⊢
  have hnegative : negative? (1 <<< 63 + 1) ('-' :: c :: rest) = some n := by
    have hbelow : below (1 <<< 63 + 1) (some n) = some n := Option.filter_eq_some_iff.mpr ⟨rfl,decide_eq_true hn⟩
    rw [negative?, hmarked, hpadded, hnumber, hbelow]
    rfl
  rw [whole?, natural?_minus, hnegative]

/-! ### Fractions -/

/-- Digits, and then a point or the mark of an exponent. -/
def Broken (cs : List Char) : Prop :=
  ∃ whole sign rest, cs = whole ++ sign :: rest ∧ whole ≠ [] ∧ (∀ c ∈ whole, c.isDigit = true) ∧ (sign = '.' ∨ sign = 'e')

variable {cs : List Char}

theorem broken_positional (n : Nat) (e : Int) : Broken (numberLayout.positional ⟨n,e⟩).toList := by
  have hdigits : ∀ c ∈ Nat.toDigits 10 n, c.isDigit = true := fun c hc => isDigit_of_mem_toDigits hc
  rw [positional_eq]
  split_ifs with he hplaces
  · refine ⟨Nat.toDigits 10 n ++ List.replicate e.toNat '0','.',['0'],by simp,by simp [Nat.toDigits_ne_nil],?_,.inl rfl⟩
    exact List.forall_mem_append.mpr ⟨hdigits,fun c hc => List.eq_of_mem_replicate hc ▸ rfl⟩
  · refine ⟨(Nat.toDigits 10 n).take ((Nat.toDigits 10 n).length - (-e).toNat),'.',_,String.toList_ofList,?_,?_,.inl rfl⟩
    · rw [← List.length_pos_iff_ne_nil, List.length_take]
      omega
    · exact fun c hc => hdigits c (List.mem_of_mem_take hc)
  · exact ⟨['0'],'.',_,String.toList_ofList,by simp,by simp,.inl rfl⟩

theorem broken_scientific (n : Nat) (e : Int) : Broken (numberLayout.scientific ⟨n,e⟩).toList := by
  have hdigits : ∀ c ∈ Nat.toDigits 10 n, c.isDigit = true := fun c hc => isDigit_of_mem_toDigits hc
  rw [scientific_eq]
  generalize hcs : Nat.toDigits 10 n = cs at *
  match cs with
  | [] => exact absurd hcs Nat.toDigits_ne_nil
  | [c] => exact ⟨[c],'e',_,rfl,by simp,hdigits,.inr rfl⟩
  | c :: d :: rest => exact ⟨[c],'.',_,rfl,by simp,by simpa using hdigits c (by simp),.inl rfl⟩

theorem broken_magnitudeText (m : Nat) (p : Int) : Broken (magnitudeText m p).toList := by
  rw [magnitudeText]
  split
  · exact broken_positional _ _
  · exact broken_scientific _ _

namespace Broken

theorem number? (h : Broken cs) : Text.number? 10 cs = none := by
  obtain ⟨whole,sign,rest,rfl,_,_,hsign⟩ := h
  apply number?_of_mem (c := sign) (by simp)
  obtain rfl | rfl := hsign <;> rfl

theorem marked? (h : Broken cs) : Resolved.marked? cs = none := by
  obtain ⟨whole,sign,rest,rfl,hne,hwhole,hsign⟩ := h
  apply marked?_of_second
  intro c hc
  -- Behind one digit stands another one, or the sign.
  have hsecond : c.isDigit = true ∨ c = sign := by
    match whole with
    | [] => exact absurd rfl hne
    | [_] => exact .inr (Option.some.inj hc).symm
    | _ :: d :: _ => exact .inl (Option.some.inj hc ▸ hwhole d (by simp))
  refine ⟨?_,?_,?_⟩ <;> rintro rfl <;> obtain h | rfl := hsecond <;> simp_all

theorem isPadded (h : Broken cs) : Resolved.isPadded cs = false ∧ Resolved.isPadded ('-' :: cs) = false := by
  obtain ⟨whole,sign,rest,rfl,hne,hwhole,hsign⟩ := h
  obtain ⟨c,more,rfl⟩ := List.exists_cons_of_ne_nil hne
  rw [List.cons_append, isPadded_minus (hwhole c (by simp)), and_self]
  have hminus : unsigned ('-' :: c :: (more ++ sign :: rest)) = c :: (more ++ sign :: rest) := rfl
  rw [← isPadded_minus (hwhole c (by simp)), Resolved.isPadded, hminus]
  -- What follows the zero holds the sign, which is no digit.
  split
  · rename_i heq
    rw [← (List.cons.inj heq).2, ← Bool.not_eq_true, List.all_eq_true]
    intro hall
    have := hall sign (by simp)
    obtain rfl | rfl := hsign <;> cases this
  · rfl

/-- What has a fraction or an exponent is no whole number of any size. -/
theorem whole? (h : Broken cs) : Resolved.whole? cs = none ∧ Resolved.whole? ('-' :: cs) = none := by
  have hmarked := h.marked?
  have hnumber := h.number?
  obtain ⟨whole,sign,rest,hcs,hne,hwhole,_⟩ := h
  obtain ⟨c,more,rfl⟩ := List.exists_cons_of_ne_nil hne
  have hc := hwhole c (by simp)
  have hplus : c ≠ '+' := fun h => by simp [h] at hc
  have hminus : c ≠ '-' := fun h => by simp [h] at hc
  rw [hcs, List.cons_append] at hmarked hnumber ⊢
  have hnatural (limit : Nat) : natural? limit (c :: (more ++ sign :: rest)) = none := by
    simp [natural?, hplus, hmarked, hnumber, below]
  have hnegative (limit : Nat) : negative? limit (c :: (more ++ sign :: rest)) = none := by
    simp [negative?, hminus]
  have hnegative' (limit : Nat) : negative? limit ('-' :: c :: (more ++ sign :: rest)) = none := by
    simp [negative?, hmarked, hnumber, below]
  constructor
  · simp [Resolved.whole?, hnatural, hnegative]
  · simp [Resolved.whole?, natural?_minus, hnegative']

end Broken

/-- A number that was read is what its text stands for. -/
theorem resolve_numberText {n : JsonNumber} (h : n.Proper) : resolve (numberText n) = .ofNumber n := by
  cases n with
  | natural n =>
    obtain ⟨c,rest,hcons,hc,_⟩ := toDigits_eq_cons n.toNat
    have htext : (numberText (.natural n)).toList = Nat.toDigits 10 n.toNat := by simp [numberText]
    have hwhole : whole? (Nat.toDigits 10 n.toNat) = some (.natural n) := by
      rw [whole?, natural?_toDigits n.toNat_lt]
      simp
    rw [resolve_of_digit (d := c) (by simp [htext, hcons]) hc, htext, hwhole]
    rfl
  | negative n =>
    obtain ⟨hpos,hle⟩ := h
    obtain ⟨c,rest,hcons,hc,_⟩ := toDigits_eq_cons n.toNat
    have htext : (numberText (.negative n)).toList = '-' :: Nat.toDigits 10 n.toNat := by simp [numberText]
    have hwhole := whole?_minus_toDigits (n := n.toNat) (by omega)
    rw [if_neg (by omega)] at hwhole
    rw [resolve_of_digit (d := c) (by simp [htext, hcons]) hc, htext, hwhole]
    simp [Resolved.ofNumber]
  | float x =>
    obtain ⟨hfinite,hcanonical⟩ := h
    have hread := float?_numberText hcanonical
    cases x with
    | nan => cases hfinite
    | infinite => cases hfinite
    | finite negative m p =>
      have hbroken := broken_magnitudeText m p
      obtain ⟨hpadded,hpadded'⟩ := hbroken.isPadded
      obtain ⟨hwhole,hwhole'⟩ := hbroken.whole?
      obtain ⟨c,hmem,hc⟩ : ∃ c ∈ (magnitudeText m p).toList, c.isDigit = true := by
        obtain ⟨whole,sign,rest,hbody,hne,hwhole,_⟩ := hbroken
        obtain ⟨c,more,rfl⟩ := List.exists_cons_of_ne_nil hne
        exact ⟨c,by simp [hbody],hwhole c (by simp)⟩
      have hlist : (numberText (.float (.finite negative m p))).toList =
          (if negative then ['-'] else []) ++ (magnitudeText m p).toList := by
        rw [numberText_finite, String.toList_append]
        cases negative <;> rfl
      rw [resolve_of_digit (d := c) (by simp [hlist, hmem]) hc, hread, hlist]
      cases negative <;> simp [hwhole, hwhole', hpadded, hpadded', Resolved.ofNumber]

end Yaml
end VirtualShell
