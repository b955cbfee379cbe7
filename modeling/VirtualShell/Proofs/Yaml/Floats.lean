import VirtualShell.Proofs.Number.Decimals
import VirtualShell.Proofs.Yaml.Numbers
import VirtualShell.Proofs.Yaml.Writing

/-! The text of a floating-point number stands plain, and reads back as the number. -/
namespace VirtualShell

namespace Text

theorem number?_append_zeros {digits : List Char} {n : Nat} (h : number? 10 digits = some n) (k : Nat) :
    number? 10 (digits ++ List.replicate k '0') = some (n * 10 ^ k) := by
  induction k with
  | zero => simpa using h
  | succ k ih =>
    rw [List.replicate_succ', ← List.append_assoc, number?_concat ih (v := 0) rfl, pow_succ]
    congr 1
    ring

theorem number?_zeros_append {digits : List Char} (h : digits ≠ []) (k : Nat) :
    number? 10 (List.replicate k '0' ++ digits) = number? 10 digits := by
  have hzeros : (List.replicate k '0').foldlM (fun n d => (digitValue? 10 d).map fun v => 10 * n + v) 0 = some 0 := by
    induction k with
    | zero => rfl
    | succ k ih =>
      rw [List.replicate_succ, List.foldlM_cons]
      exact ih
  simp only [number?, List.isEmpty_iff, List.append_eq_nil_iff, h, and_false, List.foldlM_append, hzeros]
  rfl

end Text

namespace Yaml
open Number Text Resolved

/-! ### The shape of a number -/

/-- Digits with perhaps a point among them and an exponent behind, that stand for `n * 10 ^ e`. -/
structure Magnitude (cs : List Char) (n : Nat) (e : Int) : Prop where
  head : ∃ c rest, cs = c :: rest ∧ c.isDigit = true
  chars : ∀ c ∈ cs, isWord c = true ∨ c = '.'
  value : ∀ negative, decimal? negative cs = some (.ofDecimal negative n e)

/-- What can stand behind the digits. -/
structure Mark (mark : List Char) (e : Int) : Prop where
  head : ∀ c ∈ mark.head?, c.isDigit = false ∧ c ≠ '.'
  chars : ∀ c ∈ mark, isWord c = true
  value : exponent? mark = some e

theorem Mark.none : Mark [] 0 := ⟨by simp,by simp,rfl⟩

/-- The exponent as it is written. -/
def markOf (e : Int) : List Char := 'e' :: (if e < 0 then ['-'] else []) ++ Nat.toDigits 10 e.natAbs

theorem Mark.of (e : Int) : Mark (markOf e) e := by
  obtain ⟨c,rest,hcons,hc,hrest,_⟩ := toDigits_eq_cons e.natAbs
  have hdigits : ∀ d ∈ Nat.toDigits 10 e.natAbs, isWord d = true := fun d hd => isWord_of_isDigit (isDigit_of_mem_toDigits hd)
  have hnumber := number?_toDigits e.natAbs
  refine ⟨by simp [markOf],?_,?_⟩
  · rw [markOf, List.cons_append, List.forall_mem_cons, List.forall_mem_append]
    refine ⟨rfl,?_,hdigits⟩
    split <;> simp [isWord]
  · rw [markOf, hcons]
    rw [hcons] at hnumber
    have hplus : c ≠ '+' := fun h => by simp [h] at hc
    have hminus : c ≠ '-' := fun h => by simp [h] at hc
    split
    · rename_i hneg
      simp [exponent?, hnumber, abs_of_neg hneg]
    · rename_i hneg
      simp [exponent?, hplus, hminus, hnumber, abs_of_nonneg (not_lt.mp hneg)]

variable {whole places mark : List Char} {n : Nat} {e k : Int}

theorem takeWhile_digits {digits rest : List Char} (hdigits : ∀ c ∈ digits, c.isDigit = true) (hrest : ∀ c ∈ rest.head?, c.isDigit = false) :
    (digits ++ rest).takeWhile Char.isDigit = digits ∧ (digits ++ rest).dropWhile Char.isDigit = rest := by
  have hstop : rest.takeWhile Char.isDigit = [] ∧ rest.dropWhile Char.isDigit = rest := by
    cases rest with
    | nil => exact ⟨rfl,rfl⟩
    | cons c rest =>
      have hc := hrest c (by simp)
      simp [hc]
  rw [List.takeWhile_append_of_pos hdigits, List.dropWhile_append_of_pos hdigits, hstop.1, hstop.2, List.append_nil]
  exact ⟨rfl,rfl⟩

/-- Digits behind a point count as less by as many places. -/
theorem Magnitude.point (whole places : List Char) (hne : whole ≠ []) (hwhole : ∀ c ∈ whole, c.isDigit = true)
    (hplaces : ∀ c ∈ places, c.isDigit = true) (hn : number? 10 (whole ++ places) = some n) (hmark : Mark mark e) :
    Magnitude (whole ++ '.' :: places ++ mark) n (e - places.length) := by
  refine ⟨?_,?_,fun negative => ?_⟩
  · obtain ⟨c,rest,rfl⟩ := List.exists_cons_of_ne_nil hne
    exact ⟨c,rest ++ '.' :: places ++ mark,rfl,hwhole c (by simp)⟩
  · have hword {c : Char} (hc : c.isDigit = true) : isWord c = true ∨ c = '.' := .inl (isWord_of_isDigit hc)
    simp only [List.forall_mem_append, List.forall_mem_cons]
    exact ⟨⟨fun c hc => hword (hwhole c hc),.inr trivial,fun c hc => hword (hplaces c hc)⟩,fun c hc => .inl (hmark.chars c hc)⟩
  · obtain ⟨htake,hdrop⟩ := takeWhile_digits hwhole (show ∀ c ∈ ('.' :: (places ++ mark)).head?, c.isDigit = false by simp)
    obtain ⟨htake',hdrop'⟩ := takeWhile_digits hplaces fun c hc => (hmark.head c hc).1
    rw [List.append_assoc, List.cons_append, decimal?]
    simp [htake, hdrop, htake', hdrop', hn, hmark.value]

theorem Magnitude.bare (hne : whole ≠ []) (hwhole : ∀ c ∈ whole, c.isDigit = true) (hn : number? 10 whole = some n)
    (hmark : Mark mark e) : Magnitude (whole ++ mark) n e := by
  refine ⟨?_,?_,fun negative => ?_⟩
  · obtain ⟨c,rest,rfl⟩ := List.exists_cons_of_ne_nil hne
    exact ⟨c,rest ++ mark,rfl,hwhole c (by simp)⟩
  · simp only [List.forall_mem_append]
    exact ⟨fun c hc => .inl (isWord_of_isDigit (hwhole c hc)),fun c hc => .inl (hmark.chars c hc)⟩
  · obtain ⟨htake,hdrop⟩ := takeWhile_digits hwhole fun c (hc : c ∈ mark.head?) => (hmark.head c hc).1
    have hpoint : ∀ more, mark ≠ '.' :: more := fun more h => (hmark.head '.' (by simp [h])).2 rfl
    rw [decimal?]
    simp only [htake, hdrop]
    simp [hn, hmark.value]

/-! ### Numbers as they are laid out -/

variable {n : Nat} {e : Int}

theorem positional_eq (n : Nat) (e : Int) : numberLayout.positional ⟨n,e⟩ =
    if e ≥ 0 then .ofList (Nat.toDigits 10 n ++ List.replicate e.toNat '0') ++ ".0"
    else if (-e).toNat < (Nat.toDigits 10 n).length then
      .ofList ((Nat.toDigits 10 n).take ((Nat.toDigits 10 n).length - (-e).toNat) ++
        '.' :: (Nat.toDigits 10 n).drop ((Nat.toDigits 10 n).length - (-e).toNat))
    else .ofList ('0' :: '.' :: List.replicate ((-e).toNat - (Nat.toDigits 10 n).length) '0' ++ Nat.toDigits 10 n) := rfl

/-- A text of the value of a decimal. -/
def Shows (text : String) (n : Nat) (e : Int) : Prop :=
  ∃ digits exponent, Magnitude text.toList digits exponent ∧ (digits : ℚ) * 10 ^ exponent = n * 10 ^ e

theorem shows_positional (n : Nat) (e : Int) : Shows (numberLayout.positional ⟨n,e⟩) n e := by
  have hdigits : ∀ c ∈ Nat.toDigits 10 n, c.isDigit = true := fun c hc => isDigit_of_mem_toDigits hc
  have hzeros (k : Nat) : ∀ c ∈ List.replicate k '0', c.isDigit = true := fun c hc => List.eq_of_mem_replicate hc ▸ rfl
  have hnumber := number?_toDigits n
  rw [positional_eq]
  split_ifs with he hplaces
  · have hwhole : Magnitude (Nat.toDigits 10 n ++ List.replicate e.toNat '0' ++ '.' :: ['0'] ++ []) (n * 10 ^ (e.toNat + 1)) (0 - 1) := by
      refine .point _ _ (by simp [Nat.toDigits_ne_nil]) (List.forall_mem_append.mpr ⟨hdigits,hzeros _⟩) (by decide) ?_ .none
      rw [List.append_assoc, ← List.replicate_succ']
      exact number?_append_zeros hnumber _
    refine ⟨_,_,by simpa using hwhole,?_⟩
    have hpow : (10 : ℚ) ^ e = 10 ^ e.toNat := by rw [← zpow_natCast, Int.toNat_of_nonneg he]
    rw [hpow]
    push_cast
    norm_num
    ring
  · have hpoint := Magnitude.point ((Nat.toDigits 10 n).take ((Nat.toDigits 10 n).length - (-e).toNat))
      ((Nat.toDigits 10 n).drop ((Nat.toDigits 10 n).length - (-e).toNat)) (n := n) (by simp; omega)
      (fun c hc => hdigits c (List.mem_of_mem_take hc)) (fun c hc => hdigits c (List.mem_of_mem_drop hc)) (by simpa using hnumber) .none
    refine ⟨n,_,by simpa using hpoint,?_⟩
    congr 2
    omega
  · have hpoint := Magnitude.point ['0']
      (List.replicate ((-e).toNat - (Nat.toDigits 10 n).length) '0' ++ Nat.toDigits 10 n) (n := n) (by simp) (by decide)
      (List.forall_mem_append.mpr ⟨hzeros _,hdigits⟩) ?_ .none
    · refine ⟨n,_,by simpa using hpoint,?_⟩
      congr 2
      omega
    · rw [List.singleton_append, ← List.cons_append, ← List.replicate_succ, number?_zeros_append Nat.toDigits_ne_nil, hnumber]

theorem scientific_eq (n : Nat) (e : Int) : (numberLayout.scientific ⟨n,e⟩).toList =
    (match Nat.toDigits 10 n with
      | c :: d :: rest => c :: '.' :: d :: rest
      | few => few) ++ markOf (e + (Nat.toDigits 10 n).length - 1) := by
  have hmark (k : Int) : (if k < 0 then "e-" else "e" ++ "").toList ++ (toString k.natAbs).toList = markOf k := by
    rw [markOf]
    split <;> simp
  rw [← hmark, ← List.append_assoc]
  simp only [Layout.scientific, String.toList_append, String.toList_ofList]
  rfl

theorem shows_scientific (n : Nat) (e : Int) : Shows (numberLayout.scientific ⟨n,e⟩) n e := by
  have hdigits : ∀ c ∈ Nat.toDigits 10 n, c.isDigit = true := fun c hc => isDigit_of_mem_toDigits hc
  have hnumber := number?_toDigits n
  rw [Shows, scientific_eq]
  generalize hcs : Nat.toDigits 10 n = cs at *
  match cs with
  | [] => exact absurd hcs Nat.toDigits_ne_nil
  | [c] =>
    have hbare := Magnitude.bare (by simp) hdigits hnumber (.of (e + [c].length - 1))
    exact ⟨n,_,hbare,by simp⟩
  | c :: d :: rest =>
    have hpoint := Magnitude.point [c] (d :: rest) (n := n) (by simp) (by simpa using hdigits c (by simp))
      (fun b hb => hdigits b (List.mem_cons_of_mem _ hb)) hnumber (.of (e + (c :: d :: rest).length - 1))
    refine ⟨n,_,hpoint,?_⟩
    congr 2
    simp only [List.length_cons]
    omega

/-- The text of a magnitude. -/
def magnitudeText (m : Nat) (p : Int) : String :=
  let d := Binary64.shortest m p
  let exponent : Int := d.exponent + (Nat.toDigits 10 d.digits).length - 1
  if numberLayout.lowest ≤ exponent && exponent ≤ numberLayout.highest then numberLayout.positional d
  else numberLayout.scientific d

theorem numberText_finite (negative : Bool) (m : Nat) (p : Int) :
    numberText (.float (.finite negative m p)) = (if negative then "-" else "") ++ magnitudeText m p := rfl

theorem shows_shortest (m : Nat) (p : Int) : ∃ body, Shows body (Binary64.shortest m p).digits (Binary64.shortest m p).exponent ∧
    ∀ negative, numberText (.float (.finite negative m p)) = (if negative then "-" else "") ++ body := by
  refine ⟨_,?_,fun negative => numberText_finite negative m p⟩
  rw [magnitudeText]
  split
  · exact shows_positional _ _
  · exact shows_scientific _ _

theorem plain_numberText_float (x : Binary64) : Plain (numberText (.float x)).toList := by
  cases x with
  | nan => exact plain_word (c := '.') (by decide) fun _ => ⟨_,_,rfl,by decide⟩
  | infinite negative =>
    cases negative
    · exact plain_word (c := '.') (by decide) fun _ => ⟨_,_,rfl,by decide⟩
    · exact plain_word (c := '-') (by decide) fun _ => ⟨_,_,rfl,by decide⟩
  | finite negative m p =>
    obtain ⟨body,⟨digits,exponent,hbody,_⟩,htext⟩ := shows_shortest m p
    obtain ⟨c,rest,hcons,hc⟩ := hbody.head
    have hchars := hbody.chars
    rw [htext, String.toList_append, hcons]
    rw [hcons] at hchars
    cases negative with
    | false =>
      change Plain (c :: rest)
      refine plain_word hchars ?_
      rintro (rfl | rfl) <;> cases hc
    | true =>
      change Plain ('-' :: c :: rest)
      refine plain_word (List.forall_mem_cons.mpr ⟨.inl rfl,hchars⟩) fun _ => ⟨c,rest,rfl,?_⟩
      rintro rfl
      cases hc

/-- Digits are none of the words for what is not finite. -/
theorem float?_of_isDigit {c : Char} {rest : List Char} (hc : c.isDigit = true) :
    float? (c :: rest) = (decimal? false (c :: rest)).filter Binary64.isFinite ∧
      float? ('-' :: c :: rest) = (decimal? true (c :: rest)).filter Binary64.isFinite := by
  have hpoint : c ≠ '.' := fun h => by simp [h] at hc
  have hplus : c ≠ '+' := fun h => by simp [h] at hc
  have hminus : c ≠ '-' := fun h => by simp [h] at hc
  constructor <;> simp [float?, ← String.toList_inj, hpoint, hplus, hminus]

/-- A number of the format reads back as itself from its text. -/
theorem float?_numberText {x : Binary64} (hcanonical : x.Canonical) : float? (numberText (.float x)).toList = some x := by
  cases x with
  | nan => decide
  | infinite negative => cases negative <;> decide
  | finite negative m p =>
    obtain ⟨body,⟨digits,exponent,hbody,hvalue⟩,htext⟩ := shows_shortest m p
    obtain ⟨c,rest,hcons,hc⟩ := hbody.head
    have hread : decimal? negative (c :: rest) = some (.finite negative m p) := by
      rw [← hcons, hbody.value, Binary64.ofDecimal_congr hvalue, Binary64.ofDecimal_shortest negative hcanonical]
    rw [htext, String.toList_append, hcons]
    cases negative with
    | false =>
      change float? (c :: rest) = _
      rw [(float?_of_isDigit hc).1, hread]
      rfl
    | true =>
      change float? ('-' :: c :: rest) = _
      rw [(float?_of_isDigit hc).2, hread]
      rfl

end Yaml
end VirtualShell
