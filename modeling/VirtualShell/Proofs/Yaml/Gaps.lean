import Mathlib.Data.List.Basic
import Mathlib.Data.List.TakeWhile
import Mathlib.Tactic.Common
import VirtualShell.Yaml.Lexer
import VirtualShell.Yaml.Printer

/-!
Places in a text, the blanks and line breaks that scalars are written with, and the gaps that are read between their parts.
-/
namespace VirtualShell.Yaml

/-- What is asked of each character of a text is decided along the text, not over all the characters there are. -/
instance (priority := high) decidableEach {p : Char → Prop} [DecidablePred p] (cs : List Char) : Decidable (∀ c ∈ cs, p c) :=
  List.decidableBAll p cs

/-! ### Places in a text -/

namespace Cursor

theorem skip_cons (c : Char) (rest : List Char) (offset line column : Nat) :
    skip ⟨c :: rest,offset,line,column⟩ 1 = ⟨rest,offset + 1,line,column + 1⟩ := rfl

theorem skip_append (cs rest : List Char) (offset line column : Nat) :
    skip ⟨cs ++ rest,offset,line,column⟩ cs.length = ⟨rest,offset + cs.length,line,column + cs.length⟩ := by
  simp [skip]

/-- A line break that can be written as it is. -/
def IsPlainBreak (c : Char) : Prop := c = '\n' ∨ c = '\u2028' ∨ c = '\u2029'

theorem IsPlainBreak.isBreak {c : Char} (h : IsPlainBreak c) : isBreak c = true := by
  obtain rfl | rfl | rfl := h <;> rfl

theorem takeBreak_cons {c : Char} (hc : IsPlainBreak c) (rest : List Char) (offset line column : Nat) :
    takeBreak ⟨c :: rest,offset,line,column⟩ = ([c],⟨rest,offset + 1,line + 1,0⟩) := by
  obtain rfl | rfl | rfl := hc <;> rfl

theorem atDocumentMark_of_pos {cursor : Cursor} (h : 0 < cursor.column) : cursor.atDocumentMark = false := by
  have hne : cursor.column ≠ 0 := by omega
  simp [atDocumentMark, atMark, hne]

end Cursor

theorem padding_succ (n : Nat) : padding (n + 1) = ' ' :: padding n := rfl

@[simp] theorem length_padding (n : Nat) : (padding n).length = n := List.length_replicate

/-- Text is stretches without blanks, and blanks between them. -/
theorem stretches {P : List Char → Prop} (p : Char → Bool) (last : ∀ run, (∀ c ∈ run, p c = false) → P run)
    (more : ∀ run gap rest, (∀ c ∈ run, p c = false) → gap ≠ [] → (∀ c ∈ gap, p c = true) →
      (∀ c ∈ rest.head?, p c = false) → P rest → P (run ++ (gap ++ rest))) (cs : List Char) : P cs := by
  induction h : cs.length using Nat.strongRecOn generalizing cs with
  | ind n ih =>
    obtain ⟨run,later,rfl,hrun,hlater⟩ : ∃ run later, cs = run ++ later ∧ (∀ c ∈ run, p c = false) ∧
        ∀ c ∈ later.head?, p c = true :=
      ⟨cs.takeWhile (!p ·),cs.dropWhile (!p ·),List.takeWhile_append_dropWhile.symm,
        fun c hc => by simpa using List.mem_takeWhile_imp hc,fun c hc => by
          have := List.head?_dropWhile_not (!p ·) cs
          simpa [Option.mem_def.mp hc] using this⟩
    obtain ⟨gap,rest,rfl,hgap,hrest⟩ : ∃ gap rest, later = gap ++ rest ∧ (∀ c ∈ gap, p c = true) ∧
        ∀ c ∈ rest.head?, p c = false :=
      ⟨later.takeWhile p,later.dropWhile p,List.takeWhile_append_dropWhile.symm,
        fun c hc => List.mem_takeWhile_imp hc,fun c hc => by
          have := List.head?_dropWhile_not p later
          simpa [Option.mem_def.mp hc] using this⟩
    cases gap with
    | nil =>
      cases rest with
      | nil => simpa using last run hrun
      | cons c rest =>
        have htrue := hlater c (by simp)
        rw [hrest c (by simp)] at htrue
        cases htrue
    | cons c gap => exact more run (c :: gap) rest hrun (by simp) hgap hrest (ih rest.length (by simp at h; omega) rest rfl)

/-! ### Indentation -/

theorem indented_line {n : Nat} {xs : List Char} (h : ∀ c ∈ xs, isBreak c = false) (ys : List Char) :
    indented n false (xs ++ ys) = xs ++ indented n false ys := by
  induction xs with
  | nil => rfl
  | cons c xs ih =>
    rw [List.cons_append, indented, if_neg (by simp [h c (by simp)]), ih fun d hd => h d (by simp [hd])]
    rfl

theorem indented_breaks {n : Nat} {xs : List Char} (h : ∀ c ∈ xs, isBreak c = true) (hne : xs ≠ []) (fresh : Bool)
    (ys : List Char) : indented n fresh (xs ++ ys) = xs ++ indented n true ys := by
  induction xs generalizing fresh with
  | nil => exact absurd rfl hne
  | cons c xs ih =>
    rw [List.cons_append, indented, if_pos (h c (by simp)), List.cons_append]
    cases xs with
    | nil => rfl
    | cons d xs => rw [ih (fun d hd => h d (by simp [hd])) (by simp)]

/-- The first line is indented if anything stands in it. -/
theorem indented_fresh {n : Nat} {c : Char} (h : isBreak c = false) (xs : List Char) :
    indented n true (c :: xs) = padding n ++ indented n false (c :: xs) := by
  simp [indented, h]

/-! ### Blanks and line breaks -/

/-- A line break that is printable can be written as it is. -/
theorem isPlainBreak_of_isPrintable {c : Char} (hc : isPrintable c = true) (hbreak : isBreak c = true) : Cursor.IsPlainBreak c := by
  simp only [isBreak, Bool.or_eq_true, beq_iff_eq] at hbreak
  obtain (((rfl | rfl) | rfl) | rfl) | rfl := hbreak
  · exact .inl rfl
  · simp [isPrintable] at hc
  · simp [isPrintable] at hc
  · exact .inr (.inl rfl)
  · exact .inr (.inr rfl)

theorem eq_space_of_isPrintable {c : Char} (hc : isPrintable c = true) (hgap : isGap c = true) : c = ' ' := by
  simp only [isGap, Bool.or_eq_true, beq_iff_eq] at hgap
  obtain rfl | rfl := hgap
  · rfl
  · simp [isPrintable] at hc

theorem exists_padding {spaces : List Char} (hne : spaces ≠ []) (h : ∀ c ∈ spaces, (c == ' ') = true) :
    ∃ k, spaces = padding (k + 1) := by
  refine ⟨spaces.length - 1,?_⟩
  rw [Nat.sub_add_cancel (List.length_pos_iff.mpr hne)]
  exact List.eq_replicate_of_mem fun c hc => by simpa using h c hc

/-- Something stands here other than a blank or a line break, or nothing. -/
def Parted (rest : List Char) : Prop := ∀ c ∈ rest.head?, isGap c = false ∧ isBreak c = false

namespace Gap
variable {column : Nat} {rest : List Char} {gap : Gap}

theorem scan_parted (h : Parted rest) (fuel offset line at_ : Nat) :
    scan column fuel gap ⟨rest,offset,line,at_⟩ = .ok (gap,⟨rest,offset,line,at_⟩) := by
  cases fuel with
  | zero => rfl
  | succ fuel =>
    cases rest with
    | nil => rfl
    | cons c rest =>
      obtain ⟨hgap,hbreak⟩ := h c rfl
      simp [scan, hgap, hbreak]

/-- Blanks within a line are kept. -/
theorem scan_spaces (blanks : List Char) (k fuel offset line at_ : Nat) :
    scan column (k + fuel) ⟨blanks,false,[],[]⟩ ⟨padding k ++ rest,offset,line,at_⟩ =
      scan column fuel ⟨blanks ++ padding k,false,[],[]⟩ ⟨rest,offset + k,line,at_ + k⟩ := by
  induction k generalizing blanks offset at_ with
  | zero => simp [padding]
  | succ k ih =>
    have hstep : scan column (k + fuel + 1) ⟨blanks,false,[],[]⟩ ⟨' ' :: (padding k ++ rest),offset,line,at_⟩ =
        scan column (k + fuel) ⟨blanks ++ [' '],false,[],[]⟩ ⟨padding k ++ rest,offset + 1,line,at_ + 1⟩ := rfl
    rw [padding_succ, List.cons_append, Nat.add_right_comm, hstep, ih]
    simp [Nat.add_assoc, Nat.add_comm 1]

/-- Blanks at the start of a line are passed over. -/
theorem scan_indentation (first more : List Char) (k fuel offset line at_ : Nat) :
    scan column (k + fuel) ⟨[],true,first,more⟩ ⟨padding k ++ rest,offset,line,at_⟩ =
      scan column fuel ⟨[],true,first,more⟩ ⟨rest,offset + k,line,at_ + k⟩ := by
  induction k generalizing offset at_ with
  | zero => simp [padding]
  | succ k ih =>
    have hstep : scan column (k + fuel + 1) ⟨[],true,first,more⟩ ⟨' ' :: (padding k ++ rest),offset,line,at_⟩ =
        scan column (k + fuel) ⟨[],true,first,more⟩ ⟨padding k ++ rest,offset + 1,line,at_ + 1⟩ := rfl
    rw [padding_succ, List.cons_append, Nat.add_right_comm, hstep, ih]
    simp [Nat.add_assoc, Nat.add_comm 1]

theorem scan_break {c : Char} (hc : Cursor.IsPlainBreak c) (blanks : List Char) (fuel offset line at_ : Nat) :
    scan column (fuel + 1) ⟨blanks,false,[],[]⟩ ⟨c :: rest,offset,line,at_⟩ =
      scan column fuel ⟨[],true,[c],[]⟩ ⟨rest,offset + 1,line + 1,0⟩ := by
  obtain rfl | rfl | rfl := hc <;> rfl

theorem scan_moreBreaks {breaks : List Char} (hbreaks : ∀ c ∈ breaks, Cursor.IsPlainBreak c) (first more : List Char)
    (fuel offset line : Nat) : scan column (breaks.length + fuel) ⟨[],true,first,more⟩ ⟨breaks ++ rest,offset,line,0⟩ =
      scan column fuel ⟨[],true,first,more ++ breaks⟩ ⟨rest,offset + breaks.length,line + breaks.length,0⟩ := by
  induction breaks generalizing more offset line with
  | nil => simp
  | cons c breaks ih =>
    have hstep : scan column (breaks.length + fuel + 1) ⟨[],true,first,more⟩ ⟨c :: (breaks ++ rest),offset,line,0⟩ =
        scan column (breaks.length + fuel) ⟨[],true,first,more ++ [c]⟩ ⟨breaks ++ rest,offset + 1,line + 1,0⟩ := by
      obtain rfl | rfl | rfl := hbreaks c (by simp) <;> rfl
    rw [List.cons_append, List.length_cons, Nat.add_right_comm, hstep, ih fun d hd => hbreaks d (by simp [hd])]
    simp [Nat.add_assoc, Nat.add_comm 1]

/-- A gap within a line. -/
theorem scan_blanks (column : Nat) (h : Parted rest) (k : Nat) {fuel : Nat} (hfuel : k ≤ fuel) (offset line at_ : Nat) :
    scan column fuel none ⟨padding k ++ rest,offset,line,at_⟩ =
      .ok (⟨padding k,false,[],[]⟩,⟨rest,offset + k,line,at_ + k⟩) := by
  obtain ⟨fuel,rfl⟩ := Nat.exists_eq_add_of_le hfuel
  rw [none, scan_spaces, scan_parted h, List.nil_append]

/-- A gap between two lines, of which the second is indented. -/
theorem scan_lines (column : Nat) {c : Char} {breaks : List Char} (hc : Cursor.IsPlainBreak c) (hbreaks : ∀ d ∈ breaks, Cursor.IsPlainBreak d)
    (h : Parted rest) (k : Nat) {fuel : Nat} (hfuel : 1 + breaks.length + k ≤ fuel) (offset line at_ : Nat) :
    scan column fuel none ⟨c :: (breaks ++ (padding k ++ rest)),offset,line,at_⟩ = .ok (⟨[],true,[c],breaks⟩,
      ⟨rest,offset + 1 + breaks.length + k,line + 1 + breaks.length,k⟩) := by
  obtain ⟨fuel,rfl⟩ := Nat.exists_eq_add_of_le hfuel
  rw [show 1 + breaks.length + k + fuel = breaks.length + (k + fuel) + 1 by omega, none, scan_break hc,
    scan_moreBreaks hbreaks, scan_indentation, scan_parted h, Nat.zero_add, List.nil_append]

end Gap

end VirtualShell.Yaml
