import Mathlib.Tactic.Common
import VirtualShell.Text.Digit

/-! The decimal digits of a number: they are read back as the number, and do not start with a needless zero. -/
namespace VirtualShell.Text

theorem number?_concat {base : Nat} {digits : List Char} {n v : Nat} {d : Char} (h : number? base digits = some n)
    (hd : digitValue? base d = some v) : number? base (digits ++ [d]) = some (base * n + v) := by
  rw [number?] at h ⊢
  split at h
  · cases h
  · simp [List.foldlM_append, h, hd]

theorem digitValue?_digitChar {n : Nat} (h : n < 10) : digitValue? 10 n.digitChar = some n := by
  have hall : ∀ n < 10, digitValue? 10 n.digitChar = some n := by decide
  exact hall n h

theorem number?_toDigits (n : Nat) : number? 10 (Nat.toDigits 10 n) = some n := by
  induction n using Nat.strongRecOn with
  | ind n ih =>
    by_cases hn : n < 10
    · rw [Nat.toDigits_of_lt_base hn]
      simp [number?, digitValue?_digitChar hn]
    · rw [Nat.toDigits_of_base_le (by omega) (by omega),
        number?_concat (ih (n / 10) (by omega)) (digitValue?_digitChar (Nat.mod_lt n (by omega))), Nat.div_add_mod]

theorem isDigit_of_mem_toDigits {n : Nat} {c : Char} (h : c ∈ Nat.toDigits 10 n) : c.isDigit = true :=
  Nat.isDigit_of_mem_toDigits (by omega) (by omega) h

/-- Only zero starts with a zero. -/
theorem head?_toDigits {n : Nat} (h : (Nat.toDigits 10 n).head? = some '0') : n = 0 := by
  induction n using Nat.strongRecOn with
  | ind n ih =>
    by_cases hn : n < 10
    · simpa [Nat.toDigits_of_lt_base hn] using h
    · rw [Nat.toDigits_of_base_le (by omega) (by omega), List.head?_append, List.head?_eq_some_head Nat.toDigits_ne_nil,
        Option.some_or, ← List.head?_eq_some_head] at h
      have := ih (n / 10) (by omega) h
      omega

/-- Digits do not start with a needless zero. -/
theorem toDigits_eq_cons (n : Nat) : ∃ c rest, Nat.toDigits 10 n = c :: rest ∧ c.isDigit = true ∧
    (∀ d ∈ rest, d.isDigit = true) ∧ (c = '0' → rest = []) := by
  obtain ⟨c,rest,hcons⟩ := List.exists_cons_of_ne_nil (Nat.toDigits_ne_nil (n := n) (b := 10))
  have hdigit : ∀ d ∈ c :: rest, d.isDigit = true := fun d hd => isDigit_of_mem_toDigits (hcons ▸ hd)
  refine ⟨c,rest,hcons,hdigit c (by simp),fun d hd => hdigit d (by simp [hd]),?_⟩
  rintro rfl
  have hzero := head?_toDigits (n := n) (by rw [hcons, List.head?_cons])
  rw [hzero] at hcons
  exact (List.cons.inj hcons).2.symm

end VirtualShell.Text
