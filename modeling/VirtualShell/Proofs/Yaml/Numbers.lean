import VirtualShell.Proofs.Text.Digits
import VirtualShell.Yaml.Printer

/-! Numbers in YAML text read back as they were written. -/
namespace VirtualShell

namespace Yaml.Resolved
open Text

theorem isPadded_of_isDigit {c : Char} {rest : List Char} (hc : c.isDigit = true) (hzero : c = '0' → rest = []) :
    isPadded (c :: rest) = false := by
  have hsign : isSignChar c = false := by
    rw [isSignChar, Bool.or_eq_false_iff]
    constructor <;> exact beq_eq_false_iff_ne.mpr fun h => by simp [h] at hc
  rw [isPadded, unsigned, hsign, if_neg Bool.false_ne_true]
  split
  · rename_i d more heq
    obtain ⟨rfl,rfl⟩ := List.cons.inj heq
    cases hzero rfl
  · rfl

theorem marked?_of_isDigit {digits : List Char} (h : ∀ c ∈ digits, c.isDigit = true) : marked? digits = none := by
  have hsecond (d : Char) (rest : List Char) (hd : d.isDigit = false) : digits ≠ '0' :: d :: rest := by
    rintro rfl
    simp [h d (by simp)] at hd
  unfold marked?
  split
  · exact absurd rfl (hsecond 'x' _ rfl)
  · exact absurd rfl (hsecond 'o' _ rfl)
  · exact absurd rfl (hsecond 'b' _ rfl)
  · rfl

theorem natural?_toDigits {limit n : Nat} (h : n < limit) : natural? limit (Nat.toDigits 10 n) = some n := by
  obtain ⟨c,rest,hcons,hc,hrest,hzero⟩ := toDigits_eq_cons n
  have hmark : marked? (c :: rest) = none := marked?_of_isDigit (by simpa [hc] using hrest)
  have hplus : c ≠ '+' := fun h => by simp [h] at hc
  have hnumber := number?_toDigits n
  rw [hcons] at hnumber ⊢
  simp [natural?, hplus, hmark, isPadded_of_isDigit hc hzero, hnumber, below, h]

end Yaml.Resolved
end VirtualShell
