import Mathlib.Algebra.Order.Field.Power
import Mathlib.Data.Int.Log
import Mathlib.Data.Rat.Floor
import Mathlib.Tactic.FieldSimp
import Mathlib.Tactic.Linarith
import Mathlib.Tactic.NormNum
import Mathlib.Tactic.Positivity
import Mathlib.Tactic.Ring
import VirtualShell.Number.Binary64

/-!
Rounding to floating point depends on the rational number alone, and a number closer to a value than half the way to
its neighbours rounds to it.
-/
namespace VirtualShell.Number

/-! ### The nearest integer -/

/-- The integer nearest to a rational; a half goes to the even neighbour. -/
structure Nearest (n : Nat) (q : ℚ) : Prop where
  low : (n : ℚ) - 1 / 2 ≤ q
  high : q ≤ n + 1 / 2
  even : q = n - 1 / 2 ∨ q = n + 1 / 2 → n % 2 = 0

theorem Nearest.unique {m n : Nat} {q : ℚ} (hm : Nearest m q) (hn : Nearest n q) : m = n := by
  have hle {m n : Nat} (hm : Nearest m q) (hn : Nearest n q) : m ≤ n := by
    by_contra hlt
    have hsucc : (n : ℚ) + 1 ≤ m := by exact_mod_cast Nat.lt_of_not_le hlt
    have hlow := hm.low
    have hhigh := hn.high
    have hmq : q = m - 1 / 2 := by linarith
    have hnq : q = n + 1 / 2 := by linarith
    have hcast : (m : ℚ) = n + 1 := by linarith
    have hnext : m = n + 1 := by exact_mod_cast hcast
    have hmeven := hm.even (.inl hmq)
    have hneven := hn.even (.inr hnq)
    omega
  exact Nat.le_antisymm (hle hm hn) (hle hn hm)

theorem Nearest.of_lt {n : Nat} {q : ℚ} (hlow : (n : ℚ) - 1 / 2 < q) (hhigh : q < n + 1 / 2) : Nearest n q :=
  ⟨le_of_lt hlow,le_of_lt hhigh,fun h => by cases h <;> linarith⟩

theorem nearest_roundHalfEven (num : Nat) {den : Nat} (hden : 0 < den) : Nearest (roundHalfEven num den) ((num : ℚ) / den) := by
  have hpos : (0 : ℚ) < den := by exact_mod_cast hden
  have hdiv : (num : ℚ) / den = (num / den : Nat) + (num % den : Nat) / den := by
    have hsplit : (num : ℚ) = den * (num / den : Nat) + (num % den : Nat) := by exact_mod_cast (Nat.div_add_mod num den).symm
    rw [div_eq_iff hpos.ne', add_mul, div_mul_cancel₀ _ hpos.ne']
    linarith
  have hmod : num % den < den := Nat.mod_lt _ hden
  rw [roundHalfEven, hdiv]
  generalize num / den = k at *
  generalize num % den = r at *
  have hbelow : (r : ℚ) / den < 1 := (div_lt_one hpos).mpr (by exact_mod_cast hmod)
  have hnonneg : (0 : ℚ) ≤ r / den := by positivity
  have hhalf : (r : ℚ) / den < 1 / 2 ↔ 2 * r < den := by
    rw [div_lt_div_iff₀ hpos two_pos, one_mul, mul_comm]
    exact_mod_cast Iff.rfl
  have hexact : (r : ℚ) / den = 1 / 2 ↔ 2 * r = den := by
    rw [div_eq_div_iff hpos.ne' two_ne_zero, one_mul, mul_comm]
    exact_mod_cast Iff.rfl
  split
  · rename_i h
    simp only [gt_iff_lt, Bool.or_eq_true, decide_eq_true_eq, Bool.and_eq_true, beq_iff_eq] at h
    have hge : 1 / 2 ≤ (r : ℚ) / den := by
      rw [← not_lt, hhalf]
      omega
    refine ⟨by push_cast; linarith,by push_cast; linarith,fun htie => ?_⟩
    push_cast at htie
    have htwice := hexact.mp (by obtain htie | htie := htie <;> linarith)
    omega
  · rename_i h
    simp only [gt_iff_lt, Bool.or_eq_true, decide_eq_true_eq, Bool.and_eq_true, beq_iff_eq] at h
    have hle : (r : ℚ) / den ≤ 1 / 2 := by
      rcases lt_or_eq_of_le (show 2 * r ≤ den by omega) with hlt | heq
      · exact le_of_lt (hhalf.mpr hlt)
      · exact le_of_eq (hexact.mpr heq)
    refine ⟨by linarith,by linarith,fun htie => ?_⟩
    have htwice := hexact.mp (by obtain htie | htie := htie <;> linarith)
    omega

/-! ### Scaled by a power -/

theorem zpow_of_nonneg (b : ℚ) {e : Int} (he : 0 ≤ e) : b ^ e = b ^ e.toNat := by
  rw [← zpow_natCast, Int.toNat_of_nonneg he]

theorem zpow_of_neg (b : ℚ) {e : Int} (he : ¬ 0 ≤ e) : b ^ e = (b ^ (-e).toNat)⁻¹ := by
  rw [← zpow_natCast, Int.toNat_of_nonneg (by omega), zpow_neg, inv_inv]

/-- A ratio divided by a power. -/
theorem div_zpow (b num den : Nat) (e : Int) : (if e ≥ 0 then (num : ℚ) / (den * b ^ e.toNat : Nat)
    else ((num * b ^ (-e).toNat : Nat) : ℚ) / den) = (num : ℚ) / den / (b : ℚ) ^ e := by
  split
  · rename_i h
    rw [zpow_of_nonneg _ h, Nat.cast_mul, Nat.cast_pow, div_div]
  · rename_i h
    rw [zpow_of_neg _ h, Nat.cast_mul, Nat.cast_pow, div_inv_eq_mul, div_mul_eq_mul_div]

/-- A number times a power, as a ratio. -/
theorem mul_zpow_eq (b n : Nat) (e : Int) : (if e ≥ 0 then ((n * b ^ e.toNat : Nat) : ℚ) / (1 : Nat)
    else (n : ℚ) / (b ^ (-e).toNat : Nat)) = (n : ℚ) * (b : ℚ) ^ e := by
  split
  · rename_i h
    rw [zpow_of_nonneg _ h, Nat.cast_mul, Nat.cast_pow, Nat.cast_one, div_one]
  · rename_i h
    rw [zpow_of_neg _ h, Nat.cast_pow, div_eq_mul_inv]

theorem ratio_shift (num den : Nat) (e : Int) :
    (if e ≥ 0 then ((num : ℚ) / (den <<< e.toNat : Nat)) else ((num <<< (-e).toNat : Nat) : ℚ) / den) = (num : ℚ) / den / 2 ^ e := by
  rw [Nat.shiftLeft_eq, Nat.shiftLeft_eq]
  exact div_zpow 2 num den e

theorem nearest_roundScaled (num : Nat) {den : Nat} (hden : 0 < den) (e : Int) :
    Nearest (roundScaled num den e) ((num : ℚ) / den / 2 ^ e) := by
  rw [← ratio_shift, roundScaled]
  split
  · exact nearest_roundHalfEven num (by rw [Nat.shiftLeft_eq]; positivity)
  · exact nearest_roundHalfEven _ hden

theorem floorScaled_lt (num : Nat) {den : Nat} (hden : 0 < den) (e : Int) (n : Nat) :
    floorScaled num den e < n ↔ (num : ℚ) / den / 2 ^ e < n := by
  have hfloor (num : Nat) {den : Nat} (hden : 0 < den) : num / den < n ↔ (num : ℚ) / den < n := by
    have hpos : (0 : ℚ) < den := by exact_mod_cast hden
    rw [Nat.div_lt_iff_lt_mul hden, div_lt_iff₀ hpos]
    exact_mod_cast Iff.rfl
  rw [← ratio_shift, floorScaled]
  split
  · exact hfloor num (by rw [Nat.shiftLeft_eq]; positivity)
  · exact hfloor _ hden

/-! ### The exponent of a ratio -/

theorem log_eq {b : Nat} (hb : 1 < b) {k : Int} {q : ℚ} (hlow : (b : ℚ) ^ k ≤ q) (hhigh : q < (b : ℚ) ^ (k + 1)) :
    Int.log b q = k := by
  have hpos : 0 < q := lt_of_lt_of_le (zpow_pos (by exact_mod_cast Nat.zero_lt_of_lt hb) k) hlow
  have hle := (Int.zpow_le_iff_le_log hb hpos).mp hlow
  have hlt := (Int.lt_zpow_iff_log_lt hb hpos).mp hhigh
  omega

/-- The exponent of a quotient is that of its terms, or one less. -/
theorem log_div_bounds {b : Nat} (hb : 1 < b) {x y : ℚ} (hx : 0 < x) (hy : 0 < y) :
    (b : ℚ) ^ (Int.log b x - Int.log b y - 1) < x / y ∧ x / y < (b : ℚ) ^ (Int.log b x - Int.log b y + 1) := by
  have hpos : (0 : ℚ) < b := by exact_mod_cast Nat.zero_lt_of_lt hb
  have hxLow := Int.zpow_log_le_self hb hx
  have hyLow := Int.zpow_log_le_self hb hy
  have hxHigh := Int.lt_zpow_succ_log_self hb x
  have hyHigh := Int.lt_zpow_succ_log_self hb y
  generalize Int.log b x = i at *
  generalize Int.log b y = j at *
  constructor
  · rw [lt_div_iff₀ hy]
    calc (b : ℚ) ^ (i - j - 1) * y < (b : ℚ) ^ (i - j - 1) * (b : ℚ) ^ (j + 1) := by gcongr
      _ = (b : ℚ) ^ i := by
        rw [← zpow_add₀ hpos.ne']
        congr 1
        omega
      _ ≤ x := hxLow
  · rw [div_lt_iff₀ hy]
    calc x < (b : ℚ) ^ (i + 1) := hxHigh
      _ = (b : ℚ) ^ (i - j + 1) * (b : ℚ) ^ j := by
        rw [← zpow_add₀ hpos.ne']
        congr 1
        omega
      _ ≤ (b : ℚ) ^ (i - j + 1) * y := by gcongr

theorem log2_eq (n : Nat) : (n.log2 : Int) = Int.log 2 (n : ℚ) := by
  rw [Int.log_natCast, Nat.log2_eq_log_two]

theorem fit_eq {num den : Nat} (hnum : 0 < num) (hden : 0 < den) :
    (if floorScaled num den ((num.log2 : Int) - den.log2 - 52) < 1 <<< 52 then (num.log2 : Int) - den.log2 - 52 - 1
      else (num.log2 : Int) - den.log2 - 52) = Int.log 2 ((num : ℚ) / den) - 52 := by
  obtain ⟨hlow,hhigh⟩ := log_div_bounds one_lt_two (Nat.cast_pos.mpr hnum : (0 : ℚ) < num) (Nat.cast_pos.mpr hden : (0 : ℚ) < den)
  rw [← log2_eq, ← log2_eq, Nat.cast_ofNat] at hlow hhigh
  generalize hguess : (num.log2 : Int) - den.log2 - 52 = guess at *
  have hshift : (floorScaled num den guess < 1 <<< 52) ↔ (num : ℚ) / den < 2 ^ (guess + 52) := by
    have hcast : ((1 <<< 52 : Nat) : ℚ) = 2 ^ (52 : Int) := by
      rw [Nat.shiftLeft_eq]
      norm_num
    rw [floorScaled_lt num hden, div_lt_iff₀ (by positivity), hcast, zpow_add₀ two_ne_zero, mul_comm]
  rw [show (num.log2 : Int) - den.log2 - 1 = guess + 51 by omega] at hlow
  rw [show (num.log2 : Int) - den.log2 + 1 = guess + 53 by omega] at hhigh
  split
  · rename_i h
    have hlog : Int.log 2 ((num : ℚ) / den) = guess + 51 := log_eq one_lt_two (by exact_mod_cast le_of_lt hlow) (by
      rw [show guess + 51 + 1 = guess + 52 by omega]
      exact_mod_cast hshift.mp h)
    omega
  · rename_i h
    have hlog : Int.log 2 ((num : ℚ) / den) = guess + 52 := log_eq one_lt_two (by exact_mod_cast not_lt.mp fun hlt => h (hshift.mpr hlt)) (by
      rw [show guess + 52 + 1 = guess + 53 by omega]
      exact_mod_cast hhigh)
    omega

namespace Binary64

/-! ### Rounding a ratio -/

/-- A rounded mantissa of 54 bits has its exponent raised, and there is a largest exponent. -/
def settle (negative : Bool) (mantissa : Nat) (exponent : Int) : Binary64 :=
  let (mantissa, exponent) := if mantissa = 1 <<< 53 then (1 <<< 52, exponent + 1) else (mantissa, exponent)
  if exponent > 971 then .infinite negative else .finite negative mantissa exponent

/-- The least exponent of a value near a rational. -/
def leastExponent (q : ℚ) : Int := max (Int.log 2 q - 52) (-1074)

/-- Rounding depends on the rational number alone. -/
theorem ofRatio_eq {num den m : Nat} {q : ℚ} (negative : Bool) (hden : 0 < den) (hq : (num : ℚ) / den = q) (hpos : 0 < q)
    (hm : Nearest m (q / 2 ^ leastExponent q)) : ofRatio negative num den = settle negative m (leastExponent q) := by
  subst hq
  have hnum : 0 < num := by
    rcases Nat.eq_zero_or_pos num with rfl | hnum
    · simp at hpos
    · exact hnum
  rw [ofRatio, if_neg (by omega)]
  dsimp only
  rw [fit_eq hnum hden, hm.unique (nearest_roundScaled num hden _), leastExponent]
  rfl

/-- The one form of a value: the mantissa has 53 bits unless the exponent is the least. -/
def Canonical : Binary64 → Prop
  | .finite _ mantissa exponent => mantissa < 2 ^ 53 ∧ -1074 ≤ exponent ∧ exponent ≤ 971 ∧ (exponent = -1074 ∨ 2 ^ 52 ≤ mantissa)
  | _ => True

theorem settle_of_lt {m : Nat} {e : Int} (negative : Bool) (hm : m < 2 ^ 53) (he : e ≤ 971) :
    settle negative m e = .finite negative m e := by
  rw [settle, if_neg (by rw [Nat.shiftLeft_eq]; omega)]
  exact if_neg (by omega)

theorem settle_carry {e : Int} (negative : Bool) (he : e < 971) :
    settle negative (2 ^ 53) e = .finite negative (2 ^ 52) (e + 1) := by
  rw [settle, if_pos (by rw [Nat.shiftLeft_eq, one_mul])]
  exact if_neg (by omega)

/-- What is closer to a value than half the way to its neighbours rounds to it; below a power of two the neighbour is only half as far. -/
theorem ofRatio_of_near {num den m : Nat} {e : Int} {q : ℚ} (negative : Bool) (hden : 0 < den) (hq : (num : ℚ) / den = q)
    (hm : 0 < m) (hcanonical : (finite negative m e).Canonical) (hlow : ((m : ℚ) - 1 / 2) * 2 ^ e < q)
    (hhigh : q < ((m : ℚ) + 1 / 2) * 2 ^ e) (hedge : m = 2 ^ 52 → ((m : ℚ) - 1 / 4) * 2 ^ e < q) :
    ofRatio negative num den = .finite negative m e := by
  obtain ⟨hmantissa,hleast,hmost,hnormal⟩ := hcanonical
  have hscale : (0 : ℚ) < 2 ^ e := by positivity
  have hone : (1 : ℚ) ≤ m := by exact_mod_cast hm
  have hpos : 0 < q := lt_trans (mul_pos (by linarith) hscale) hlow
  have hbits : (m : ℚ) + 1 ≤ 2 ^ 53 := by exact_mod_cast hmantissa
  have hnearest : Nearest m (q / 2 ^ e) := .of_lt ((lt_div_iff₀ hscale).mpr hlow) ((div_lt_iff₀ hscale).mpr hhigh)
  have hsettle := settle_of_lt negative hmantissa hmost
  have hlog : Int.log 2 q < e + 53 := by
    refine (Int.lt_zpow_iff_log_lt one_lt_two hpos).mp (lt_of_lt_of_le hhigh ?_)
    rw [Nat.cast_ofNat, zpow_add₀ two_ne_zero, mul_comm]
    refine mul_le_mul_of_nonneg_left ?_ hscale.le
    norm_num at hbits ⊢
    linarith
  by_cases hunder : (2 : ℚ) ^ (e + 52) ≤ q ∨ e = -1074
  · have hexponent : leastExponent q = e := by
      rw [leastExponent]
      obtain hunder | rfl := hunder
      · have hge := (Int.zpow_le_iff_le_log one_lt_two hpos).mp (by exact_mod_cast hunder)
        omega
      · omega
    rw [ofRatio_eq negative hden hq hpos (m := m) (by rwa [hexponent]), hexponent, hsettle]
  · -- Below the power of two the rounding carries over to it.
    obtain ⟨hbelow,hnot⟩ := not_or.mp hunder
    rw [not_le] at hbelow
    have hpow (k : Int) : (2 : ℚ) ^ (e + k) = 2 ^ e * 2 ^ k := zpow_add₀ two_ne_zero e k
    have hbelow' : q < 2 ^ e * 4503599627370496 := by
      rw [hpow] at hbelow
      norm_num at hbelow
      exact hbelow
    have hedgeM : m = 2 ^ 52 := by
      by_contra hne
      have hmore : (2 : ℚ) ^ 52 + 1 ≤ m := by
        have := hnormal.resolve_left hnot
        exact_mod_cast Nat.lt_of_le_of_ne this (Ne.symm hne)
      have hscaled : ((2 : ℚ) ^ 52 + 1 / 2) * 2 ^ e ≤ (m - 1 / 2) * 2 ^ e := by
        gcongr
        linarith
      norm_num at hscaled
      linarith
    subst hedgeM
    have habove : (2 : ℚ) ^ e * 4503599627370495.75 < q := by
      have := hedge rfl
      norm_num at this
      linarith
    have hlogEq : Int.log 2 q = e + 51 := by
      refine log_eq one_lt_two (le_of_lt ?_) ?_
      · rw [Nat.cast_ofNat, hpow]
        norm_num
        linarith
      · rw [Nat.cast_ofNat, show e + 51 + 1 = e + 52 by omega]
        exact hbelow
    have hexponent : leastExponent q = e - 1 := by
      rw [leastExponent, hlogEq]
      omega
    have hhalf : (2 : ℚ) ^ (e - 1) = 2 ^ e / 2 := zpow_sub_one₀ two_ne_zero e
    have hcarry : Nearest (2 ^ 53) (q / 2 ^ (e - 1)) := by
      rw [hhalf]
      refine .of_lt ((lt_div_iff₀ (by positivity)).mpr ?_) ((div_lt_iff₀ (by positivity)).mpr ?_) <;> norm_num <;> linarith
    rw [ofRatio_eq negative hden hq hpos (m := 2 ^ 53) (by rwa [hexponent]), hexponent, settle_carry negative (by omega),
      Int.sub_add_cancel]

theorem ofRatio_congr {num den num' den' : Nat} (negative : Bool) (hnum : 0 < num) (hden : 0 < den) (hden' : 0 < den')
    (h : (num : ℚ) / den = (num' : ℚ) / den') : ofRatio negative num den = ofRatio negative num' den' := by
  have hpos : (0 : ℚ) < (num : ℚ) / den := div_pos (Nat.cast_pos.mpr hnum) (Nat.cast_pos.mpr hden)
  have hm := nearest_roundScaled num hden (leastExponent ((num : ℚ) / den))
  rw [ofRatio_eq negative hden rfl hpos hm, ofRatio_eq negative hden' h.symm hpos hm]

/-- The sign takes no part in rounding. -/
theorem ofRatio_true (num den : Nat) : ofRatio true num den = (ofRatio false num den).neg := by
  unfold ofRatio
  dsimp only
  split_ifs <;> rfl

/-! ### The one form -/

theorem canonical_zero (negative : Bool) : (zero negative).Canonical := ⟨by omega,by omega,by omega,.inl rfl⟩

theorem canonical_settle {m : Nat} {e : Int} (negative : Bool) (hm : m ≤ 2 ^ 53) (he : -1074 ≤ e)
    (hnormal : e = -1074 ∨ 2 ^ 52 ≤ m) : (settle negative m e).Canonical := by
  by_cases hcarry : m = 2 ^ 53
  · rw [hcarry, settle, if_pos (by rw [Nat.shiftLeft_eq, one_mul])]
    dsimp only
    split
    · trivial
    · exact ⟨by rw [Nat.shiftLeft_eq]; omega,by omega,by omega,.inr (by rw [Nat.shiftLeft_eq]; omega)⟩
  · rw [settle, if_neg (by rw [Nat.shiftLeft_eq, one_mul]; exact hcarry)]
    dsimp only
    split
    · trivial
    · exact ⟨by omega,he,by omega,hnormal⟩

/-- Rounding leads to the one form: the exponent is the least for which 53 bits suffice. -/
theorem canonical_ofRatio (negative : Bool) (num : Nat) {den : Nat} (hden : 0 < den) : (ofRatio negative num den).Canonical := by
  rcases Nat.eq_zero_or_pos num with rfl | hnum
  · exact canonical_zero negative
  have hpos : (0 : ℚ) < (num : ℚ) / den := div_pos (Nat.cast_pos.mpr hnum) (Nat.cast_pos.mpr hden)
  have hm := nearest_roundScaled num hden (leastExponent ((num : ℚ) / den))
  rw [ofRatio_eq negative hden rfl hpos hm]
  generalize (num : ℚ) / den = q at *
  generalize roundScaled num den (leastExponent q) = m at *
  have hscale : (0 : ℚ) < 2 ^ leastExponent q := by positivity
  have hbits (k : Int) : (2 : ℚ) ^ (leastExponent q + k) = 2 ^ k * 2 ^ leastExponent q := by
    rw [zpow_add₀ two_ne_zero, mul_comm]
  have hmost : m ≤ 2 ^ 53 := by
    have hlog : Int.log 2 q < leastExponent q + 53 := by
      rw [leastExponent]
      omega
    have hq := (Int.lt_zpow_iff_log_lt one_lt_two hpos).mpr hlog
    rw [Nat.cast_ofNat, hbits, ← div_lt_iff₀ hscale] at hq
    have hlow := hm.low
    have hlt : (m : ℚ) < (2 ^ 53 + 1 : Nat) := by
      norm_num at hq
      push_cast
      linarith
    exact Nat.lt_succ_iff.mp (Nat.cast_lt.mp hlt)
  refine canonical_settle negative hmost (le_max_right _ _) ?_
  by_cases hleast : leastExponent q = -1074
  · exact .inl hleast
  · right
    have hlog : leastExponent q + 52 ≤ Int.log 2 q := by
      rw [leastExponent] at hleast ⊢
      omega
    have hq := (Int.zpow_le_iff_le_log one_lt_two hpos).mpr hlog
    rw [Nat.cast_ofNat, hbits, ← le_div_iff₀ hscale] at hq
    have hhigh := hm.high
    have hlt : ((2 ^ 52 : Nat) : ℚ) < (m + 1 : Nat) := by
      norm_num at hq
      push_cast
      linarith
    exact Nat.lt_succ_iff.mp (Nat.cast_lt.mp hlt)

end Binary64
end VirtualShell.Number
