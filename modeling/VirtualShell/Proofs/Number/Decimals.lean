import VirtualShell.Number.Shortest
import VirtualShell.Proofs.Number.Rounding

/-!
The shortest decimal of a floating-point value reads back as that value: seventeen digits always do, and a decimal counts
by the rational number that it is.
-/
namespace VirtualShell.Number

/-! ### Decimals as rational numbers -/

theorem log_natCast_eq {n : Nat} (hn : 0 < n) : Int.log 10 (n : ℚ) = (Nat.toDigits 10 n).length - 1 := by
  have hlow : 10 ^ ((Nat.toDigits 10 n).length - 1) ≤ n := by
    have hpos := Nat.length_toDigits_pos (n := n) (b := 10)
    by_contra hlt
    have hlt := Nat.lt_of_not_le hlt
    rcases Nat.eq_zero_or_pos ((Nat.toDigits 10 n).length - 1) with hzero | hlen
    · rw [hzero] at hlt
      omega
    · have := (Nat.length_toDigits_le_iff (by omega) hlen).mpr hlt
      omega
  have hhigh : n < 10 ^ (Nat.toDigits 10 n).length :=
    (Nat.length_toDigits_le_iff (by omega) Nat.length_toDigits_pos).mp (Nat.le_refl _)
  have hlog : Nat.log 10 n = (Nat.toDigits 10 n).length - 1 :=
    Nat.log_eq_of_pow_le_of_lt_pow hlow (by rwa [Nat.sub_add_cancel Nat.length_toDigits_pos])
  have hpos := Nat.length_toDigits_pos (n := n) (b := 10)
  rw [Int.log_natCast, hlog]
  omega

/-- The scientific exponent is that of the rational number. -/
theorem log_mul_zpow {n : Nat} (hn : 0 < n) (e : Int) : Int.log 10 ((n : ℚ) * 10 ^ e) = e + (Nat.toDigits 10 n).length - 1 := by
  have hpos : (0 : ℚ) < n := Nat.cast_pos.mpr hn
  have hlow := Int.zpow_log_le_self (b := 10) (by omega) hpos
  have hhigh := Int.lt_zpow_succ_log_self (b := 10) (by omega) (n : ℚ)
  rw [log_natCast_eq hn, Nat.cast_ofNat] at hlow hhigh
  refine log_eq (by omega) ?_ ?_
  · rw [Nat.cast_ofNat, show e + (Nat.toDigits 10 n).length - 1 = (Nat.toDigits 10 n).length - 1 + e by omega, zpow_add₀ (by norm_num)]
    gcongr
  · rw [Nat.cast_ofNat, show e + (Nat.toDigits 10 n).length - 1 + 1 = (Nat.toDigits 10 n).length - 1 + 1 + e by omega, zpow_add₀ (by norm_num)]
    gcongr

theorem scientificExponent_eq {num den : Nat} (hnum : 0 < num) (hden : 0 < den) :
    Binary64.scientificExponent num den = Int.log 10 ((num : ℚ) / den) := by
  have hnumPos : (0 : ℚ) < num := Nat.cast_pos.mpr hnum
  have hdenPos : (0 : ℚ) < den := Nat.cast_pos.mpr hden
  obtain ⟨hlow,hhigh⟩ := log_div_bounds (b := 10) (by omega) hnumPos hdenPos
  rw [log_natCast_eq hnum, log_natCast_eq hden] at hlow hhigh
  have hreaches (e : Int) : (if e ≥ 0 then decide (num ≥ den * Nat.pow 10 e.toNat) else decide (num * Nat.pow 10 (-e).toNat ≥ den)) = true ↔
      (10 : ℚ) ^ e ≤ (num : ℚ) / den := by
    have hdiv := div_zpow 10 num den e
    rw [Nat.cast_ofNat] at hdiv
    rw [← one_le_div (by positivity), ← hdiv]
    split
    · rw [one_le_div (by positivity), decide_eq_true_eq]
      exact_mod_cast Iff.rfl
    · rw [one_le_div hdenPos, decide_eq_true_eq]
      exact_mod_cast Iff.rfl
  rw [Binary64.scientificExponent]
  generalize hguess : ((Nat.toDigits 10 num).length : Int) - (Nat.toDigits 10 den).length = guess at *
  rw [show ((Nat.toDigits 10 num).length : Int) - 1 - ((Nat.toDigits 10 den).length - 1) - 1 = guess - 1 by omega] at hlow
  rw [show ((Nat.toDigits 10 num).length : Int) - 1 - ((Nat.toDigits 10 den).length - 1) + 1 = guess + 1 by omega] at hhigh
  change (if (if guess ≥ 0 then decide (num ≥ den * Nat.pow 10 guess.toNat)
    else decide (num * Nat.pow 10 (-guess).toNat ≥ den)) = true then guess else guess - 1) = _
  by_cases h : (10 : ℚ) ^ guess ≤ (num : ℚ) / den
  · rw [if_pos ((hreaches guess).mpr h)]
    exact (log_eq Nat.one_lt_ofNat h hhigh).symm
  · rw [if_neg (mt (hreaches guess).mp h)]
    refine (log_eq Nat.one_lt_ofNat (le_of_lt hlow) ?_).symm
    rw [Int.sub_add_cancel]
    exact not_le.mp h

namespace Binary64

/-! ### Reading decimals -/

theorem ofDecimal_eq {digits : Nat} (hdigits : 0 < digits) (negative : Bool) (e : Int) : ∃ num den : Nat, 0 < num ∧ 0 < den ∧
    (num : ℚ) / den = digits * 10 ^ e ∧ ofDecimal negative digits e =
      if Int.log 10 ((digits : ℚ) * 10 ^ e) > 309 then .infinite negative
      else if Int.log 10 ((digits : ℚ) * 10 ^ e) < -331 then zero negative else ofRatio negative num den := by
  have hratio := mul_zpow_eq 10 digits e
  have htop : e + (Nat.toDigits 10 digits).length = Int.log 10 ((digits : ℚ) * 10 ^ e) + 1 := by
    rw [log_mul_zpow hdigits]
    omega
  have hofDecimal : ofDecimal negative digits e = if Int.log 10 ((digits : ℚ) * 10 ^ e) > 309 then .infinite negative
      else if Int.log 10 ((digits : ℚ) * 10 ^ e) < -331 then zero negative
      else if e ≥ 0 then ofRatio negative (digits * Nat.pow 10 e.toNat) 1 else ofRatio negative digits (Nat.pow 10 (-e).toNat) := by
    rw [ofDecimal, if_neg (by omega), htop]
    dsimp only
    congr 1
    · rw [eq_iff_iff]
      omega
    · congr 1
      rw [eq_iff_iff]
      omega
  rw [hofDecimal]
  by_cases he : e ≥ 0
  · rw [if_pos he] at hratio
    exact ⟨digits * Nat.pow 10 e.toNat,1,Nat.mul_pos hdigits (Nat.pow_pos (by omega)),one_pos,hratio,by rw [if_pos he]⟩
  · rw [if_neg he] at hratio
    exact ⟨digits,Nat.pow 10 (-e).toNat,hdigits,Nat.pow_pos (by omega),hratio,by rw [if_neg he]⟩

/-- A decimal counts by the rational number that it is. -/
theorem ofDecimal_congr {digits digits' : Nat} {e e' : Int} (h : (digits : ℚ) * 10 ^ e = digits' * 10 ^ e') (negative : Bool) :
    ofDecimal negative digits e = ofDecimal negative digits' e' := by
  have hten (k : Int) : (10 : ℚ) ^ k ≠ 0 := zpow_ne_zero k (by norm_num)
  have hzero : digits = 0 ↔ digits' = 0 := by
    rw [← Nat.cast_eq_zero (R := ℚ), ← Nat.cast_eq_zero (R := ℚ), ← mul_eq_zero_iff_right (hten e), h, mul_eq_zero_iff_right (hten e')]
  rcases Nat.eq_zero_or_pos digits with hdigits | hdigits
  · rw [hdigits, hzero.mp hdigits]
    rfl
  · have hdigits' := Nat.pos_of_ne_zero (mt hzero.mpr (Nat.ne_of_gt hdigits))
    obtain ⟨num,den,hnum,hden,hratio,heq⟩ := ofDecimal_eq hdigits negative e
    obtain ⟨num',den',hnum',hden',hratio',heq'⟩ := ofDecimal_eq hdigits' negative e'
    rw [heq, heq', h, ofRatio_congr negative hnum hden hden' (by rw [hratio, hratio', h])]

theorem ofDecimal_true (digits : Nat) (e : Int) : ofDecimal true digits e = (ofDecimal false digits e).neg := by
  unfold ofDecimal
  dsimp only
  split_ifs
  · rfl
  · rfl
  · rfl
  · exact ofRatio_true _ _
  · exact ofRatio_true _ _

theorem canonical_ofDecimal (negative : Bool) (digits : Nat) (e : Int) : (ofDecimal negative digits e).Canonical := by
  unfold ofDecimal
  dsimp only
  split_ifs
  · exact canonical_zero negative
  · trivial
  · exact canonical_zero negative
  · exact canonical_ofRatio negative _ one_pos
  · exact canonical_ofRatio negative _ (Nat.pow_pos (by omega))

/-! ### Seventeen digits -/

theorem two_zpow_le : (2 : ℚ) ^ (1023 : Int) ≤ 10 ^ (308 : Int) := by
  have hbase : (2 : ℚ) ^ (93 : Int) ≤ 10 ^ (28 : Int) := by norm_num
  calc (2 : ℚ) ^ (1023 : Int) = (2 ^ (93 : Int)) ^ (11 : Int) := zpow_mul 2 93 11
    _ ≤ (10 ^ (28 : Int)) ^ (11 : Int) := zpow_le_zpow_left₀ (by norm_num) (by positivity) hbase
    _ = 10 ^ (308 : Int) := (zpow_mul 10 28 11).symm

/-- How large and how small values can be. -/
theorem value_bounds {m : Nat} {e : Int} (hm : 0 < m) (hmantissa : m < 2 ^ 53) (hleast : -1074 ≤ e) (hmost : e ≤ 971) :
    (2 : ℚ) * 10 ^ (-331 : Int) ≤ m * 2 ^ e ∧ 2 * ((m : ℚ) * 2 ^ e) < 10 ^ (309 : Int) := by
  have hpow := two_zpow_le
  have hone : (1 : ℚ) ≤ m := by exact_mod_cast hm
  have hbits : (m : ℚ) ≤ 2 ^ 53 := by exact_mod_cast Nat.le_of_lt hmantissa
  have hscale : (0 : ℚ) < 2 ^ e := by positivity
  have hlargest : (2 : ℚ) ^ e ≤ 2 ^ (971 : Int) := zpow_le_zpow_right₀ (by norm_num) hmost
  have hsmallest : (2 : ℚ) ^ (-1074 : Int) ≤ 2 ^ e := zpow_le_zpow_right₀ (by norm_num) hleast
  have hinv : ((10 : ℚ) ^ (308 : Int))⁻¹ ≤ (2 ^ (1023 : Int))⁻¹ := inv_anti₀ (by positivity) hpow
  rw [← zpow_neg, ← zpow_neg] at hinv
  have hsplit (b : ℚ) (hb : b ≠ 0) (i j : Int) : b ^ (i + j) = b ^ i * b ^ j := zpow_add₀ hb i j
  have h1023 : (2 : ℚ) ^ (1023 : Int) = 2 ^ (971 : Int) * 2 ^ (52 : Int) := hsplit 2 two_ne_zero 971 52
  have h1074 := hsplit 2 two_ne_zero (-1023) (-51)
  have h309 : (10 : ℚ) ^ (309 : Int) = 10 ^ (308 : Int) * 10 ^ (1 : Int) := hsplit 10 (by norm_num) 308 1
  have h331 := hsplit 10 (by norm_num) (-308) (-23)
  have hpos : (0 : ℚ) < 10 ^ (308 : Int) := by positivity
  have hinvPos : (0 : ℚ) < 10 ^ (-308 : Int) := by positivity
  have hlow : (2 : ℚ) ^ e ≤ m * 2 ^ e := le_mul_of_one_le_left hscale.le hone
  have hhigh : (m : ℚ) * 2 ^ e ≤ 2 ^ 53 * 2 ^ e := mul_le_mul_of_nonneg_right hbits hscale.le
  rw [show (-1023 : Int) + -51 = -1074 by norm_num] at h1074
  rw [show (-308 : Int) + -23 = -331 by norm_num] at h331
  rw [h1023] at hpow
  rw [h1074] at hsmallest
  rw [h309, h331]
  generalize (10 : ℚ) ^ (308 : Int) = large at *
  generalize (10 : ℚ) ^ (-308 : Int) = small at *
  generalize (2 : ℚ) ^ (971 : Int) = largest at *
  generalize (2 : ℚ) ^ (-1023 : Int) = smallest at *
  generalize (2 : ℚ) ^ e = scale at *
  norm_num at hsmallest hpow hhigh ⊢
  constructor
  · linarith only [hlow, hsmallest, hinv, hinvPos]
  · linarith only [hhigh, hlargest, hpow, hpos]

/-- A decimal of seventeen digits that is nearest to a value reads back as it. -/
theorem ofDecimal_of_nearest {m digits : Nat} {e : Int} {q : ℚ} (hm : 0 < m) (hcanonical : (finite false m e).Canonical)
    (hq : q = m * 2 ^ e) (hdigits : Nearest digits (q / 10 ^ (Int.log 10 q - 16))) (negative : Bool) :
    0 < digits ∧ ofDecimal negative digits (Int.log 10 q - 16) = .finite negative m e := by
  obtain ⟨hmantissa,hleast,hmost,hnormal⟩ := hcanonical
  have hscale : (0 : ℚ) < 2 ^ e := by positivity
  have hmPos : (0 : ℚ) < m := Nat.cast_pos.mpr hm
  have hpos : 0 < q := hq ▸ mul_pos hmPos hscale
  obtain ⟨hleastValue,hmostValue⟩ := value_bounds hm hmantissa hleast hmost
  rw [← hq] at hleastValue hmostValue
  have hunit : (10 : ℚ) ^ (Int.log 10 q - 16) * 10 ^ 16 ≤ q := by
    have hlog := Int.zpow_log_le_self (b := 10) Nat.one_lt_ofNat hpos
    have hsplit : (10 : ℚ) ^ Int.log 10 q = 10 ^ (Int.log 10 q - 16) * 10 ^ (16 : Int) := by
      rw [← zpow_add₀ (by norm_num), Int.sub_add_cancel]
    rw [Nat.cast_ofNat, hsplit] at hlog
    exact_mod_cast hlog
  generalize Int.log 10 q - 16 = k at *
  have hunitPos : (0 : ℚ) < 10 ^ k := by positivity
  -- The error is at most half a unit of the last digit, so less than that of the mantissa.
  have hlow : q - 10 ^ k / 2 ≤ digits * 10 ^ k := by
    have := (div_le_iff₀ hunitPos).mp hdigits.high
    linarith
  have hhigh : digits * 10 ^ k ≤ q + 10 ^ k / 2 := by
    have := (le_div_iff₀ hunitPos).mp hdigits.low
    linarith
  have hbits : (m : ℚ) < 2 ^ 53 := by exact_mod_cast hmantissa
  have herror : (10 : ℚ) ^ k / 2 < 2 ^ e / 2 := by
    have hm16 : (m : ℚ) * 2 ^ e < 10 ^ 16 * 2 ^ e := by
      gcongr
      exact lt_trans hbits (by norm_num)
    norm_num at hunit hm16
    linarith
  have herrorEdge : m = 2 ^ 52 → (10 : ℚ) ^ k / 2 < 2 ^ e / 4 := by
    rintro rfl
    push_cast at hq
    norm_num at hunit hq
    linarith
  have hdigitsPos : 0 < digits := by
    have hvalue : (0 : ℚ) < digits * 10 ^ k := by
      norm_num at hunit
      linarith
    have := pos_of_mul_pos_left hvalue hunitPos.le
    exact_mod_cast this
  refine ⟨hdigitsPos,?_⟩
  obtain ⟨num,den,hnum,hden,hratio,heq⟩ := ofDecimal_eq hdigitsPos negative k
  have hvalue : q ≤ 2 * (digits * 10 ^ k) ∧ digits * 10 ^ k ≤ 2 * q := by
    norm_num at hunit
    constructor <;> linarith
  have hvaluePos : (0 : ℚ) < digits * 10 ^ k := by linarith
  have hlogLow : ¬ Int.log 10 ((digits : ℚ) * 10 ^ k) < -331 := by
    have hle := le_of_mul_le_mul_left (hleastValue.trans hvalue.1) two_pos
    have := (Int.zpow_le_iff_le_log (b := 10) Nat.one_lt_ofNat hvaluePos).mp (by rwa [Nat.cast_ofNat])
    omega
  have hlogHigh : ¬ Int.log 10 ((digits : ℚ) * 10 ^ k) > 309 := by
    have hlt := lt_of_le_of_lt hvalue.2 hmostValue
    have := (Int.lt_zpow_iff_log_lt (b := 10) Nat.one_lt_ofNat hvaluePos).mp (by rwa [Nat.cast_ofNat])
    omega
  rw [heq, if_neg hlogHigh, if_neg hlogLow]
  refine ofRatio_of_near negative hden hratio hm ⟨hmantissa,hleast,hmost,hnormal⟩ ?_ ?_ fun hedge => ?_
  · linarith
  · linarith
  · have := herrorEdge hedge
    linarith

/-! ### The shortest decimal -/

theorem ratio_eq (m : Nat) (e : Int) : ((ratio m e).1 : ℚ) / (ratio m e).2 = m * 2 ^ e ∧ 0 < (ratio m e).2 ∧
    (0 < m → 0 < (ratio m e).1) := by
  have hmul := mul_zpow_eq 2 m e
  rw [ratio]
  split
  · rename_i he
    rw [if_pos he] at hmul
    rw [Nat.shiftLeft_eq]
    exact ⟨hmul,one_pos,fun hm => by positivity⟩
  · rename_i he
    rw [if_neg he] at hmul
    rw [Nat.shiftLeft_eq, one_mul]
    exact ⟨hmul,by positivity,fun hm => hm⟩

theorem roundHalfEven_cases (num den : Nat) : roundHalfEven num den = num / den ∨ roundHalfEven num den = num / den + 1 := by
  rw [roundHalfEven]
  split
  · exact .inr rfl
  · exact .inl rfl

/-- Of the decimals of one exponent the nearest is tried first. -/
theorem neighbour_of_nearest (m : Nat) (e k : Int) : ∃ digits, Nearest digits ((m : ℚ) * 2 ^ e / 10 ^ k) ∧
    (readsBack m e ⟨digits,k⟩ = true → neighbour m e k = some ⟨digits,k⟩) := by
  obtain ⟨hratio,hden,_⟩ := ratio_eq m e
  have hdiv := div_zpow 10 (ratio m e).1 (ratio m e).2 k
  rw [hratio, Nat.cast_ofNat] at hdiv
  have hfirst (num den : Nat) (h : readsBack m e ⟨roundHalfEven num den,k⟩ = true) :
      (let below : Decimal := ⟨num / den,k⟩
      let above : Decimal := ⟨num / den + 1,k⟩
      let nearest := if roundHalfEven num den = num / den then (below,above) else (above,below)
      if readsBack m e nearest.1 then some nearest.1 else if readsBack m e nearest.2 then some nearest.2 else none) =
        some ⟨roundHalfEven num den,k⟩ := by
    obtain hround | hround := roundHalfEven_cases num den
    · rw [hround] at h ⊢
      simp [h]
    · rw [hround] at h ⊢
      simp [h]
  by_cases hk : k ≥ 0
  · rw [if_pos hk] at hdiv
    refine ⟨_,hdiv ▸ nearest_roundHalfEven _ (Nat.mul_pos hden (Nat.pow_pos (by omega))),fun h => ?_⟩
    rw [neighbour]
    dsimp only
    rw [if_pos hk]
    exact hfirst _ _ h
  · rw [if_neg hk] at hdiv
    refine ⟨_,hdiv ▸ nearest_roundHalfEven _ hden,fun h => ?_⟩
    rw [neighbour]
    dsimp only
    rw [if_neg hk]
    exact hfirst _ _ h

theorem readsBack_of_neighbour {m : Nat} {e k : Int} {d : Decimal} (h : neighbour m e k = some d) : readsBack m e d = true := by
  rw [neighbour] at h
  dsimp only at h
  split_ifs at h <;> simp_all

theorem ofRatio_false {num den m : Nat} {e : Int} {sign : Bool} (h : ofRatio false num den = .finite sign m e) : sign = false := by
  unfold ofRatio at h
  dsimp only at h
  split_ifs at h <;> cases h <;> rfl

theorem ofDecimal_false {digits m : Nat} {e k : Int} {sign : Bool} (h : ofDecimal false digits k = .finite sign m e) : sign = false := by
  unfold ofDecimal at h
  dsimp only at h
  split_ifs at h
  · cases h
    rfl
  · cases h
    rfl
  · exact ofRatio_false h
  · exact ofRatio_false h

/-- What reads back is a decimal of the value, with either sign. -/
theorem ofDecimal_of_readsBack {m : Nat} {e : Int} {d : Decimal} (hm : 0 < m) (h : readsBack m e d = true) (negative : Bool) :
    0 < d.digits ∧ ofDecimal negative d.digits d.exponent = .finite negative m e := by
  obtain ⟨sign,hfinite⟩ : ∃ sign, ofDecimal false d.digits d.exponent = .finite sign m e := by
    rw [readsBack] at h
    split at h
    · rename_i sign m' e' heq
      simp only [Bool.and_eq_true, beq_iff_eq] at h
      exact ⟨sign,h.1 ▸ h.2 ▸ heq⟩
    · cases h
  obtain rfl := ofDecimal_false hfinite
  refine ⟨Nat.pos_of_ne_zero fun hzero => ?_,?_⟩
  · rw [hzero] at hfinite
    obtain ⟨_,rfl,_⟩ : false = false ∧ 0 = m ∧ _ := by simpa [ofDecimal, zero] using hfinite
    exact Nat.lt_irrefl _ hm
  · cases negative with
    | false => exact hfinite
    | true => rw [ofDecimal_true, hfinite, neg, Bool.not_false]

theorem strip_eq (fuel : Nat) (d : Decimal) (hd : 0 < d.digits) : 0 < (strip fuel d).digits ∧
    ((strip fuel d).digits : ℚ) * 10 ^ (strip fuel d).exponent = d.digits * 10 ^ d.exponent := by
  induction fuel generalizing d with
  | zero => exact ⟨hd,rfl⟩
  | succ fuel ih =>
    rw [strip]
    split
    · rename_i h
      simp only [ne_eq, Bool.and_eq_true, decide_eq_true_eq] at h
      obtain ⟨hpos,heq⟩ := ih ⟨d.digits / 10,d.exponent + 1⟩ (by dsimp only; omega)
      refine ⟨hpos,heq.trans ?_⟩
      have hten : (d.digits : ℚ) = (d.digits / 10 : Nat) * 10 := by exact_mod_cast (Nat.div_mul_cancel (Nat.dvd_of_mod_eq_zero h.1)).symm
      rw [hten, zpow_add₀ (by norm_num), zpow_one]
      ring
    · exact ⟨hd,rfl⟩

/-- The shortest decimal of a value reads back as the value. -/
theorem ofDecimal_shortest {m : Nat} {e : Int} (negative : Bool) (hcanonical : (finite negative m e).Canonical) :
    ofDecimal negative (shortest m e).digits (shortest m e).exponent = .finite negative m e := by
  rcases Nat.eq_zero_or_pos m with rfl | hm
  · obtain rfl : e = -1074 := hcanonical.2.2.2.resolve_right (by omega)
    rfl
  · obtain ⟨hratio,hden,hnum⟩ := ratio_eq m e
    have htop : scientificExponent (ratio m e).1 (ratio m e).2 = Int.log 10 ((m : ℚ) * 2 ^ e) := by
      rw [scientificExponent_eq (hnum hm) hden, hratio]
    obtain ⟨digits,hdigits,hneighbour⟩ := neighbour_of_nearest m e (Int.log 10 ((m : ℚ) * 2 ^ e) - 16)
    have hread : readsBack m e ⟨digits,Int.log 10 ((m : ℚ) * 2 ^ e) - 16⟩ = true := by
      rw [readsBack, (ofDecimal_of_nearest hm hcanonical rfl hdigits false).2]
      simp
    -- Some number of digits does, and the first that does is taken.
    obtain ⟨d,hd⟩ : ∃ d, ((List.range 17).filterMap fun (n : Nat) => neighbour m e (Int.log 10 ((m : ℚ) * 2 ^ e) - n)).head? = some d :=
      ⟨_,List.head?_eq_some_head (List.ne_nil_of_mem (List.mem_filterMap.mpr ⟨16,by simp,hneighbour hread⟩))⟩
    obtain ⟨n,_,hn⟩ := List.mem_filterMap.mp (List.mem_of_head? hd)
    obtain ⟨hdigits,hvalue⟩ := ofDecimal_of_readsBack hm (readsBack_of_neighbour hn) negative
    have hshortest : shortest m e = strip 20 d := by
      rw [shortest, if_neg (by omega)]
      dsimp only
      rw [htop, hd, Option.getD_some]
    have heq := (strip_eq 20 d hdigits).2
    rw [hshortest, ofDecimal_congr heq, hvalue]

end Binary64
end VirtualShell.Number
