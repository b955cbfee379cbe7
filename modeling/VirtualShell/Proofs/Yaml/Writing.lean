import Mathlib.Algebra.Ring.Nat
import VirtualShell.Proofs.Yaml.LiteralBlocks
import VirtualShell.Proofs.Yaml.Numbers
import VirtualShell.Proofs.Yaml.PlainScalars
import VirtualShell.Proofs.Yaml.QuotedScalars

/-!
How the texts of scalars look: which texts are written plain, between quotes or as blocks, and that words and numbers are plain.
-/
namespace VirtualShell.Yaml

/-! ### Texts -/

/-- A text as it is written in a style, with its later lines indented to `n`. -/
inductive Written (n : Nat) : String → Style → List Char → Prop where
  | plain {cs : List Char} (h : Plain cs) : Written n (.ofList cs) .plain cs
  | single {cs : List Char} (h : Single cs) : Written n (.ofList cs) .single (singleQuoted n cs)
  | double (cs : List Char) : Written n (.ofList cs) .double (doubleQuoted cs)
  | literal {cs : List Char} (hline : '\n' ∈ cs) (hchars : ∀ c ∈ cs, isPrintable c = true) :
      Written n (.ofList cs) .literal (literalBlock n cs)

theorem single_of_ways {cs : List Char} (h : (ways cs).single = true) (hline : '\n' ∉ cs) : Single cs := by
  cases cs with
  | nil => exact ⟨by simp,rfl,rfl⟩
  | cons c cs =>
    simp only [ways, List.isEmpty_cons, Bool.false_eq_true, if_false, Bool.and_eq_true, Bool.not_eq_true', List.all_eq_true] at h
    exact ⟨fun d hd => ⟨h.1.1 d hd,fun he => hline (he ▸ hd)⟩,h.1.2,h.2⟩

theorem plain_of_ways {cs : List Char} (hne : cs ≠ []) (h : (ways cs).plain = true) : Plain cs := by
  have hempty : cs.isEmpty = false := by simpa using hne
  simp only [ways, hempty, Bool.false_eq_true, if_false, Bool.and_eq_true, Bool.not_eq_true', List.all_eq_true,
    List.any_eq_false] at h
  obtain ⟨⟨⟨⟨⟨⟨hprintable,_⟩,_⟩,hfirst⟩,hlast⟩,hbreak⟩,hsigns⟩ := h
  refine ⟨hne,fun c hc => ⟨hprintable c hc,by simpa using hbreak c hc⟩,fun he => ?_,fun he => ?_,hsigns⟩
  · simp [he, isSpace] at hfirst
  · simp [he, isSpace] at hlast

theorem printable_of_ways {cs : List Char} (h : (ways cs).literal = true) : ∀ c ∈ cs, isPrintable c = true := by
  cases cs with
  | nil => simp
  | cons c cs =>
    simp only [ways, List.isEmpty_cons, Bool.false_eq_true, if_false, Bool.and_eq_true, List.all_eq_true] at h
    exact h.1.1

theorem written_scalarText (n : Nat) (text : String) : Written n text (styleOf text) (scalarText n text) := by
  obtain ⟨cs,rfl⟩ : ∃ cs, text = .ofList cs := ⟨text.toList,String.ofList_toList.symm⟩
  have hstyle : styleOf (.ofList cs) = if cs.contains '\n' then if (ways cs).literal then .literal else .double
      else if resolve (.ofList cs) != .text || Resolved.isPadded cs then if (ways cs).single then .single else .double
      else if (ways cs).plain then .plain else if (ways cs).single then .single else .double := by
    rw [styleOf, String.toList_ofList]
  have hline : ¬ cs.contains '\n' = true → '\n' ∉ cs := by simp
  rw [scalarText, String.toList_ofList, hstyle]
  split_ifs with hbreak hl hother hs hp hs
  · exact .literal (by simpa using hbreak) (printable_of_ways hl)
  · exact .double cs
  · exact .single (single_of_ways hs (hline hbreak))
  · exact .double cs
  · refine .plain (plain_of_ways ?_ hp)
    rintro rfl
    exact hother rfl
  · exact .single (single_of_ways hs (hline hbreak))
  · exact .double cs

/-- A scalar starts with a character of its own. -/
theorem Written.exists_cons {n : Nat} {text : String} {style : Style} {cs : List Char} (h : Written n text style cs) :
    ∃ c rest, cs = c :: rest ∧ isGap c = false ∧ isBreak c = false ∧ c ≠ '#' ∧ c ≠ '\ufeff' := by
  cases h with
  | plain h =>
    obtain ⟨c,rest,rfl⟩ := List.exists_cons_of_ne_nil h.ne
    obtain ⟨hprintable,hbreak⟩ := h.chars c (by simp)
    refine ⟨c,rest,rfl,?_,hbreak,?_,?_⟩
    · rw [← Bool.not_eq_true]
      exact fun hgap => h.first (by simp [eq_space_of_isPrintable hprintable hgap])
    · rintro rfl
      have := (hasSigns_cons h.signs).1
      simp [leadingSigns] at this
    · rintro rfl
      simp [isPrintable] at hprintable
  | single | double | literal => exact ⟨_,_,rfl,rfl,rfl,by simp,by simp⟩

/-- All but a literal block ends within a line. -/
theorem Written.endLine_eq {n : Nat} {text : String} {style : Style} {cs : List Char} (h : Written n text style cs)
    (hstyle : style ≠ .literal) : endLine cs = cs ++ ['\n'] := by
  have hlast {c : Char} (hc : cs.getLast? = some c) (hbreak : isBreak c = false) : endLine cs = cs ++ ['\n'] := by
    rw [endLine, hc, if_neg (by simp [hbreak])]
  cases h with
  | plain h =>
    obtain ⟨c,hc⟩ := Option.isSome_iff_exists.mp (List.getLast?_isSome.mpr h.ne)
    exact hlast hc (h.inLine c (List.mem_of_getLast? hc)).1
  | single h => exact hlast List.getLast?_concat rfl
  | double cs => exact hlast List.getLast?_concat rfl
  | literal => exact absurd rfl hstyle

theorem isPrintable_padding {n : Nat} : ∀ c ∈ padding n, isPrintable c = true := fun c hc => by
  rw [List.eq_of_mem_replicate hc]
  rfl

theorem isPrintable_indented {n : Nat} {cs : List Char} (h : ∀ c ∈ cs, isPrintable c = true) (fresh : Bool) :
    ∀ c ∈ indented n fresh cs, isPrintable c = true := by
  induction cs generalizing fresh with
  | nil => exact List.forall_mem_nil _
  | cons c cs ih =>
    obtain ⟨hc,hcs⟩ := List.forall_mem_cons.mp h
    rw [indented]
    split
    · exact List.forall_mem_cons.mpr ⟨hc,ih hcs true⟩
    · refine List.forall_mem_append.mpr ⟨?_,List.forall_mem_cons.mpr ⟨hc,ih hcs false⟩⟩
      split
      · exact isPrintable_padding
      · exact List.forall_mem_nil _

/-- Whatever a text is made of, only printable characters are written for it. -/
theorem Written.printable {n : Nat} {text : String} {style : Style} {cs : List Char} (h : Written n text style cs) :
    ∀ c ∈ cs, isPrintable c = true := by
  cases h with
  | plain h => exact fun c hc => (h.chars c hc).1
  | @single cs h =>
    have hbody : ∀ c ∈ singleBody n cs, isPrintable c = true := by
      refine List.forall_mem_append.mpr ⟨isPrintable_indented (quotesDoubled_of rfl fun c hc => (h.chars c hc).1) false,?_⟩
      split
      · exact isPrintable_padding
      · exact List.forall_mem_nil _
    rw [singleQuoted_eq]
    exact List.forall_mem_cons.mpr ⟨rfl,List.forall_mem_append.mpr ⟨hbody,by decide⟩⟩
  | double cs =>
    have hbody : ∀ c ∈ cs.flatMap escaped, isPrintable c = true := fun d hd => by
      obtain ⟨c,_,hc⟩ := List.mem_flatMap.mp hd
      exact (escaped_mem hc).1
    exact List.forall_mem_cons.mpr ⟨rfl,List.forall_mem_append.mpr ⟨hbody,by decide⟩⟩
  | @literal cs hline hchars =>
    have hbody : ∀ c ∈ '\n' :: indented n true cs, isPrintable c = true :=
      List.forall_mem_cons.mpr ⟨rfl,isPrintable_indented hchars true⟩
    have hsign : ∀ c ∈ chompingSign cs, isPrintable c = true := by
      obtain ⟨hsign,_⟩ | ⟨hsign,_⟩ | ⟨hsign,_⟩ := chompingSign_cases (List.ne_nil_of_mem hline) <;> rw [hsign] <;> decide
    have hhint : ∀ c ∈ if cs.head?.any fun c => isSpace c || isBreak c then ['2'] else [], isPrintable c = true := by
      split <;> decide
    rw [literalBlock]
    exact List.forall_mem_append.mpr ⟨List.forall_mem_cons.mpr ⟨rfl,List.forall_mem_append.mpr ⟨hhint,hsign⟩⟩,hbody⟩

theorem isAllowed_of_isPrintable {c : Char} (h : isPrintable c = true) : isAllowed c = true := by
  simp only [isPrintable, isAllowed, Bool.or_eq_true, Bool.and_eq_true, beq_iff_eq, decide_eq_true_eq, bne_iff_ne] at h ⊢
  omega

/-! ### Keys -/

theorem utf8ByteSize_ofList (cs : List Char) : (String.ofList cs).utf8ByteSize = (cs.map Char.utf8Size).sum := by
  induction cs with
  | nil => rfl
  | cons c cs ih =>
    rw [String.ofList_cons, String.utf8ByteSize_append, String.utf8ByteSize_singleton, ih, List.map_cons, List.sum_cons]

theorem length_flatMap_le {f : Char → List Char} {k : Nat} (h : ∀ c, (f c).length ≤ k * c.utf8Size) (cs : List Char) :
    (cs.flatMap f).length ≤ k * (String.ofList cs).utf8ByteSize := by
  rw [utf8ByteSize_ofList]
  induction cs with
  | nil => simp
  | cons c cs ih =>
    have := h c
    rw [List.flatMap_cons, List.length_append, List.map_cons, List.sum_cons, Nat.mul_add]
    omega

theorem length_escaped_le (c : Char) : (escaped c).length ≤ 4 * c.utf8Size := by
  have hone := c.utf8Size_pos
  have hvalid : c.toNat < 0xD800 ∨ 0xDFFF < c.toNat ∧ c.toNat < 0x110000 := c.valid
  unfold escaped
  split_ifs with hquote hprint
  · simp
    omega
  · simp
    omega
  · dsimp only
    split
    · simp
      omega
    · split_ifs with hx hu
      · rw [List.length_cons, List.length_cons, length_hexDigits (by omega) (by omega)]
        omega
      · rw [List.length_cons, List.length_cons, length_hexDigits (by omega) (by omega)]
        have hsize : c.utf8Size ≠ 1 := fun h => by
          have hcode : c.toNat ≤ 127 := UInt32.le_iff_toNat_le.mp (Char.utf8Size_eq_one_iff.mp h)
          omega
        omega
      · rw [List.length_cons, List.length_cons, length_hexDigits (by omega) (by omega)]
        have hcode : (0xffff : UInt32).toNat < c.toNat := Nat.lt_of_not_le hu
        have hsize := Char.utf8Size_eq_four_iff.mpr (UInt32.lt_iff_toNat_lt.mpr hcode)
        omega

/-- A simple key is written on one line, and not too far from its colon. -/
theorem Written.simple {n : Nat} {key : String} {style : Style} {cs : List Char} (h : Written n key style cs)
    (hkey : isSimpleKey key = true) : (∀ c ∈ cs, isBreak c = false) ∧ cs.length ≤ 1024 ∧ style ≠ .literal := by
  rw [isSimpleKey, Bool.and_eq_true, decide_eq_true_eq, Bool.not_eq_true'] at hkey
  obtain ⟨hsize,hline⟩ := hkey
  cases h with
  | plain h =>
    have hlength := length_flatMap_le (f := fun c => [c]) (k := 1) (fun c => by have := c.utf8Size_pos; simp; omega) cs
    simp at hlength
    exact ⟨fun c hc => (h.inLine c hc).1,by omega,by simp⟩
  | @single cs h =>
    have hchars : ∀ c ∈ cs, isBreak c = false := by simpa using hline
    have hlength := length_flatMap_le (f := fun c => if c == '\'' then ['\'', '\''] else [c]) (k := 2) (fun c => by
      have := c.utf8Size_pos
      split <;> simp <;> omega) cs
    rw [singleQuoted_eq, Single.body_run hchars]
    refine ⟨?_,?_,by simp⟩
    · simpa [isBreak, or_imp, forall_and] using quotesDoubled_of (p := fun c => isBreak c = false) rfl hchars
    · simp only [List.length_cons, List.length_append, List.length_nil]
      rw [quotesDoubled]
      omega
  | double cs =>
    have hlength := length_flatMap_le length_escaped_le cs
    refine ⟨?_,?_,by simp⟩
    · rw [doubleQuoted, List.cons_append, List.forall_mem_cons, List.forall_mem_append]
      refine ⟨rfl,fun d hd => ?_,by decide⟩
      obtain ⟨c,_,hc⟩ := List.mem_flatMap.mp hd
      exact (escaped_mem hc).2
    · simp [doubleQuoted] at hlength ⊢
      omega
  | @literal cs hbreak =>
    have hline : ∀ c ∈ cs, isBreak c = false := by simpa using hline
    cases hline _ hbreak

/-! ### Words and numbers -/

theorem within_of_ne {cs : List Char} (h : ∀ c ∈ cs, c ≠ ':' ∧ c ≠ '#') (before : Char) : hasSigns.within before cs = false := by
  induction cs generalizing before with
  | nil => rfl
  | cons c cs ih =>
    obtain ⟨hc,hcs⟩ := List.forall_mem_cons.mp h
    simp [hasSigns.within, hc, ih hcs]

theorem isPrintable_of_isWord {c : Char} (h : isWord c = true) : isPrintable c = true := by
  simp only [isWord, Char.isAlphanum, Bool.or_eq_true, beq_iff_eq] at h
  have hcode : 0x20 ≤ c.toNat ∧ c.toNat ≤ 0x7E := by
    obtain ((h | h) | rfl) | rfl := h
    · change (decide (c.val ≥ 65 ∧ c.val ≤ 90) || decide (c.val ≥ 97) && decide (c.val ≤ 122)) = true at h
      simp only [Bool.or_eq_true, Bool.and_eq_true, decide_eq_true_eq, ge_iff_le, UInt32.le_iff_toNat_le] at h
      change 65 ≤ c.toNat ∧ c.toNat ≤ 90 ∨ 97 ≤ c.toNat ∧ c.toNat ≤ 122 at h
      omega
    · simp only [Char.isDigit, Bool.and_eq_true, decide_eq_true_eq, ge_iff_le, UInt32.le_iff_toNat_le] at h
      change 48 ≤ c.toNat ∧ c.toNat ≤ 57 at h
      omega
    · decide
    · decide
  simp [isPrintable, hcode]

/-- Words and numbers stand plain, also behind a sign or a point. -/
theorem plain_word {c : Char} {cs : List Char} (hchars : ∀ d ∈ c :: cs, isWord d = true ∨ d = '.')
    (hmark : c = '-' ∨ c = '.' → ∃ d rest, cs = d :: rest ∧ d ≠ c) : Plain (c :: cs) := by
  have hclass {p : Char → Bool} (hword : ∀ d, p d = true → isWord d = false ∧ d ≠ '.') : ∀ d ∈ c :: cs, p d = false := by
    intro d hd
    rw [← Bool.not_eq_true]
    intro hp
    obtain ⟨hword,hpoint⟩ := hword d hp
    refine (hchars d hd).elim (fun h => ?_) hpoint
    rw [hword] at h
    cases h
  have hother (d : Char) (hword : isWord d = false) (hpoint : d ≠ '.') : ∀ e ∈ c :: cs, e ≠ d := fun e he =>
    beq_eq_false_iff_ne.mp (hclass (p := (· == d)) (fun e he => (beq_iff_eq.mp he) ▸ ⟨hword,hpoint⟩) e he)
  have hsep : (c == '-' && isSeparated cs) = false := by
    cases hc : c == '-' with
    | false => rfl
    | true =>
      obtain ⟨d,rest,rfl,_⟩ := hmark (.inl (by simpa using hc))
      have hd := hclass (p := fun e => isGap e || isBreak e) (fun e he => by
        simp only [isGap, isBreak, Bool.or_eq_true, beq_iff_eq] at he
        obtain (rfl | rfl) | (((rfl | rfl) | rfl) | rfl) | rfl := he <;> decide) d (by simp)
      exact hd
  have hno (d : Char) (hd : d = '-' ∨ d = '.') : [d, d, d].isPrefixOf (c :: cs) = false := by
    rw [← Bool.not_eq_true]
    intro hpre
    obtain ⟨rest,hrest⟩ := List.isPrefixOf_iff_prefix.mp hpre
    obtain ⟨rfl,rfl⟩ := List.cons.inj hrest
    obtain ⟨e,more,he,hne⟩ := hmark hd
    exact hne (List.cons.inj he).1.symm
  refine ⟨by simp,fun d hd => ⟨?_,?_⟩,fun h => ?_,fun h => ?_,?_⟩
  · obtain hword | rfl := hchars d hd
    · exact isPrintable_of_isWord hword
    · rfl
  · refine hclass (fun e he => ?_) d hd
    simp only [isBreak, Bool.or_eq_true, beq_iff_eq] at he
    obtain (((rfl | rfl) | rfl) | rfl) | rfl := he <;> decide
  · exact hother ' ' (by decide) (by decide) _ (List.mem_of_head? h) rfl
  · exact hother ' ' (by decide) (by decide) _ (List.mem_of_getLast? h) rfl
  · have hlead : leadingSigns.contains c = false := by
      refine hclass (fun e he => ?_) c (by simp)
      have hall : ∀ e ∈ leadingSigns, isWord e = false ∧ e ≠ '.' := by decide
      exact hall e (by simpa using he)
    have hwithin := within_of_ne (fun d hd => ⟨hother ':' (by decide) (by decide) d (List.mem_cons_of_mem _ hd),
      hother '#' (by decide) (by decide) d (List.mem_cons_of_mem _ hd)⟩) c
    have hquestion : (c == '?') = false := beq_eq_false_iff_ne.mpr (hother '?' (by decide) (by decide) c (by simp))
    have hcolon : (c == ':') = false := beq_eq_false_iff_ne.mpr (hother ':' (by decide) (by decide) c (by simp))
    rw [hasSigns]
    simp only [hno '-' (.inl rfl), hno '.' (.inr rfl), hlead, hquestion, hcolon, hwithin, Bool.false_or, hsep, Bool.or_false]

theorem isWord_of_isDigit {c : Char} (h : c.isDigit = true) : isWord c = true := by
  simp [isWord, Char.isAlphanum, h]

theorem plain_toDigits (n : Nat) : Plain (Nat.toDigits 10 n) := by
  obtain ⟨c,rest,hcons,hc,hrest,_⟩ := Text.toDigits_eq_cons n
  rw [hcons]
  refine plain_word (fun d hd => .inl (isWord_of_isDigit ?_)) ?_
  · exact (List.mem_cons.mp hd).elim (· ▸ hc) (hrest d)
  · rintro (rfl | rfl) <;> cases hc

theorem plain_negative (n : Nat) : Plain ('-' :: Nat.toDigits 10 n) := by
  obtain ⟨c,rest,hcons,hc,hrest,_⟩ := Text.toDigits_eq_cons n
  rw [hcons]
  refine plain_word (fun d hd => .inl ?_) fun _ => ⟨c,rest,rfl,?_⟩
  · obtain rfl | hd := List.mem_cons.mp hd
    · rfl
    · exact isWord_of_isDigit ((List.mem_cons.mp hd).elim (· ▸ hc) (hrest d))
  · rintro rfl
    cases hc

end VirtualShell.Yaml
