import Mathlib.Algebra.Ring.Nat
import VirtualShell.Proofs.Yaml.Gaps

/-!
Scalars between quotes are read as they were written.
-/
namespace VirtualShell.Yaml

/-- A stretch between quotes. -/
private def stretch (quote : Char) (fuel : Nat) (rest : List Char) : Except YamlError Run :=
  if quote == '\'' then pure (singleRun rest) else doubleRun fuel rest

section
variable {quote : Char} {fuel offset line at_ : Nat} {parts : List (List Char)} {written run rest : List Char}

private theorem quotedParts_run (hat : 0 < at_) (hne : written ++ rest ≠ [])
    (h : stretch quote fuel (written ++ rest) = .ok ⟨run,written.length,false⟩) :
    quotedParts quote (fuel + 1) parts ⟨written ++ rest,offset,line,at_⟩ =
      if rest.head? == some quote then
        .ok (run :: parts,Cursor.skip ⟨rest,offset + written.length,line,at_ + written.length⟩ 1)
      else Gap.scan 0 fuel Gap.none ⟨rest,offset + written.length,line,at_ + written.length⟩ >>= fun next =>
        quotedParts quote fuel (next.1.text :: run :: parts) next.2 := by
  have hempty : (written ++ rest).isEmpty = false := by simpa using hne
  rw [quotedParts, Cursor.atDocumentMark_of_pos hat]
  dsimp only
  rw [if_neg Bool.false_ne_true, hempty, if_neg Bool.false_ne_true]
  rw [stretch] at h
  split at h
  · rw [Except.ok.inj h]
    simp [*, bind, Except.bind, pure, Except.pure, Cursor.skip_append, Gap.none]
  · simp [*, bind, Except.bind, pure, Except.pure, Cursor.skip_append, Gap.none]

end

/-- The stretch that was written is read in front of `rest`. -/
private def Reads (quote : Char) (run written rest : List Char) : Prop :=
  ∀ fuel, written.length < fuel → stretch quote fuel (written ++ rest) = .ok ⟨run,written.length,false⟩

/-- How a text is written in front of its closing quote. Within a gap between lines the later one is indented. -/
private inductive Spelt (quote : Char) (tail : List Char) : List Char → List Char → Prop where
  | last {run written : List Char} (h : Reads quote run written (quote :: tail)) : Spelt quote tail run written
  | spaces {run written cs rest : List Char} (k : Nat) (h : ∀ stop, isSeparated stop = true → Reads quote run written stop)
      (hparted : Parted (rest ++ quote :: tail)) (hrest : Spelt quote tail cs rest) :
      Spelt quote tail (run ++ (padding (k + 1) ++ cs)) (written ++ (padding (k + 1) ++ rest))
  | lines {run written cs rest breaks : List Char} {c : Char} {n : Nat} (h : ∀ stop, isSeparated stop = true → Reads quote run written stop)
      (hc : c ≠ '\n') (hbreaks : ∀ d ∈ c :: breaks, Cursor.IsPlainBreak d) (hn : 0 < n)
      (hparted : Parted (rest ++ quote :: tail)) (hrest : Spelt quote tail cs rest) :
      Spelt quote tail (run ++ (c :: breaks ++ cs)) (written ++ (c :: breaks ++ (padding n ++ rest)))

private theorem quotedParts_of_spelt {quote : Char} (hquote : isGap quote = false ∧ isBreak quote = false)
    {tail cs written : List Char} (h : Spelt quote tail cs written) :
    ∀ (fuel offset line at_ : Nat) (parts : List (List Char)), written.length + 1 < fuel → 0 < at_ →
    ∃ parts' offset' line' at_', parts'.reverse.flatten = parts.reverse.flatten ++ cs ∧ line ≤ line' ∧
      ((∀ c ∈ written, isBreak c = false) → offset' = offset + written.length + 1 ∧ line' = line ∧ at_' = at_ + written.length + 1) ∧
      quotedParts quote fuel parts ⟨written ++ quote :: tail,offset,line,at_⟩ = .ok (parts',⟨tail,offset',line',at_'⟩) := by
  induction h with
  | @last run written h =>
    intro fuel offset line at_ parts hfuel hat
    obtain ⟨fuel,rfl⟩ := Nat.exists_eq_add_of_le' (show 1 ≤ fuel by omega)
    refine ⟨run :: parts,_,_,_,by simp,Nat.le_refl _,fun _ => ⟨rfl,rfl,rfl⟩,?_⟩
    rw [quotedParts_run hat (by simp) (h fuel (by omega)), if_pos (by simp)]
    rfl
  | @spaces run written cs rest k h hparted hrest ih =>
    intro fuel offset line at_ parts hfuel hat
    obtain ⟨fuel,rfl⟩ := Nat.exists_eq_add_of_le' (show 1 ≤ fuel by omega)
    simp only [List.length_append, length_padding] at hfuel ⊢
    obtain ⟨parts',offset',line',at',hflat,hline,hplace,hparts⟩ := ih fuel (offset + written.length + (k + 1)) line
      (at_ + written.length + (k + 1)) (padding (k + 1) :: run :: parts) (by omega) (by omega)
    refine ⟨parts',offset',line',at',by simp [hflat],hline,fun hbreak => ?_,?_⟩
    · obtain ⟨rfl,rfl,rfl⟩ := hplace fun c hc => hbreak c (by simp [hc])
      omega
    · have hhead : ¬ (padding (k + 1) ++ (rest ++ quote :: tail)).head? == some quote := by
        rintro hquote'
        simp [padding_succ] at hquote'
        simp [← hquote', isGap] at hquote
      rw [List.append_assoc, List.append_assoc, quotedParts_run hat (by simp [padding_succ]) (h _ rfl fuel (by omega)),
        if_neg hhead, Gap.scan_blanks 0 hparted _ (by omega)]
      exact hparts
  | @lines run written cs rest breaks c n h hc hbreaks hn hparted hrest ih =>
    intro fuel offset line at_ parts hfuel hat
    obtain ⟨fuel,rfl⟩ := Nat.exists_eq_add_of_le' (show 1 ≤ fuel by omega)
    simp only [List.length_append, List.length_cons, length_padding] at hfuel ⊢
    obtain ⟨parts',offset',line',at',hflat,hline,hplace,hparts⟩ := ih fuel (offset + written.length + 1 + breaks.length + n)
      (line + 1 + breaks.length) n ((c :: breaks) :: run :: parts) (by omega) hn
    obtain ⟨hcBreak,hmore⟩ := List.forall_mem_cons.mp hbreaks
    have hbreak := hcBreak.isBreak
    have hsep : isSeparated (c :: (breaks ++ (padding n ++ (rest ++ quote :: tail)))) = true := by simp [isSeparated, hbreak]
    refine ⟨parts',offset',line',at',by simp [hflat],by omega,fun hnone => ?_,?_⟩
    · rw [hnone c (by simp)] at hbreak
      cases hbreak
    · have hhead : ¬ (c :: (breaks ++ (padding n ++ (rest ++ quote :: tail)))).head? == some quote := by
        intro hquote'
        obtain rfl : c = quote := by simpa using hquote'
        simp [hbreak] at hquote
      have hscan := Gap.scan_lines 0 hcBreak hmore hparted n (show 1 + breaks.length + n ≤ fuel by omega)
        (offset + written.length) line (at_ + written.length)
      simp only [List.append_assoc, List.cons_append]
      rw [quotedParts_run hat (by simp) (h _ hsep fuel (by omega)), if_neg hhead, hscan]
      change quotedParts quote fuel (Gap.text ⟨[],true,[c],breaks⟩ :: run :: parts) _ = _
      rw [show Gap.text ⟨[],true,[c],breaks⟩ = c :: breaks by simp [Gap.text, hc]]
      exact hparts

/-! ### Single quotes -/

/-- A text that stands between single quotes. -/
structure Single (cs : List Char) : Prop where
  chars : ∀ c ∈ cs, isPrintable c = true ∧ c ≠ '\n'
  beforeBreak : hasPair isSpace isBreak cs = false
  afterBreak : hasPair isBreak isSpace cs = false

theorem hasPair_append {first second : Char → Bool} {xs ys : List Char} (h : hasPair first second (xs ++ ys) = false) :
    hasPair first second xs = false ∧ hasPair first second ys = false := by
  induction xs with
  | nil => exact ⟨rfl,h⟩
  | cons a xs ih =>
    cases xs with
    | nil =>
      cases ys with
      | nil => exact ⟨rfl,rfl⟩
      | cons b ys => simp_all [hasPair]
    | cons b xs =>
      simp only [List.cons_append, hasPair, Bool.or_eq_false_iff] at h ih ⊢
      exact ⟨⟨h.1,(ih h.2).1⟩,(ih h.2).2⟩

def quotesDoubled (cs : List Char) : List Char := cs.flatMap fun c => if c == '\'' then ['\'', '\''] else [c]

/-- What stands between single quotes. -/
def singleBody (n : Nat) (cs : List Char) : List Char :=
  indented n false (quotesDoubled cs) ++ if cs.getLast?.any isBreak then padding n else []

theorem singleQuoted_eq (n : Nat) (cs : List Char) : singleQuoted n cs = '\'' :: (singleBody n cs ++ ['\'']) := by
  simp [singleQuoted, singleBody, quotesDoubled]

theorem quotesDoubled_of {p : Char → Prop} {cs : List Char} (hquote : p '\'') (h : ∀ c ∈ cs, p c) :
    ∀ c ∈ quotesDoubled cs, p c := by
  intro c hc
  obtain ⟨d,hd,hc⟩ := List.mem_flatMap.mp hc
  split at hc
  · simp at hc
    exact hc ▸ hquote
  · simp at hc
    exact hc ▸ h d hd

private theorem singleRun_quotesDoubled {run rest : List Char} (hrun : ∀ c ∈ run, isGap c = false ∧ isBreak c = false)
    (hrest : singleRun rest = ⟨[],0,false⟩) :
    singleRun (quotesDoubled run ++ rest) = ⟨run,(quotesDoubled run).length,false⟩ := by
  induction run with
  | nil => exact hrest
  | cons c run ih =>
    have hih := ih fun d hd => hrun d (by simp [hd])
    obtain ⟨hgap,hbreak⟩ := hrun c (by simp)
    by_cases hc : c = '\''
    · subst hc
      have hcons : quotesDoubled ('\'' :: run) = '\'' :: '\'' :: quotesDoubled run := rfl
      rw [hcons, List.cons_append, List.cons_append, singleRun, hih]
      simp [Run.cons, Nat.add_comm 2]
    · have hcons : quotesDoubled (c :: run) = c :: quotesDoubled run := by simp [quotesDoubled, hc]
      rw [hcons, List.cons_append, singleRun, if_neg (by simp [hc, hgap, hbreak]), hih]
      · simp [Run.cons, Nat.add_comm]
      · exact fun _ h => absurd h hc

private theorem singleRun_of_isSeparated {rest : List Char} (h : isSeparated rest = true) : singleRun rest = ⟨[],0,false⟩ := by
  cases rest with
  | nil => rfl
  | cons c rest =>
    rw [isSeparated] at h
    rw [singleRun, if_pos (by simpa [or_assoc] using Or.inr (by simpa using h))]
    rintro _ rfl
    cases h

/-- Blanks and line breaks do not mix where no blank stands beside a line break. -/
private theorem uniform {gap : List Char} (h : ∀ c ∈ gap, isSpace c = true ∨ isBreak c = true)
    (hbefore : hasPair isSpace isBreak gap = false) (hafter : hasPair isBreak isSpace gap = false) :
    (∀ c ∈ gap, isSpace c = true) ∨ ∀ c ∈ gap, isBreak c = true := by
  induction gap with
  | nil => simp
  | cons c gap ih =>
    cases gap with
    | nil => simpa using h
    | cons d gap =>
      simp only [hasPair, Bool.or_eq_false_iff, Bool.and_eq_false_iff] at hbefore hafter
      refine (ih (fun e he => h e (List.mem_cons_of_mem _ he)) hbefore.2 hafter.2).imp (fun hall => ?_) fun hall => ?_
      · refine List.forall_mem_cons.mpr ⟨(h c (by simp)).resolve_right fun hc => ?_,hall⟩
        simp [hc, hall d (by simp)] at hafter
      · refine List.forall_mem_cons.mpr ⟨(h c (by simp)).resolve_left fun hc => ?_,hall⟩
        simp [hc, hall d (by simp)] at hbefore

private theorem quotesDoubled_append (xs ys : List Char) : quotesDoubled (xs ++ ys) = quotesDoubled xs ++ quotesDoubled ys :=
  List.flatMap_append

private theorem quotesDoubled_of_ne {cs : List Char} (h : ∀ c ∈ cs, c ≠ '\'') : quotesDoubled cs = cs := by
  induction cs with
  | nil => rfl
  | cons c cs ih =>
    have hcons : quotesDoubled (c :: cs) = c :: quotesDoubled cs := by simp [quotesDoubled, h c (by simp)]
    rw [hcons, ih fun d hd => h d (by simp [hd])]

namespace Single
variable {n : Nat} {run rest tail : List Char}

private theorem body_append (hrun : ∀ c ∈ run, isBreak c = false) (hrest : rest ≠ []) :
    singleBody n (run ++ rest) = quotesDoubled run ++ singleBody n rest := by
  rw [singleBody, quotesDoubled_append, indented_line (quotesDoubled_of rfl hrun), List.getLast?_append_of_ne_nil _ hrest,
    List.append_assoc, singleBody]

theorem body_run (hrun : ∀ c ∈ run, isBreak c = false) : singleBody n run = quotesDoubled run := by
  have hlast : run.getLast?.any isBreak = false := by
    cases hlast : run.getLast? with
    | none => rfl
    | some c => exact hrun c (List.mem_of_getLast? hlast)
  have hline := indented_line (n := n) (quotesDoubled_of rfl hrun) []
  rw [List.append_nil] at hline
  rw [singleBody, hline, hlast]
  simp [indented]

private theorem quotesDoubled_cons (c : Char) (cs : List Char) : ∃ more, quotesDoubled (c :: cs) = c :: more := by
  by_cases hc : c = '\'' <;> simp [quotesDoubled, hc]

private theorem body_breaks {breaks : List Char} (hne : breaks ≠ []) (hbreaks : ∀ c ∈ breaks, isBreak c = true)
    (hrest : ∀ c ∈ rest.head?, isBreak c = false) : singleBody n (breaks ++ rest) = breaks ++ (padding n ++ singleBody n rest) := by
  have hquotes : quotesDoubled breaks = breaks := quotesDoubled_of_ne fun c hc he => by
    have := hbreaks c hc
    rw [he] at this
    cases this
  rw [singleBody, quotesDoubled_append, hquotes, indented_breaks hbreaks hne, List.append_assoc]
  cases rest with
  | nil =>
    have hlast : breaks.getLast?.any isBreak = true := by
      rw [List.getLast?_eq_some_getLast hne]
      exact hbreaks _ (List.getLast_mem hne)
    simp [quotesDoubled, indented, singleBody, hlast]
  | cons c rest =>
    obtain ⟨more,hmore⟩ := quotesDoubled_cons c rest
    rw [List.getLast?_append_of_ne_nil _ (by simp), hmore, indented_fresh (hrest c rfl), ← hmore, List.append_assoc, singleBody]

private theorem body_spaces (k : Nat) : singleBody n (padding k ++ rest) = padding k ++ singleBody n rest := by
  have hspaces : ∀ c ∈ padding k, c = ' ' := fun c hc => List.eq_of_mem_replicate hc
  have hquotes : quotesDoubled (padding k) = padding k := quotesDoubled_of_ne fun c hc => by simp [hspaces c hc]
  have hbreak : ∀ c ∈ padding k, isBreak c = false := fun c hc => by
    rw [hspaces c hc]
    rfl
  by_cases hrest : rest = []
  · rw [hrest, List.append_nil, body_run hbreak, hquotes]
    simp [singleBody, quotesDoubled, indented]
  · rw [body_append hbreak hrest, hquotes]

private theorem body_parted (hrest : ∀ c ∈ rest.head?, (isGap c || isBreak c) = false) (tail : List Char) :
    Parted (singleBody n rest ++ '\'' :: tail) := by
  cases rest with
  | nil => simp [Parted, singleBody, quotesDoubled, indented, isGap, isBreak]
  | cons c rest =>
    obtain ⟨more,hmore⟩ := quotesDoubled_cons c rest
    have hc := Bool.or_eq_false_iff.mp (hrest c rfl)
    simp [Parted, singleBody, hmore, indented, hc]

private theorem later {cs : List Char} (h : Single (cs ++ rest)) : Single rest where
  chars c hc := h.chars c (List.mem_append_right _ hc)
  beforeBreak := (hasPair_append h.beforeBreak).2
  afterBreak := (hasPair_append h.afterBreak).2

/-- A gap is blanks within a line, or line breaks. -/
private theorem gap_cases {gap : List Char} (h : Single (run ++ (gap ++ rest))) (hne : gap ≠ [])
    (hgap : ∀ c ∈ gap, (isGap c || isBreak c) = true) : (∃ k, gap = padding (k + 1)) ∨
      ∃ c breaks, gap = c :: breaks ∧ c ≠ '\n' ∧ ∀ d ∈ gap, Cursor.IsPlainBreak d := by
  have hchars : ∀ c ∈ gap, isPrintable c = true ∧ c ≠ '\n' := fun c hc => h.chars c (by simp [hc])
  have hkind : ∀ c ∈ gap, isSpace c = true ∨ isBreak c = true := fun c hc => by
    refine (Bool.or_eq_true _ _ ▸ hgap c hc).imp_left fun hc' => ?_
    simpa [isSpace] using eq_space_of_isPrintable (hchars c hc).1 hc'
  have hpairs := (hasPair_append (hasPair_append h.beforeBreak).2).1
  refine (uniform hkind hpairs (hasPair_append (hasPair_append h.afterBreak).2).1).imp (fun hall => ?_) fun hall => ?_
  · exact exists_padding hne hall
  · obtain ⟨c,breaks,rfl⟩ := List.exists_cons_of_ne_nil hne
    exact ⟨c,breaks,rfl,(hchars c (by simp)).2,fun d hd => isPlainBreak_of_isPrintable (hchars d hd).1 (hall d hd)⟩

end Single

private theorem Single.spelt {n : Nat} {tail : List Char} (hn : 0 < n) (htail : tail.head? ≠ some '\'') (cs : List Char) :
    Single cs → Spelt '\'' tail cs (singleBody n cs) := by
  have hlast : singleRun ('\'' :: tail) = ⟨[],0,false⟩ := by
    cases tail with
    | nil => rfl
    | cons c tail =>
      rw [singleRun, if_pos (by simp)]
      intro _ _ hcons
      exact htail (by rw [(List.cons.inj hcons).1]; rfl)
  have hreads {run rest : List Char} (hrun : ∀ c ∈ run, (isGap c || isBreak c) = false) (hrest : singleRun rest = ⟨[],0,false⟩) :
      Reads '\'' run (quotesDoubled run) rest := fun fuel _ => by
    rw [stretch, if_pos (beq_self_eq_true _), singleRun_quotesDoubled (by simpa using hrun) hrest]
    rfl
  induction cs using stretches (fun c => isGap c || isBreak c) with
  | last run hrun =>
    intro _
    rw [body_run fun c hc => (Bool.or_eq_false_iff.mp (hrun c hc)).2]
    exact .last (hreads hrun hlast)
  | more run gap rest hrun hne hgap hrest ih =>
    intro h
    have hrunBreak : ∀ c ∈ run, isBreak c = false := fun c hc => (Bool.or_eq_false_iff.mp (hrun c hc)).2
    have hrestBreak : ∀ c ∈ rest.head?, isBreak c = false := fun c hc => (Bool.or_eq_false_iff.mp (hrest c hc)).2
    have hparted := body_parted (n := n) hrest tail
    have hrests := ih h.later.later
    rw [body_append hrunBreak (by simp [hne])]
    obtain ⟨k,rfl⟩ | ⟨c,breaks,rfl,hc,hbreaks⟩ := h.gap_cases hne hgap
    · rw [body_spaces]
      exact .spaces k (fun stop hstop => hreads hrun (singleRun_of_isSeparated hstop)) hparted hrests
    · rw [body_breaks (by simp) (fun d hd => (hbreaks d hd).isBreak) hrestBreak]
      exact .lines (fun stop hstop => hreads hrun (singleRun_of_isSeparated hstop)) hc hbreaks hn hparted hrests

/-! ### Escapes -/

/-- The digits stand for the number. -/
private def Spells (digits : List Char) (n : Nat) : Prop :=
  ∃ values : List Nat, digits.map (Text.digitValue? 16) = values.map some ∧ values.foldl (fun n v => 16 * n + v) 0 = n

private theorem Spells.concat {digits : List Char} {n v : Nat} {d : Char} (h : Spells digits n) (hd : Text.digitValue? 16 d = some v) :
    Spells (digits ++ [d]) (16 * n + v) := by
  obtain ⟨values,hvalues,hfold⟩ := h
  exact ⟨values ++ [v],by simp [hvalues, hd],by simp [hfold]⟩

private theorem spells_toDigits (zeros n : Nat) : Spells (List.replicate zeros '0' ++ (Nat.toDigits 16 n).map Char.toUpper) n := by
  have hdigit : ∀ v < 16, Text.digitValue? 16 v.digitChar.toUpper = some v := by decide
  have hzeros : Spells (List.replicate zeros '0') 0 := by
    induction zeros with
    | zero => exact ⟨[],rfl,rfl⟩
    | succ zeros ih =>
      rw [List.replicate_succ']
      exact ih.concat (by decide : Text.digitValue? 16 '0' = some 0)
  induction n using Nat.strongRecOn with
  | ind n ih =>
    by_cases hn : n < 16
    · rw [Nat.toDigits_of_lt_base hn]
      simpa using hzeros.concat (hdigit n hn)
    · have h := (ih (n / 16) (by omega)).concat (hdigit (n % 16) (by omega))
      rw [Nat.div_add_mod] at h
      rwa [Nat.toDigits_of_base_le (by omega) (by omega), List.map_append, List.map_singleton, ← List.append_assoc]

theorem length_hexDigits {width n : Nat} (hwidth : 0 < width) (hn : n < 16 ^ width) : (hexDigits width n).length = width := by
  have := (Nat.length_toDigits_le_iff (by omega) hwidth).mpr hn
  simp [hexDigits]
  omega

private theorem mapM_eq_ok {f : Char → Except YamlError Nat} (hf : ∀ d v, Text.digitValue? 16 d = some v → f d = .ok v)
    {digits : List Char} {values : List Nat} (h : digits.map (Text.digitValue? 16) = values.map some) :
    digits.mapM f = .ok values := by
  induction digits generalizing values with
  | nil =>
    obtain rfl : values = [] := by simpa using h.symm
    rfl
  | cons d digits ih =>
    cases values with
    | nil => cases h
    | cons v values =>
      obtain ⟨hd,hrest⟩ := List.cons.inj h
      rw [List.mapM_cons, hf d v hd, ih hrest]
      rfl

private theorem codePoint_hexDigits {width : Nat} {c : Char} (hwidth : 0 < width) (hc : c.toNat < 16 ^ width) :
    codePoint (hexDigits width c.toNat) width = .ok c := by
  obtain ⟨values,hvalues,hfold⟩ : Spells (hexDigits width c.toNat) c.toNat := spells_toDigits _ _
  have hlength : values.length = width := by
    rw [← length_hexDigits hwidth hc]
    simpa using (congrArg List.length hvalues).symm
  have hvalid : c.toNat < 0xD800 ∨ 0xDFFF < c.toNat ∧ c.toNat < 0x110000 := c.valid
  rw [codePoint, mapM_eq_ok (fun d v h => by rw [h]; rfl) hvalues]
  change (if values.length < width then _ else _ : Except YamlError Char) = _
  rw [if_neg (by omega)]
  dsimp only
  rw [hfold, if_neg ?_]
  · rw [Char.ofNat_toNat]
    rfl
  · simp only [Bool.or_eq_true, Bool.and_eq_true, decide_eq_true_eq]
    omega

/-! ### Double quotes -/

private theorem doubleRun_hexDigits {letter c : Char} {width : Nat} (hletter : isBreak letter = false)
    (hsimple : simpleEscape? letter = none) (hdigits : escapeDigits? letter = some width) (hwidth : 0 < width)
    (hc : c.toNat < 16 ^ width) (fuel : Nat) (rest : List Char) :
    doubleRun (fuel + 1) ('\\' :: letter :: (hexDigits width c.toNat ++ rest)) =
      (doubleRun fuel rest).map (·.cons c (2 + width)) := by
  have htake : (hexDigits width c.toNat ++ rest).take width = hexDigits width c.toNat :=
    List.take_left' (length_hexDigits hwidth hc)
  have hdrop : (hexDigits width c.toNat ++ rest).drop width = rest := List.drop_left' (length_hexDigits hwidth hc)
  rw [doubleRun, if_neg (by simp [hletter]), hsimple, hdigits]
  dsimp only
  rw [htake, hdrop, codePoint_hexDigits hwidth hc]
  cases doubleRun fuel rest <;> rfl

/-- A character that is no blank is read back from what is written for it. -/
private theorem doubleRun_escaped {c : Char} (hc : c ≠ ' ') (fuel : Nat) (rest : List Char) :
    doubleRun (fuel + 1) (escaped c ++ rest) = (doubleRun fuel rest).map (·.cons c (escaped c).length) := by
  unfold escaped
  split_ifs with hquote hprint
  · simp only [Bool.or_eq_true, beq_iff_eq] at hquote
    obtain rfl | rfl := hquote <;> rfl
  · simp only [Bool.or_eq_true, beq_iff_eq, not_or] at hquote
    simp only [Bool.and_eq_true, Bool.not_eq_true'] at hprint
    have hgap : isGap c = false := by
      rw [← Bool.not_eq_true]
      exact fun hgap => hc (eq_space_of_isPrintable hprint.1 hgap)
    rw [List.cons_append, doubleRun, if_neg (by simp [hquote, hgap, hprint])]
    · rfl
    · exact fun _ _ h => absurd h hquote.2
    · exact fun h => absurd h hquote.2
  · dsimp only
    split
    · rename_i entry code letter hfind
      have hcode : code = c.toNat := by simpa using List.find?_some hfind
      have hmem := List.mem_of_find?_eq_some hfind
      obtain rfl : Char.ofNat code = c := by rw [hcode, Char.ofNat_toNat]
      clear hfind hcode hquote hprint hc
      simp only [List.mem_cons, Prod.mk.injEq, List.not_mem_nil, or_false] at hmem
      obtain ⟨rfl,rfl⟩ | ⟨rfl,rfl⟩ | ⟨rfl,rfl⟩ | ⟨rfl,rfl⟩ | ⟨rfl,rfl⟩ | ⟨rfl,rfl⟩ | ⟨rfl,rfl⟩ | ⟨rfl,rfl⟩ | ⟨rfl,rfl⟩ | ⟨rfl,rfl⟩ |
        ⟨rfl,rfl⟩ | ⟨rfl,rfl⟩ := hmem <;> rfl
    · have hvalid : c.toNat < 0xD800 ∨ 0xDFFF < c.toNat ∧ c.toNat < 0x110000 := c.valid
      split_ifs with hx hu
      · rw [List.cons_append, List.cons_append, doubleRun_hexDigits rfl rfl rfl (by omega) (by omega), List.length_cons,
          List.length_cons, length_hexDigits (by omega) (by omega)]
      · rw [List.cons_append, List.cons_append, doubleRun_hexDigits rfl rfl rfl (by omega) (by omega), List.length_cons,
          List.length_cons, length_hexDigits (by omega) (by omega)]
      · rw [List.cons_append, List.cons_append, doubleRun_hexDigits rfl rfl rfl (by omega) (by omega), List.length_cons,
          List.length_cons, length_hexDigits (by omega) (by omega)]

private theorem hexDigits_mem {width n : Nat} {d : Char} (h : d ∈ hexDigits width n) : isPrintable d = true ∧ isBreak d = false := by
  have hdigit : ∀ v < 16, isPrintable v.digitChar.toUpper = true ∧ isBreak v.digitChar.toUpper = false := by decide
  have hdigits (n : Nat) : ∀ d ∈ (Nat.toDigits 16 n).map Char.toUpper, isPrintable d = true ∧ isBreak d = false := by
    induction n using Nat.strongRecOn with
    | ind n ih =>
      by_cases hn : n < 16
      · rw [Nat.toDigits_of_lt_base hn]
        simpa using hdigit n hn
      · rw [Nat.toDigits_of_base_le (by omega) (by omega), List.map_append, List.map_singleton, List.forall_mem_append]
        exact ⟨ih (n / 16) (by omega),by simpa using hdigit (n % 16) (by omega)⟩
  obtain h | h := List.mem_append.mp h
  · rw [List.eq_of_mem_replicate h]
    decide
  · exact hdigits n d h

/-- What is written between double quotes is on one line. -/
theorem escaped_mem {c d : Char} (h : d ∈ escaped c) : isPrintable d = true ∧ isBreak d = false := by
  unfold escaped at h
  split_ifs at h with hquote hprint
  · simp only [Bool.or_eq_true, beq_iff_eq] at hquote
    obtain rfl | rfl := hquote <;> simp at h <;> obtain rfl | rfl := h <;> decide
  · obtain rfl : d = c := by simpa using h
    simpa using hprint
  · dsimp only at h
    split at h
    · rename_i hfind
      have hmem := List.mem_of_find?_eq_some hfind
      have hletters : ∀ entry ∈ [(0, '0'), (7, 'a'), (8, 'b'), (9, 't'), (10, 'n'), (11, 'v'), (12, 'f'), (13, 'r'), (27, 'e'),
          (0x85, 'N'), (0x2028, 'L'), (0x2029, 'P')], isPrintable entry.2 = true ∧ isBreak entry.2 = false := by decide
      have hletter := hletters _ hmem
      simp only [List.mem_cons, List.not_mem_nil, or_false] at h
      obtain rfl | rfl := h
      · decide
      · exact hletter
    · split_ifs at h <;>
      · simp only [List.mem_cons] at h
        obtain rfl | rfl | h := h
        · decide
        · decide
        · exact hexDigits_mem h

/-- No blank stands for another character. -/
private theorem escaped_head {c : Char} (hc : c ≠ ' ') : ∃ d more, escaped c = d :: more ∧ isGap d = false ∧ isBreak d = false := by
  unfold escaped
  split_ifs with hquote hprint
  · exact ⟨_,_,rfl,rfl,rfl⟩
  · simp only [Bool.and_eq_true, Bool.not_eq_true'] at hprint
    refine ⟨_,_,rfl,?_,hprint.2⟩
    rw [← Bool.not_eq_true]
    exact fun hgap => hc (eq_space_of_isPrintable hprint.1 hgap)
  · dsimp only
    split
    · exact ⟨_,_,rfl,rfl,rfl⟩
    · split_ifs <;> exact ⟨_,_,rfl,rfl,rfl⟩

private theorem doubleRun_flatMap {run rest : List Char} (hrun : ∀ c ∈ run, (c == ' ') = false)
    (hrest : ∀ fuel, doubleRun fuel rest = .ok ⟨[],0,false⟩) {fuel : Nat} (hfuel : run.length ≤ fuel) :
    doubleRun fuel (run.flatMap escaped ++ rest) = .ok ⟨run,(run.flatMap escaped).length,false⟩ := by
  induction run generalizing fuel with
  | nil => exact hrest fuel
  | cons c run ih =>
    obtain ⟨fuel,rfl⟩ := Nat.exists_eq_add_of_le' (show 1 ≤ fuel by simp at hfuel; omega)
    have hc : c ≠ ' ' := by simpa using hrun c (by simp)
    rw [List.flatMap_cons, List.append_assoc, doubleRun_escaped hc, ih (fun d hd => hrun d (by simp [hd])) (by simpa using hfuel)]
    simp [Except.map, Run.cons]

private theorem length_le_flatMap (run : List Char) : run.length ≤ (run.flatMap escaped).length := by
  induction run with
  | nil => exact Nat.le_refl 0
  | cons c run ih =>
    have hpos : 0 < (escaped c).length := by
      by_cases hc : c = ' '
      · rw [hc]
        decide
      · obtain ⟨d,more,hd,_⟩ := escaped_head hc
        simp [hd]
    rw [List.flatMap_cons, List.length_append, List.length_cons]
    omega

private theorem flatMap_padding (k : Nat) : (padding k).flatMap escaped = padding k := by
  induction k with
  | zero => rfl
  | succ k ih =>
    rw [padding_succ, List.flatMap_cons, ih]
    rfl

private theorem double_spelt (cs tail : List Char) : Spelt '\"' tail cs (cs.flatMap escaped) := by
  have hreads {run rest : List Char} (hrun : ∀ c ∈ run, (c == ' ') = false) (hrest : ∀ fuel, doubleRun fuel rest = .ok ⟨[],0,false⟩) :
      Reads '\"' run (run.flatMap escaped) rest := fun fuel hfuel => by
    have := length_le_flatMap run
    rw [stretch, if_neg (by decide)]
    exact doubleRun_flatMap hrun hrest (by omega)
  have hstop {stop : List Char} (hstop : isSeparated stop = true) (fuel : Nat) : doubleRun fuel stop = .ok ⟨[],0,false⟩ := by
    cases fuel with
    | zero => rfl
    | succ fuel =>
      cases stop with
      | nil => rfl
      | cons c stop =>
        rw [isSeparated] at hstop
        have hc : c ≠ '\\' := by
          rintro rfl
          cases hstop
        rw [doubleRun, if_pos (by rw [Bool.or_assoc, hstop, Bool.or_true])]
        · exact fun _ _ h => absurd h hc
        · exact fun h => absurd h hc
  have hquote (fuel : Nat) : doubleRun fuel ('\"' :: tail) = .ok ⟨[],0,false⟩ := by
    cases fuel <;> rfl
  induction cs using stretches (· == ' ') with
  | last run hrun => exact .last (hreads hrun hquote)
  | more run spaces rest hrun hne hspaces hrest ih =>
    obtain ⟨k,rfl⟩ := exists_padding hne hspaces
    have hparted : Parted (rest.flatMap escaped ++ '\"' :: tail) := by
      cases rest with
      | nil => simp [Parted, isGap, isBreak]
      | cons c rest =>
        obtain ⟨d,more,hd,hgap,hbreak⟩ := escaped_head (by simpa using hrest c rfl)
        simp [Parted, hd, hgap, hbreak]
    rw [List.flatMap_append, List.flatMap_append, flatMap_padding]
    exact .spaces k (fun stop h => hreads hrun (hstop h)) hparted ih

/-- Where a scalar ends that starts at a cursor, and that it ends in its first line if nothing in it breaks that. -/
structure EndsAt (written : List Char) (start stop : Cursor) : Prop where
  line : start.line ≤ stop.line
  inLine : (∀ c ∈ written, isBreak c = false) → stop = { start.skip written.length with rest := stop.rest }

private theorem quotedScalar_of_spelt {quote : Char} (hquote : isGap quote = false ∧ isBreak quote = false)
    {tail cs written : List Char} (h : Spelt quote tail cs written) (offset line at_ : Nat) :
    ∃ stop, stop.rest = tail ∧ EndsAt (quote :: (written ++ [quote])) ⟨quote :: (written ++ quote :: tail),offset,line,at_⟩ stop ∧
      quotedScalar quote ⟨quote :: (written ++ quote :: tail),offset,line,at_⟩ =
        .ok (.scalar (.ofList cs) (if quote == '\'' then .single else .double),stop) := by
  obtain ⟨parts,offset',line',at',hflat,hline,hplace,hparts⟩ := quotedParts_of_spelt hquote h
    ((quote :: (written ++ quote :: tail)).length + 1) (offset + 1) line (at_ + 1) [] (by simp only [List.length_cons, List.length_append]; omega) (by omega)
  refine ⟨⟨tail,offset',line',at'⟩,rfl,⟨hline,fun hbreak => ?_⟩,?_⟩
  · obtain ⟨rfl,rfl,rfl⟩ := hplace fun c hc => hbreak c (by simp [hc])
    simp [Cursor.skip]
    omega
  · rw [quotedScalar, Cursor.skip_cons, hparts]
    change Except.ok (Token.scalar (.ofList parts.reverse.flatten) _,_) = _
    rw [hflat]
    rfl

theorem Single.scalar {cs : List Char} (h : Single cs) {n : Nat} (hn : 0 < n) {tail : List Char} (htail : tail.head? ≠ some '\'')
    (offset line at_ : Nat) : ∃ stop, stop.rest = tail ∧ EndsAt (singleQuoted n cs) ⟨singleQuoted n cs ++ tail,offset,line,at_⟩ stop ∧
      quotedScalar '\'' ⟨singleQuoted n cs ++ tail,offset,line,at_⟩ = .ok (.scalar (.ofList cs) .single,stop) := by
  obtain ⟨stop,hrest,hends,hscalar⟩ := quotedScalar_of_spelt (by decide) (h.spelt (n := n) hn htail) offset line at_
  rw [singleQuoted_eq]
  exact ⟨stop,hrest,by simpa using hends,by simpa using hscalar⟩

theorem double_scalar (cs tail : List Char) (offset line at_ : Nat) :
    ∃ stop, stop.rest = tail ∧ EndsAt (doubleQuoted cs) ⟨doubleQuoted cs ++ tail,offset,line,at_⟩ stop ∧
      quotedScalar '\"' ⟨doubleQuoted cs ++ tail,offset,line,at_⟩ = .ok (.scalar (.ofList cs) .double,stop) := by
  obtain ⟨stop,hrest,hends,hscalar⟩ := quotedScalar_of_spelt (by decide) (double_spelt cs tail) offset line at_
  rw [doubleQuoted]
  exact ⟨stop,hrest,by simpa using hends,by simpa using hscalar⟩

end VirtualShell.Yaml
