import VirtualShell.Proofs.Yaml.Gaps

/-!
Plain scalars are read as they were written.
-/
namespace VirtualShell.Yaml

/-- What ends a stretch of a plain scalar. -/
def EndsRun (stop : List Char) : Prop := isSeparated stop = true ∨ ∃ rest, stop = ':' :: rest ∧ isSeparated rest = true

/-- A text that is a scalar as it stands. -/
structure Plain (cs : List Char) : Prop where
  ne : cs ≠ []
  chars : ∀ c ∈ cs, isPrintable c = true ∧ isBreak c = false
  first : cs.head? ≠ some ' '
  last : cs.getLast? ≠ some ' '
  signs : hasSigns cs = false

theorem within_append {before : Char} {cs rest : List Char} (h : hasSigns.within before (cs ++ rest) = false) :
    hasSigns.within (cs.getLastD before) rest = false := by
  induction cs generalizing before with
  | nil => exact h
  | cons c cs ih =>
    rw [List.cons_append, hasSigns.within, Bool.or_eq_false_iff] at h
    rw [List.getLastD_cons]
    exact ih h.2

/-- A colon does not end a stretch. -/
theorem getLast?_of_within {before : Char} {run rest : List Char} (h : hasSigns.within before (run ++ rest) = false)
    (hrest : isSeparated rest = true) : run.getLast? ≠ some ':' := by
  intro hlast
  obtain ⟨run,rfl⟩ := List.getLast?_eq_some_iff.mp hlast
  rw [List.append_assoc] at h
  have := within_append h
  simp [hasSigns.within, hrest] at this

theorem plainRun_append {run stop : List Char} (hrun : ∀ c ∈ run, isGap c = false ∧ isBreak c = false)
    (hlast : run.getLast? ≠ some ':') (hstop : EndsRun stop) : plainRun false (run ++ stop) = .ok run := by
  induction run with
  | nil =>
    obtain hstop | ⟨rest,rfl,hrest⟩ := hstop
    · cases stop with
      | nil => rfl
      | cons c stop =>
        rw [isSeparated] at hstop
        rw [List.nil_append, plainRun, if_pos hstop]
    · simp [plainRun, hrest, isGap, isBreak]
  | cons c run ih =>
    obtain ⟨hgap,hbreak⟩ := hrun c (by simp)
    have hcolon : (c == ':' && isSeparated (run ++ stop)) = false := by
      cases run with
      | nil => simp at hlast; simp [hlast]
      | cons d run =>
        obtain ⟨hgap,hbreak⟩ := hrun d (by simp)
        simp [isSeparated, hgap, hbreak]
    have hih : plainRun false (run ++ stop) = .ok run := by
      refine ih (fun d hd => hrun d (by simp [hd])) ?_
      cases run with
      | nil => simp
      | cons d run => simpa using hlast
    rw [List.cons_append, plainRun]
    simp [hgap, hbreak, hcolon, hih]
    rfl

/-- What follows a stretch of a plain scalar. -/
private def afterRun (column fuel : Nat) (parts : List (List Char)) (cursor : Cursor) :
    Except YamlError (List (List Char) × Bool × Cursor) :=
  if !(cursor.rest.head?.any fun c => isGap c || isBreak c) then .ok (parts,false,cursor)
  else do
    let (gap,cursor) ← Gap.scan column fuel Gap.none cursor
    if cursor.column < column then return (parts,gap.broken,cursor)
    plainParts false column fuel parts gap cursor

private theorem plainParts_run {run stop : List Char} (column fuel : Nat) (parts : List (List Char)) (gap : Gap) {offset line at_ : Nat}
    (hne : run ≠ []) (hrun : ∀ c ∈ run, isGap c = false ∧ isBreak c = false) (hlast : run.getLast? ≠ some ':')
    (hhash : run.head? ≠ some '#') (hstop : EndsRun stop)
    (hmark : Cursor.atDocumentMark ⟨run ++ stop,offset,line,at_⟩ = false) :
    plainParts false column (fuel + 1) parts gap ⟨run ++ stop,offset,line,at_⟩ =
      afterRun column fuel (run :: gap.text :: parts) ⟨stop,offset + run.length,line,at_ + run.length⟩ := by
  have hhead : ((run ++ stop).head? == some '#') = false := by
    cases run with
    | nil => exact absurd rfl hne
    | cons c run => simpa using hhash
  rw [plainParts, hmark, hhead, plainRun_append hrun hlast hstop, afterRun]
  simp [hne, Cursor.skip_append, bind, Except.bind, pure, Except.pure, Gap.none]

/-- No sign of a comment stands behind a blank. -/
private theorem head?_of_within {cs : List Char} (h : hasSigns.within ' ' cs = false) : cs.head? ≠ some '#' := by
  cases cs with
  | nil => simp
  | cons c cs =>
    simp only [hasSigns.within, isSeparated, isGap, Bool.or_eq_false_iff] at h
    simpa using h.1.2

/-- A text as it may stand behind a blank of a plain scalar. -/
private structure PlainFrom (cs : List Char) : Prop where
  ne : cs ≠ []
  inLine : ∀ c ∈ cs, isBreak c = false ∧ c ≠ '\t'
  first : ∀ c ∈ cs.head?, (c == ' ') = false
  last : ∀ c ∈ cs.getLast?, (c == ' ') = false
  signs : hasSigns.within ' ' cs = false

namespace PlainFrom
variable {run rest stop : List Char} {k : Nat}

private theorem run_ne (h : PlainFrom (run ++ (padding (k + 1) ++ rest))) : run ≠ [] := by
  rintro rfl
  simpa [padding_succ] using h.first ' '

private theorem later (h : PlainFrom (run ++ (padding (k + 1) ++ rest))) (hrest : ∀ c ∈ rest.head?, (c == ' ') = false) :
    PlainFrom rest where
  ne := by
    rintro rfl
    simpa [padding, List.getLast?_replicate] using h.last ' '
  inLine c hc := h.inLine c (by simp [hc])
  first := hrest
  last c hc := h.last c (by
    rw [List.getLast?_append, List.getLast?_append, hc]
    rfl)
  signs := by
    have := within_append h.signs
    rw [padding, List.replicate_succ'] at this
    simpa [List.getLastD_eq_getLast?] using within_append this

private theorem blank {cs : List Char} (h : PlainFrom cs) (hsub : ∀ c ∈ run, c ∈ cs) (hrun : ∀ c ∈ run, (c == ' ') = false) :
    ∀ c ∈ run, isGap c = false ∧ isBreak c = false := fun c hc => by
  obtain ⟨hbreak,htab⟩ := h.inLine c (hsub c hc)
  have hspace := hrun c hc
  simp [isGap, hspace, htab, hbreak]

private theorem parted (h : PlainFrom rest) (stop : List Char) : Parted (rest ++ stop) := by
  intro c hc
  cases rest with
  | nil => exact absurd rfl h.ne
  | cons d rest =>
    obtain rfl : d = c := by simpa using hc
    have := h.first d rfl
    obtain ⟨hbreak,htab⟩ := h.inLine d (by simp)
    simp [isGap, this, htab, hbreak]

end PlainFrom

/-- From the start of a stretch on, a plain scalar is read up to where its text ends. -/
private theorem plainParts_text {column line : Nat} {stop : List Char} (hstop : EndsRun stop) (cs : List Char) :
    PlainFrom cs → ∀ (fuel : Nat) (parts : List (List Char)) (gap : Gap) (offset at_ : Nat),
    cs.length + stop.length < fuel → column ≤ at_ + 1 → Cursor.atDocumentMark ⟨cs ++ stop,offset,line,at_⟩ = false →
    ∃ fuel' parts', stop.length ≤ fuel' ∧ parts'.reverse.flatten = parts.reverse.flatten ++ (gap.text ++ cs) ∧
      plainParts false column fuel parts gap ⟨cs ++ stop,offset,line,at_⟩ =
        afterRun column fuel' parts' ⟨stop,offset + cs.length,line,at_ + cs.length⟩ := by
  induction cs using stretches (· == ' ') with
  | last run hrun =>
    intro h fuel parts gap offset at_ hfuel _ hmark
    obtain ⟨fuel,rfl⟩ := Nat.exists_eq_add_of_le' (show 1 ≤ fuel by omega)
    have hlast : run.getLast? ≠ some ':' := getLast?_of_within (run.append_nil.symm ▸ h.signs) rfl
    exact ⟨fuel,_,by omega,by simp,
      plainParts_run column fuel parts gap h.ne (h.blank (fun _ hc => hc) hrun) hlast (head?_of_within h.signs) hstop hmark⟩
  | more run spaces rest hrun hspaces hpadding hrest ih =>
    intro h fuel parts gap offset at_ hfuel hcolumn hmark
    obtain ⟨k,rfl⟩ := exists_padding hspaces hpadding
    obtain ⟨fuel,rfl⟩ := Nat.exists_eq_add_of_le' (show 1 ≤ fuel by omega)
    have hlater := h.later hrest
    have hhash : run.head? ≠ some '#' := fun hhash => head?_of_within h.signs (by simp [hhash])
    have hstep := plainParts_run column fuel parts gap h.run_ne
      (h.blank (fun c hc => by simp [hc]) hrun) (getLast?_of_within h.signs rfl) hhash
      (.inl rfl : EndsRun (padding (k + 1) ++ (rest ++ stop))) (by simpa using hmark)
    simp only [List.length_append, length_padding] at hfuel
    have hpos := List.length_pos_iff.mpr h.run_ne
    have hscan := Gap.scan_blanks column (hlater.parted stop) (k + 1) (show k + 1 ≤ fuel by omega)
      (offset + run.length) line (at_ + run.length)
    obtain ⟨fuel',parts',hfuel',hflat,hparts⟩ := ih hlater fuel (run :: gap.text :: parts) ⟨padding (k + 1),false,[],[]⟩
      (offset + run.length + (k + 1)) (at_ + run.length + (k + 1)) (by omega) (by omega) (Cursor.atDocumentMark_of_pos (Nat.succ_pos _))
    refine ⟨fuel',parts',hfuel',by simp [hflat, Gap.text],?_⟩
    rw [List.append_assoc, List.append_assoc, hstep, afterRun, if_neg (by simp [padding_succ, isGap]), hscan]
    change (if _ then _ else plainParts _ _ _ _ _ _ : Except _ _) = _
    rw [if_neg (by simp; omega), hparts]
    simp only [List.length_append, length_padding, Nat.add_assoc]

private theorem afterRun_line {column fuel k offset line at_ : Nat} {parts : List (List Char)} {rest : List Char}
    (hrest : Parted rest) (hk : k < column ∨ column = 0 ∧ k = 0 ∧ rest = []) (hfuel : (padding k ++ rest).length < fuel) :
    afterRun column fuel parts ⟨'\n' :: (padding k ++ rest),offset,line,at_⟩ =
      .ok (parts,true,⟨rest,offset + 1 + k,line + 1,k⟩) := by
  have hfuel : 1 + 0 + k ≤ fuel := by
    simp [padding] at hfuel
    omega
  have hscan := Gap.scan_lines column (.inl rfl : Cursor.IsPlainBreak '\n') (List.forall_mem_nil _) hrest k hfuel offset line at_
  rw [List.nil_append] at hscan
  rw [afterRun, if_neg (by simp [isBreak]), hscan]
  change (if _ then _ else _ : Except _ _) = _
  obtain hk | ⟨rfl,rfl,rfl⟩ := hk
  · rw [if_pos (by simp [hk])]
    rfl
  · cases fuel <;> rfl

/-- What is known of a text without signs by its first character. -/
theorem hasSigns_cons {c : Char} {cs : List Char} (h : hasSigns (c :: cs) = false) : leadingSigns.contains c = false ∧
    ((c == '?' || c == ':' || c == '-') && isSeparated cs) = false ∧ hasSigns.within c cs = false ∧
    ['-', '-', '-'].isPrefixOf (c :: cs) = false ∧ ['.', '.', '.'].isPrefixOf (c :: cs) = false := by
  simp only [hasSigns, Bool.or_eq_false_iff] at h
  exact ⟨h.1.2.1,h.1.2.2,h.2,h.1.1⟩

namespace Plain
variable {cs : List Char}

theorem inLine (h : Plain cs) : ∀ c ∈ cs, isBreak c = false ∧ c ≠ '\t' := by
  refine fun c hc => ⟨(h.chars c hc).2,?_⟩
  rintro rfl
  have := (h.chars _ hc).1
  simp [isPrintable] at this

private theorem plainFrom (h : Plain cs) : PlainFrom cs where
  ne := h.ne
  inLine := h.inLine
  first c hc := beq_eq_false_iff_ne.mpr fun he => h.first (he ▸ hc)
  last c hc := beq_eq_false_iff_ne.mpr fun he => h.last (he ▸ hc)
  signs := by
    have hsigns := h.signs
    cases cs with
    | nil => rfl
    | cons c cs =>
      obtain ⟨hlead,hstart,hwithin,_⟩ := hasSigns_cons hsigns
      have hhash : (c == '#') = false := beq_eq_false_iff_ne.mpr fun he => by simp [he, leadingSigns] at hlead
      have hcolon : (c == ':' && isSeparated cs) = false := by
        cases hsep : isSeparated cs <;> simp_all
      rw [hasSigns.within, hcolon, hhash, hwithin]
      rfl

/-- A plain text does not start a line that parts documents. -/
theorem not_mark (h : Plain cs) {stop : List Char} (hstop : ∀ c ∈ stop.head?, c = ':' ∨ c = '\n') (offset line at_ : Nat) :
    Cursor.atDocumentMark ⟨cs ++ stop,offset,line,at_⟩ = false := by
  have hmark (d : Char) (hd : d ≠ ':' ∧ d ≠ '\n') (hother : [d, d, d].isPrefixOf cs = false) :
      Cursor.atMark ⟨cs ++ stop,offset,line,at_⟩ d = false := by
    rw [Cursor.atMark, Bool.and_eq_false_iff]
    right
    split
    · rename_i x y z rest heq
      rw [← Bool.not_eq_true]
      intro htrue
      simp only [Bool.and_eq_true, beq_iff_eq] at htrue
      obtain ⟨⟨⟨hx,hy⟩,hz⟩,_⟩ := htrue
      rw [hx, hy, hz] at heq
      have hno (rest : List Char) : stop ≠ d :: rest := by
        rintro rfl
        exact (hstop d rfl).elim hd.1 hd.2
      obtain ⟨a,cs,rfl⟩ := List.exists_cons_of_ne_nil h.ne
      rcases cs with _ | ⟨b,_ | ⟨c,cs⟩⟩
      · exact hno _ (List.cons.inj heq).2
      · exact hno _ (List.cons.inj (List.cons.inj heq).2).2
      · simp only [List.cons_append, List.cons.injEq] at heq
        obtain ⟨rfl,rfl,rfl,_⟩ := heq
        simp at hother
    · rfl
  obtain ⟨c,rest,rfl⟩ := List.exists_cons_of_ne_nil h.ne
  obtain ⟨_,_,_,hdash,hdot⟩ := hasSigns_cons h.signs
  rw [Cursor.atDocumentMark, hmark '-' (by simp) hdash, hmark '.' (by simp) hdot]
  rfl

theorem scalar_key (h : Plain cs) {column at_ : Nat} {rest : List Char} (hrest : isSeparated rest = true)
    (hcolumn : column ≤ at_ + 1) (offset line : Nat) :
    plainScalar false column ⟨cs ++ ':' :: rest,offset,line,at_⟩ = .ok (.scalar (.ofList cs) .plain,false,
      ⟨':' :: rest,offset + cs.length,line,at_ + cs.length⟩) := by
  obtain ⟨fuel,parts,_,hflat,hparts⟩ := plainParts_text (.inr ⟨rest,rfl,hrest⟩) cs h.plainFrom
    ((cs ++ ':' :: rest).length + 1) [] Gap.none offset at_ (by simp) hcolumn (h.not_mark (by simp) offset line at_)
  rw [plainScalar, hparts, afterRun, if_pos (by rfl)]
  change Except.ok (Token.scalar (.ofList parts.reverse.flatten) .plain,_) = _
  rw [hflat]
  rfl

theorem scalar_line (h : Plain cs) {column at_ k : Nat} {rest : List Char} (hrest : Parted rest)
    (hk : k < column ∨ column = 0 ∧ k = 0 ∧ rest = []) (hcolumn : column ≤ at_ + 1) (offset line : Nat) :
    plainScalar false column ⟨cs ++ '\n' :: (padding k ++ rest),offset,line,at_⟩ = .ok (.scalar (.ofList cs) .plain,true,
      ⟨rest,offset + cs.length + 1 + k,line + 1,k⟩) := by
  have hstop : EndsRun ('\n' :: (padding k ++ rest)) := .inl rfl
  obtain ⟨fuel,parts,hfuel,hflat,hparts⟩ := plainParts_text hstop cs h.plainFrom
    ((cs ++ '\n' :: (padding k ++ rest)).length + 1) [] Gap.none offset at_ (by simp) hcolumn (h.not_mark (by simp) offset line at_)
  rw [plainScalar, hparts, afterRun_line hrest hk (Nat.lt_of_succ_le hfuel)]
  change Except.ok (Token.scalar (.ofList parts.reverse.flatten) .plain,_) = _
  rw [hflat]
  rfl

end Plain

end VirtualShell.Yaml
