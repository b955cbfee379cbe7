import VirtualShell.Proofs.Yaml.Gaps

/-!
Literal blocks are read as they were written.
-/
namespace VirtualShell.Yaml

section
variable {n k m fuel deepest offset line : Nat} {rest : List Char}

private theorem blankLines_skipped {cursor next : Cursor} {before : List Char}
    (h : cursor.skip (min (cursor.rest.takeWhile (· == ' ')).length (n - cursor.column)) = next) :
    blankLines (some n) (fuel + 1) deepest before cursor = match next.rest with
      | c :: _ =>
        if c == '\t' && next.column < n then fail "found a tab character where an indentation space is expected"
        else if isBreak c then blankLines (some n) fuel (max deepest next.column) (before ++ next.takeBreak.1) next.takeBreak.2
        else .ok ((before,max deepest next.column),next)
      | [] => .ok ((before,max deepest next.column),next) := by
  subst h
  rfl

private theorem blankLines_first {cursor next : Cursor} {before : List Char}
    (h : cursor.skip (cursor.rest.takeWhile (· == ' ')).length = next) :
    blankLines none (fuel + 1) deepest before cursor = match next.rest with
      | c :: _ =>
        if c == '\t' then fail "found a tab character where an indentation space is expected"
        else if isBreak c then blankLines none fuel (max deepest next.column) (before ++ next.takeBreak.1) next.takeBreak.2
        else .ok ((before,max deepest next.column),next)
      | [] => .ok ((before,max deepest next.column),next) := by
  subst h
  rw [blankLines]
  simp
  rfl

/-- Blank lines are passed over, and then what the next line is indented by, up to the indentation of the block. -/
private theorem blankLines_told {breaks : List Char} (hbreaks : ∀ c ∈ breaks, Cursor.IsPlainBreak c)
    (hrest : k < n ∧ Parted rest ∨ k = n ∧ ∀ c ∈ rest.head?, isBreak c = false) (hfuel : breaks.length < fuel)
    (before : List Char) (deepest offset line : Nat) : ∃ deepest', blankLines (some n) fuel deepest before ⟨breaks ++ (padding k ++ rest),offset,line,0⟩ =
      .ok ((before ++ breaks,deepest'),⟨rest,offset + breaks.length + k,line + breaks.length,k⟩) := by
  induction breaks generalizing fuel deepest offset line before with
  | nil =>
    obtain ⟨fuel,rfl⟩ := Nat.exists_eq_add_of_le' (show 1 ≤ fuel by omega)
    have hspaces : min ((padding k ++ rest).takeWhile (· == ' ')).length n = k := by
      have htake : (padding k ++ rest).takeWhile (· == ' ') = padding k ++ rest.takeWhile (· == ' ') :=
        List.takeWhile_append_of_pos fun c hc => by simp [List.eq_of_mem_replicate hc]
      rw [htake, List.length_append, length_padding]
      obtain ⟨hk,hparted⟩ | ⟨rfl,_⟩ := hrest
      · have hnone : rest.takeWhile (· == ' ') = [] := by
          cases rest with
          | nil => rfl
          | cons c rest =>
            have := (hparted c rfl).1
            simp [isGap] at this
            simp [this]
        simp [hnone]
        omega
      · omega
    have hskip : Cursor.skip ⟨padding k ++ rest,offset,line,0⟩ (min ((padding k ++ rest).takeWhile (· == ' ')).length (n - 0)) =
        ⟨rest,offset + k,line,k⟩ := by
      rw [Nat.sub_zero, hspaces]
      simp [Cursor.skip, padding]
    refine ⟨max deepest k,?_⟩
    rw [List.nil_append, List.append_nil, blankLines_skipped hskip]
    cases rest with
    | nil => rfl
    | cons c rest =>
      have hbreak : isBreak c = false := hrest.elim (fun h => (h.2 c rfl).2) fun h => h.2 c rfl
      have htab : (c == '\t' && decide (k < n)) = false := by
        obtain ⟨_,hparted⟩ | ⟨rfl,_⟩ := hrest
        · have := (hparted c rfl).1
          simp [isGap] at this
          simp [this]
        · simp
      dsimp only
      rw [htab, hbreak]
      rfl
  | cons c breaks ih =>
    obtain ⟨fuel,rfl⟩ := Nat.exists_eq_add_of_le' (show 1 ≤ fuel by omega)
    have hc := hbreaks c (by simp)
    have hspace : (c == ' ') = false := beq_eq_false_iff_ne.mpr (by obtain rfl | rfl | rfl := hc <;> decide)
    have htab : (c == '\t' && decide (0 < n)) = false := by obtain rfl | rfl | rfl := hc <;> rfl
    have hskip : Cursor.skip ⟨c :: (breaks ++ (padding k ++ rest)),offset,line,0⟩
        (min ((c :: (breaks ++ (padding k ++ rest))).takeWhile (· == ' ')).length (n - 0)) =
        ⟨c :: (breaks ++ (padding k ++ rest)),offset,line,0⟩ := by
      simp [hspace, Cursor.skip]
    obtain ⟨deepest',hih⟩ := ih (fun d hd => hbreaks d (by simp [hd])) (Nat.lt_of_succ_lt_succ hfuel) (before ++ [c])
      (max deepest 0) (offset + 1) (line + 1)
    refine ⟨deepest',?_⟩
    rw [List.cons_append, blankLines_skipped hskip]
    dsimp only
    rw [htab, hc.isBreak, Cursor.takeBreak_cons hc, if_neg Bool.false_ne_true, if_pos rfl, hih]
    simp [Nat.add_assoc, Nat.add_comm 1]

/-- What follows the indentation of lines, and the column of it. -/
private def behindIndentation (n k : Nat) (cs rest : List Char) : List Char × Nat :=
  if cs = [] then (rest,k) else (indented n false cs ++ (padding k ++ rest),n)

private theorem length_behindIndentation (n k : Nat) {cs : List Char} (hcs : ∀ c ∈ cs.head?, isBreak c = false) (rest : List Char) :
    (behindIndentation n k cs rest).1.length ≤ (indented n true cs ++ (padding k ++ rest)).length := by
  cases cs with
  | nil =>
    simp [behindIndentation]
    omega
  | cons c cs =>
    rw [indented_fresh (hcs c rfl)]
    simp [behindIndentation]

private theorem blankLines_lead {breaks cs : List Char} (hbreaks : ∀ c ∈ breaks, Cursor.IsPlainBreak c) (hk : k < n)
    (hcs : ∀ c ∈ cs.head?, isBreak c = false) (hrest : Parted rest) (hfuel : breaks.length < fuel)
    (deepest offset line : Nat) : ∃ deepest' offset', blankLines (some n) fuel deepest [] ⟨breaks ++ (indented n true cs ++ (padding k ++ rest)),offset,line,0⟩ =
      .ok ((breaks,deepest'),⟨(behindIndentation n k cs rest).1,offset',line + breaks.length,(behindIndentation n k cs rest).2⟩) := by
  cases cs with
  | nil =>
    obtain ⟨deepest',h⟩ := blankLines_told hbreaks (.inl ⟨hk,hrest⟩) hfuel [] deepest offset line
    exact ⟨deepest',_,h⟩
  | cons c cs =>
    have hhead : ∀ d ∈ (indented n false (c :: cs) ++ (padding k ++ rest)).head?, isBreak d = false := by
      have hc := hcs c rfl
      simp [indented, hc]
    obtain ⟨deepest',h⟩ := blankLines_told (k := n) hbreaks (.inr ⟨rfl,hhead⟩) hfuel [] deepest offset line
    rw [indented_fresh (hcs c rfl), List.append_assoc]
    exact ⟨deepest',_,h⟩

private theorem blockLines_line {run more breaks : List Char} {b : Char} {cursor : Cursor} (hne : run ≠ [])
    (hrun : ∀ c ∈ run, isBreak c = false) (hb : Cursor.IsPlainBreak b)
    (h : blankLines (some n) fuel 0 [] ⟨more,offset + run.length + 1,line + 1,0⟩ = .ok ((breaks,deepest),cursor)) (text : BlockText) :
    blockLines false n (fuel + 1) text ⟨run ++ b :: more,offset,line,n⟩ = blockLines false n fuel
      ⟨run :: text.breaks :: text.lastBreak :: text.parts,[b],run.head?.any isGap,breaks⟩ cursor := by
  have hline : (run ++ b :: more).takeWhile (fun c => !isBreak c) = run := by
    rw [List.takeWhile_append_of_pos (by simpa using hrun)]
    simp [hb.isBreak]
  have hhead : (run ++ b :: more).head? = run.head? := by
    cases run with
    | nil => exact absurd rfl hne
    | cons c run => rfl
  have hopen : (n != n || (run ++ b :: more).isEmpty) = false := by simp
  rw [blockLines]
  dsimp only
  rw [hopen, hline, hhead, Cursor.skip_append, Cursor.takeBreak_cons hb, if_neg Bool.false_ne_true]
  dsimp only
  rw [h]
  rfl

/-- All that has been read of a block. -/
private def BlockText.content (text : BlockText) : List Char := text.parts.reverse.flatten ++ (text.lastBreak ++ text.breaks)

/-- The last line has been read, with the breaks behind it. -/
private structure BlockText.Closed (text : BlockText) : Prop where
  last : ∀ c ∈ text.parts.reverse.flatten.getLast?, isBreak c = false
  one : text.lastBreak.length = 1
  breaks : ∀ c ∈ text.lastBreak ++ text.breaks, isBreak c = true

private theorem blockLines_text (hk : k < n) (hrest : Parted rest) (cs : List Char) :
    (∀ c ∈ cs, isPrintable c = true) → (∀ c ∈ cs.head?, isBreak c = false) → (∀ c ∈ cs.getLast?, isBreak c = true) →
    ∀ (fuel offset line : Nat) (text : BlockText), (behindIndentation n k cs rest).1.length < fuel →
    ∃ text' offset' line', blockLines false n fuel text
        ⟨(behindIndentation n k cs rest).1,offset,line,(behindIndentation n k cs rest).2⟩ = .ok (text',⟨rest,offset',line',k⟩) ∧
      line ≤ line' ∧ text'.content = text.content ++ cs ∧ if cs = [] then text' = text else text'.Closed := by
  induction cs using stretches isBreak with
  | last run hrun =>
    intro _ _ hlast fuel offset line text hfuel
    obtain rfl : run = [] := by
      by_contra hne
      obtain ⟨c,hc⟩ := Option.isSome_iff_exists.mp (List.getLast?_isSome.mpr hne)
      have := hlast c hc
      rw [hrun c (List.mem_of_getLast? hc)] at this
      cases this
    obtain ⟨fuel,rfl⟩ := Nat.exists_eq_add_of_le' (show 1 ≤ fuel by omega)
    refine ⟨text,offset,line,?_,Nat.le_refl _,by simp,by simp⟩
    have hne : (k != n) = true := bne_iff_ne.mpr (by omega)
    rw [behindIndentation, if_pos rfl, blockLines, hne]
    rfl
  | more run breaks later hrun hne hbreaks hlater ih =>
    intro hchars hhead hlast fuel offset line text hfuel
    obtain ⟨fuel,rfl⟩ := Nat.exists_eq_add_of_le' (show 1 ≤ fuel by omega)
    obtain ⟨b,breaks,rfl⟩ := List.exists_cons_of_ne_nil hne
    have hplain : ∀ c ∈ b :: breaks, Cursor.IsPlainBreak c := fun c hc =>
      isPlainBreak_of_isPrintable (hchars c (by simp at hc ⊢; tauto)) (hbreaks c hc)
    obtain ⟨hb,hplain⟩ := List.forall_mem_cons.mp hplain
    obtain ⟨c,run,rfl⟩ : ∃ c run', run = c :: run' := by
      refine List.exists_cons_of_ne_nil ?_
      rintro rfl
      have := hhead b rfl
      rw [hbreaks b (by simp)] at this
      cases this
    have hbehind : behindIndentation n k (c :: run ++ (b :: breaks ++ later)) rest =
        (c :: run ++ b :: (breaks ++ (indented n true later ++ (padding k ++ rest))),n) := by
      rw [behindIndentation, if_neg (by simp), indented_line hrun, indented_breaks hbreaks (by simp)]
      simp
    rw [hbehind] at hfuel ⊢
    simp only [List.length_append, List.length_cons] at hfuel
    obtain ⟨deepest,offset',hblank⟩ := blankLines_lead hplain hk hlater hrest (show breaks.length < fuel by omega) 0
      (offset + (c :: run).length + 1) (line + 1)
    rw [blockLines_line (by simp) hrun hb hblank]
    have hlaterLast : ∀ d ∈ later.getLast?, isBreak d = true := fun d hd => hlast d (by
      rw [List.getLast?_append, List.getLast?_append, hd]
      rfl)
    obtain ⟨text',offset',line',hlines,hline,hcontent,hclosed⟩ := ih (fun d hd => hchars d (by simp [hd])) hlater hlaterLast fuel
      offset' (line + 1 + breaks.length) ⟨(c :: run) :: text.breaks :: text.lastBreak :: text.parts,[b],(c :: run).head?.any isGap,breaks⟩
      (by
        have := length_behindIndentation n k hlater rest
        simp only [List.length_append] at this
        omega)
    refine ⟨text',offset',line',hlines,by omega,by rw [hcontent]; simp [BlockText.content],?_⟩
    rw [if_neg (by simp)]
    split at hclosed
    · rw [hclosed]
      refine ⟨fun d hd => hrun d ?_,rfl,hbreaks⟩
      have hflat : ((c :: run) :: text.breaks :: text.lastBreak :: text.parts).reverse.flatten =
          (text.parts.reverse.flatten ++ text.lastBreak ++ text.breaks) ++ c :: run := by simp
      dsimp only at hd
      rw [hflat, List.getLast?_append_of_ne_nil _ (by simp)] at hd
      exact List.mem_of_getLast? hd
    · exact hclosed

end

/-- Text has one end of breaks. -/
private theorem append_breaks_inj {xs ys xs' ys' : List Char} (h : xs ++ ys = xs' ++ ys') (hxs : ∀ c ∈ xs.getLast?, isBreak c = false)
    (hys : ∀ c ∈ ys, isBreak c = true) (hxs' : ∀ c ∈ xs'.getLast?, isBreak c = false) (hys' : ∀ c ∈ ys', isBreak c = true) :
    xs = xs' ∧ ys = ys' := by
  have hdrop {xs ys : List Char} (hxs : ∀ c ∈ xs.getLast?, isBreak c = false) (hys : ∀ c ∈ ys, isBreak c = true) :
      (xs ++ ys).reverse.dropWhile isBreak = xs.reverse := by
    rw [List.reverse_append, List.dropWhile_append_of_pos (by simpa using hys)]
    rw [← List.head?_reverse] at hxs
    cases hrev : xs.reverse with
    | nil => rfl
    | cons c rest => 
      rw [hrev] at hxs
      simp [hxs c rfl]
  have hrev : xs.reverse = xs'.reverse := by rw [← hdrop hxs hys, h, hdrop hxs' hys']
  obtain rfl := List.reverse_inj.mp hrev
  exact ⟨rfl,List.append_cancel_left h⟩

theorem chompingSign_cases {cs : List Char} (hne : cs ≠ []) :
    chompingSign cs = ['-'] ∧ endLine cs = cs ++ ['\n'] ∧ (∀ c ∈ cs.getLast?, isBreak c = false) ∨
    chompingSign cs = ['+'] ∧ endLine cs = cs ∨
    chompingSign cs = [] ∧ endLine cs = cs ∧ ∃ core c, cs = core ++ [c] ∧ core ≠ [] ∧ (∀ d ∈ core.getLast?, isBreak d = false) ∧
      isBreak c = true := by
  obtain ⟨core,c,rfl⟩ : ∃ core c, cs = core ++ [c] := ⟨cs.dropLast,cs.getLast hne,(List.dropLast_concat_getLast hne).symm⟩
  cases hc : isBreak c with
  | false =>
    refine .inl ⟨?_,by simp [endLine, hc],by simpa using hc⟩
    rw [chompingSign, List.reverse_append, List.reverse_singleton, List.singleton_append]
    cases core.reverse <;> simp [hc]
  | true =>
    have hend : endLine (core ++ [c]) = core ++ [c] := by simp [endLine, hc]
    rw [chompingSign, List.reverse_append, List.reverse_singleton, List.singleton_append]
    cases hcore : core.reverse with
    | nil => exact .inr (.inl ⟨by simp [hc],hend⟩)
    | cons d rest =>
      have hlast : core.getLast? = some d := by rw [← List.head?_reverse, hcore, List.head?_cons]
      cases hd : isBreak d with
      | true => exact .inr (.inl ⟨by simp [hc, hd],hend⟩)
      | false =>
        refine .inr (.inr ⟨by simp [hc, hd],hend,core,c,rfl,?_,by simpa [hlast] using hd,hc⟩)
        rintro rfl
        cases hcore

private def chompingOf (sign : List Char) : Chomping :=
  match sign with
  | ['+'] => .keep
  | ['-'] => .strip
  | _ => .clip

/-- Of the breaks that have been read as many are kept as the text has. -/
private theorem chomped {cs : List Char} (hne : cs ≠ []) {text : BlockText} (hcontent : text.content = endLine cs)
    (hclosed : (∀ c ∈ endLine cs, isBreak c = true) ∨ text.Closed) :
    text.parts.reverse.flatten ++ (match chompingOf (chompingSign cs) with
      | .strip => []
      | .clip => text.lastBreak
      | .keep => text.lastBreak ++ text.breaks) = cs := by
  have hinj {core breaks : List Char} (hend : endLine cs = core ++ breaks) (hcore : ∀ c ∈ core.getLast?, isBreak c = false)
      (hne : core ≠ []) (hbreaks : ∀ c ∈ breaks, isBreak c = true) :
      text.parts.reverse.flatten = core ∧ text.lastBreak ++ text.breaks = breaks ∧ text.lastBreak.length = 1 := by
    have hc : text.Closed := hclosed.resolve_left fun hall => by
      obtain ⟨c,hlast⟩ := Option.isSome_iff_exists.mp (List.getLast?_isSome.mpr hne)
      have := hall c (by simp [hend, List.mem_of_getLast? hlast])
      rw [hcore c hlast] at this
      cases this
    rw [hend, BlockText.content] at hcontent
    obtain ⟨hparts,hbreaks⟩ := append_breaks_inj hcontent hc.last hc.breaks hcore hbreaks
    exact ⟨hparts,hbreaks,hc.one⟩
  obtain ⟨hsign,hend,hlast⟩ | ⟨hsign,hend⟩ | ⟨hsign,hend,core,c,rfl,hcore,hlast,hc⟩ := chompingSign_cases hne
  · rw [hsign, (hinj hend hlast hne (by decide)).1]
    simp [chompingOf]
  · rw [hsign, ← hend, ← hcontent]
    rfl
  · obtain ⟨hparts,hbreaks,hone⟩ := hinj hend hlast hcore (by simpa using hc)
    obtain ⟨b,hb⟩ := List.length_eq_one_iff.mp hone
    rw [hb] at hbreaks
    obtain rfl : b = c := (List.cons.inj hbreaks).1
    rw [hsign, hparts, hb]
    rfl

private theorem blockHeader_eq (hinted : Bool) {sign : List Char} (hsign : sign = ['-'] ∨ sign = ['+'] ∨ sign = [])
    (body : List Char) (offset line at_ : Nat) : ∃ offset',
    blockHeader ⟨(if hinted then ['2'] else []) ++ (sign ++ '\n' :: body),offset,line,at_⟩ =
      .ok ((chompingOf sign,if hinted then some 2 else none),⟨body,offset',line + 1,0⟩) := by
  cases hinted <;> obtain rfl | rfl | rfl := hsign <;> exact ⟨_,rfl⟩

private theorem getLast?_endLine (cs : List Char) : ∀ c ∈ (endLine cs).getLast?, isBreak c = true := by
  intro c hc
  rw [endLine] at hc
  split at hc
  · rename_i h
    rw [Option.mem_def.mp hc] at h
    exact h
  · obtain rfl : '\n' = c := by simpa using hc
    rfl

theorem isPrintable_endLine {cs : List Char} (h : ∀ c ∈ cs, isPrintable c = true) : ∀ c ∈ endLine cs, isPrintable c = true := by
  rw [endLine]
  split
  · exact h
  · exact List.forall_mem_append.mpr ⟨h,by decide⟩

/-- The indentation of a block is told, or it is that of the first line, which then starts with no blank. -/
private theorem blankLines_block {n k fuel : Nat} {told : Option Nat} {cs rest : List Char}
    (hchars : ∀ c ∈ cs, isPrintable c = true) (hk : k < n) (hrest : Parted rest)
    (htold : told = some n ∨ told = none ∧ cs ≠ [] ∧ ∀ c ∈ cs.head?, isSpace c = false ∧ isBreak c = false)
    (hfuel : cs.length < fuel) (offset line : Nat) : ∃ deepest offset', (told = none → deepest = n) ∧
      blankLines told fuel 0 [] ⟨indented n true cs ++ (padding k ++ rest),offset,line,0⟩ = .ok ((cs.takeWhile isBreak,deepest),
        ⟨(behindIndentation n k (cs.dropWhile isBreak) rest).1,offset',line + (cs.takeWhile isBreak).length,
          (behindIndentation n k (cs.dropWhile isBreak) rest).2⟩) := by
  obtain rfl | ⟨rfl,hne,hhead⟩ := htold
  · have hlead : ∀ c ∈ cs.takeWhile isBreak, Cursor.IsPlainBreak c := fun c hc =>
      isPlainBreak_of_isPrintable (hchars c ((List.takeWhile_prefix _).subset hc)) (List.mem_takeWhile_imp hc)
    have hlater : ∀ c ∈ (cs.dropWhile isBreak).head?, isBreak c = false := fun c hc => by
      have := List.head?_dropWhile_not isBreak cs
      simpa [Option.mem_def.mp hc] using this
    have hlength := (List.takeWhile_prefix isBreak (l := cs)).length_le
    obtain ⟨deepest,offset',h⟩ := blankLines_lead hlead hk hlater hrest (Nat.lt_of_le_of_lt hlength hfuel) 0 offset line
    have hindented : indented n true cs = cs.takeWhile isBreak ++ indented n true (cs.dropWhile isBreak) := by
      conv_lhs => rw [← List.takeWhile_append_dropWhile (p := isBreak) (l := cs)]
      by_cases hnil : cs.takeWhile isBreak = []
      · rw [hnil, List.nil_append, List.nil_append]
      · exact indented_breaks (fun c hc => List.mem_takeWhile_imp hc) hnil true _
    refine ⟨deepest,offset',by simp,?_⟩
    rw [hindented, List.append_assoc, h]
  · obtain ⟨c,cs,rfl⟩ := List.exists_cons_of_ne_nil hne
    obtain ⟨fuel,rfl⟩ := Nat.exists_eq_add_of_le' (show 1 ≤ fuel by omega)
    obtain ⟨hspace,hbreak⟩ := hhead c rfl
    have htab : c ≠ '\t' := by
      rintro rfl
      have := hchars '\t' (by simp)
      simp [isPrintable] at this
    have htake : (padding n ++ (c :: (indented n false cs ++ (padding k ++ rest)))).takeWhile (· == ' ') = padding n := by
      rw [List.takeWhile_append_of_pos fun c hc => by simp [List.eq_of_mem_replicate hc]]
      simpa [isSpace] using hspace
    have hindented : indented n true (c :: cs) = padding n ++ c :: indented n false cs := by simp [indented, hbreak]
    have hbehind : behindIndentation n k (c :: cs) rest = (c :: (indented n false cs ++ (padding k ++ rest)),n) := by
      simp [behindIndentation, indented, hbreak]
    have hdrop : (c :: cs).dropWhile isBreak = c :: cs := by simp [hbreak]
    have hnone : (c :: cs).takeWhile isBreak = [] := by simp [hbreak]
    refine ⟨n,offset + n,fun _ => rfl,?_⟩
    have hskip : Cursor.skip ⟨padding n ++ c :: (indented n false cs ++ (padding k ++ rest)),offset,line,0⟩
        ((padding n ++ c :: (indented n false cs ++ (padding k ++ rest))).takeWhile (· == ' ')).length =
        ⟨c :: (indented n false cs ++ (padding k ++ rest)),offset + n,line,n⟩ := by
      rw [htake]
      simp [Cursor.skip, padding]
    rw [hdrop, hnone, hbehind, hindented, List.append_assoc, List.cons_append, blankLines_first hskip]
    simp [htab, hbreak]

private theorem getLast?_indented {n : Nat} {cs : List Char} (fresh : Bool) : (indented n fresh cs).getLast? = cs.getLast? := by
  induction cs generalizing fresh with
  | nil => rfl
  | cons c cs ih =>
    rw [indented]
    split
    · rw [List.getLast?_cons, List.getLast?_cons, ih]
    · rw [List.getLast?_append, List.getLast?_cons, List.getLast?_cons, ih, Option.some_or]

private theorem length_le_indented (n : Nat) (fresh : Bool) (cs : List Char) : cs.length ≤ (indented n fresh cs).length := by
  induction cs generalizing fresh with
  | nil => exact Nat.zero_le _
  | cons c cs ih =>
    rw [indented]
    have hbreak := ih true
    have hline := ih false
    split <;> simp <;> omega

private theorem indented_concat {n : Nat} {b : Char} (hb : isBreak b = true) (cs : List Char) (fresh : Bool) :
    indented n fresh (cs ++ [b]) = indented n fresh cs ++ [b] := by
  induction cs generalizing fresh with
  | nil => simp [indented, hb]
  | cons c cs ih =>
    rw [List.cons_append, indented, indented]
    split
    · rw [ih, List.cons_append]
    · rw [ih, List.append_assoc, List.cons_append]

private theorem literalBlock_eq {n : Nat} {cs : List Char} (hne : cs ≠ []) : endLine (literalBlock n cs) =
    '|' :: ((if cs.head?.any (fun c => isSpace c || isBreak c) then ['2'] else []) ++
      (chompingSign cs ++ '\n' :: indented n true (endLine cs))) := by
  have hlast : (literalBlock n cs).getLast? = cs.getLast? := by
    obtain ⟨c,hc⟩ := Option.isSome_iff_exists.mp (List.getLast?_isSome.mpr hne)
    rw [literalBlock, List.getLast?_append, List.getLast?_cons, getLast?_indented, hc]
    rfl
  rw [endLine, hlast, endLine]
  split
  · simp [literalBlock]
  · rw [indented_concat rfl]
    simp [literalBlock]

/-- A literal block is read back as its text, whatever stands to the left of its lines behind it. -/
theorem literal_scalar {cs : List Char} (hne : cs ≠ []) (hchars : ∀ c ∈ cs, isPrintable c = true) {outer : Option Nat} {n k : Nat}
    {rest : List Char} (hn : n = outer.getD 0 + 2) (hk : k < n) (hrest : Parted rest) (offset line at_ : Nat) :
    ∃ offset' line', line < line' ∧ blockScalar false outer ⟨endLine (literalBlock n cs) ++ (padding k ++ rest),offset,line,at_⟩ =
      .ok (.scalar (.ofList cs) .literal,⟨rest,offset',line',k⟩) := by
  have hsign : chompingSign cs = ['-'] ∨ chompingSign cs = ['+'] ∨ chompingSign cs = [] :=
    (chompingSign_cases hne).imp And.left (Or.imp And.left And.left)
  generalize hhinted : cs.head?.any (fun c => isSpace c || isBreak c) = hinted
  obtain ⟨header,hheader⟩ := blockHeader_eq hinted hsign (indented n true (endLine cs) ++ (padding k ++ rest)) (offset + 1) line
    (at_ + 1)
  have hprintable := isPrintable_endLine hchars
  have hendNe : endLine cs ≠ [] := by
    rw [endLine]
    split <;> simp [hne]
  have hlater : ∀ c ∈ ((endLine cs).dropWhile isBreak).head?, isBreak c = false := fun c hc => by
    have := List.head?_dropWhile_not isBreak (endLine cs)
    simpa [Option.mem_def.mp hc] using this
  have hlast : ∀ c ∈ ((endLine cs).dropWhile isBreak).getLast?, isBreak c = true := fun c hc => by
    refine getLast?_endLine cs c ?_
    rw [← List.takeWhile_append_dropWhile (p := isBreak) (l := endLine cs), List.getLast?_append, hc]
    rfl
  have hhead : hinted = false → ∀ c ∈ (endLine cs).head?, isSpace c = false ∧ isBreak c = false := by
    rintro rfl
    obtain ⟨c,cs,rfl⟩ := List.exists_cons_of_ne_nil hne
    rw [endLine]
    split <;> simpa using hhinted
  have hlength := length_le_indented n true (endLine cs)
  have htold : (if hinted then some n else none) = some n ∨ (if hinted then some n else none) = none ∧ endLine cs ≠ [] ∧
      ∀ c ∈ (endLine cs).head?, isSpace c = false ∧ isBreak c = false := by
    cases hinted with
    | true => exact .inl rfl
    | false => exact .inr ⟨rfl,hendNe,hhead rfl⟩
  have hfuel : (endLine cs).length < (indented n true (endLine cs) ++ (padding k ++ rest)).length + 1 := by
    simp
    omega
  obtain ⟨deepest,start,hdeepest,hblank⟩ := blankLines_block hprintable hk hrest htold hfuel header (line + 1)
  obtain ⟨text,offset',line',hlines,hline,hcontent,hclosed⟩ := blockLines_text hk hrest ((endLine cs).dropWhile isBreak)
    (fun c hc => hprintable c ((List.dropWhile_suffix _).subset hc)) hlater hlast
    ((behindIndentation n k ((endLine cs).dropWhile isBreak) rest).1.length + 1) start
    (line + 1 + ((endLine cs).takeWhile isBreak).length) ⟨[],[],false,(endLine cs).takeWhile isBreak⟩ (by omega)
  have htext : text.content = endLine cs := by
    rw [hcontent]
    simp [BlockText.content]
  have hclosed : (∀ c ∈ endLine cs, isBreak c = true) ∨ text.Closed := by
    split at hclosed
    · rename_i hnil
      exact .inl (by simpa using List.dropWhile_eq_nil_iff.mp hnil)
    · exact .inr hclosed
  have htimes : (if hinted then some 2 else none).map (outer.getD 0 + ·) = if hinted then some n else none := by
    cases hinted <;> simp [hn]
  have hindent : (if hinted then some n else none).getD (max deepest (max ((outer.map (· + 1)).getD 0) 1)) = n := by
    cases hinted with
    | true => rfl
    | false =>
      rw [hdeepest rfl]
      cases outer <;> simp at hn ⊢ <;> omega
  refine ⟨offset',line',by omega,?_⟩
  rw [literalBlock_eq hne, hhinted, List.cons_append, List.append_assoc, List.append_assoc, List.cons_append, blockScalar,
    Cursor.skip_cons, hheader]
  change (blankLines (Option.map _ _) _ 0 [] _ >>= _) = _
  rw [htimes, hblank]
  change (blockLines false (Option.getD _ _) _ _ _ >>= _) = _
  rw [hindent, hlines]
  exact congrArg (fun content => Except.ok (Token.scalar (.ofList content) .literal,_)) (chomped hne htext hclosed)

end VirtualShell.Yaml
