import Mathlib.Data.List.DropRight
import VirtualShell.Agent.Definition
import VirtualShell.Proofs.Text.Words

/-!
Reading a definition with or without its mark. The lenient reader takes a text as the strict one takes it behind a mark,
but it drops the blanks at the ends first, and with them indentation and line breaks that count.
-/
namespace VirtualShell

namespace Text
variable {s : List Char}

/-- Text without its trailing blanks. -/
def trimmedEnd (text : String) : String := .ofList (trimEnd text.toList)

theorem trimStart_of_head {c : Char} (hc : isBlank c = false) (rest : List Char) : trimStart (c :: rest) = c :: rest := by
  simp [trimStart, hc]

theorem trimStart_of_blank {c : Char} (hc : isBlank c = true) (rest : List Char) : trimStart (c :: rest) = trimStart rest := by
  simp [trimStart, hc]

theorem trimEnd_of_head {c : Char} (hc : isBlank c = false) (rest : List Char) : trimEnd (c :: rest) = c :: trimEnd rest := by
  rw [trimEnd, List.reverse_cons, List.dropWhile_append]
  split
  · rename_i hrest
    rw [trimEnd, List.isEmpty_iff.mp hrest]
    simp [hc]
  · simp [trimEnd]

theorem trimEnd_of_blank {c : Char} (hc : isBlank c = true) (rest : List Char) :
    trimEnd (c :: rest) = if (trimEnd rest).isEmpty then [] else c :: trimEnd rest := by
  rw [trimEnd, List.reverse_cons, List.dropWhile_append, trimEnd, List.isEmpty_reverse]
  split
  · simp [hc]
  · simp

/-- It does not matter from which end blanks are dropped first. -/
theorem trimStart_trimEnd (s : List Char) : trimStart (trimEnd s) = trim s := by
  induction s with
  | nil => rfl
  | cons c s ih =>
    cases hc : isBlank c with
    | false => rw [trim, trimStart_of_head hc, trimEnd_of_head hc, trimStart_of_head hc]
    | true =>
      have hskip : trim (c :: s) = trim s := by rw [trim, trimStart_of_blank hc, trim]
      rw [hskip, ← ih, trimEnd_of_blank hc]
      split
      · rename_i hnil
        rw [List.isEmpty_iff.mp hnil]
      · rw [trimStart_of_blank hc]

theorem trimStart_trim (s : List Char) : trimStart (trim s) = trim s := by
  rw [← trimStart_trimEnd]
  exact List.dropWhile_idempotent _ _

/-- What is left does not begin with a blank. -/
theorem isBlank_of_trimStart {c : Char} {rest : List Char} (h : trimStart s = c :: rest) : isBlank c = false := by
  have hhead := List.head?_dropWhile_not isBlank s
  rw [show s.dropWhile isBlank = c :: rest from h] at hhead
  simpa using hhead

theorem trimmedEnd_of_trimmed {text : String} (h : trimmed text = text) : trimmedEnd text = text := by
  have htrim : trim text.toList = text.toList := by
    rw [trimmed, ← String.toList_inj, String.toList_ofList] at h
    exact h
  have hstart : trimStart text.toList = text.toList := by rw [← htrim, trimStart_trim]
  rw [trim, hstart] at htrim
  rw [trimmedEnd, htrim, String.ofList_toList]

theorem head?_words (s : List Char) :
    (words s).head? = if trimStart s = [] then none else some (cut isBlank (trimStart s)).1 := by
  rw [← words_trimStart]
  cases h : trimStart s with
  | nil => rw [words, if_pos rfl, List.head?_nil]
  | cons c rest =>
    simp [words, cut, isBlank_of_trimStart h]

/-- A word is cut off at the first blank. -/
theorem cut_isBlank_eq_iff {word : List Char} (hword : ∀ c ∈ word, isBlank c = false) (s : List Char) :
    (cut isBlank s).1 = word ↔ ∃ rest, s = word ++ rest ∧ ∀ c ∈ rest.head?, isBlank c = true := by
  induction word generalizing s with
  | nil =>
    cases s with
    | nil => simp [cut]
    | cons c s => by_cases hc : isBlank c <;> simp [cut, hc]
  | cons d word ih =>
    have hd := hword d (by simp)
    cases s with
    | nil => simp [cut]
    | cons c s =>
      cases hc : isBlank c with
      | true =>
        have hne : c ≠ d := by
          rintro rfl
          simp [hd] at hc
        simp [cut, hc, hne]
      | false =>
        simp only [cut, hc, Bool.false_eq_true, if_false, List.cons.injEq, ih fun c hc => hword c (by simp [hc]),
          List.cons_append, and_assoc, exists_and_left]

/-- Text is cut only where a character of the class stands. -/
theorem of_head?_cut (p : Char → Bool) (s : List Char) : ∀ c ∈ (cut p s).2.head?, p c = true := by
  induction s with
  | nil => simp [cut]
  | cons c s ih =>
    by_cases hc : p c
    · simp [cut, hc]
    · simpa [cut, hc] using ih

end Text

namespace Agent.Definition
open Text

/-- The first line that is not blank has the mark as its first word. -/
def IsMarked (text : String) : Prop := (wordsOf text).head? = some mark

instance (text : String) : Decidable (IsMarked text) := inferInstanceAs (Decidable (_ = _))

private theorem mark_word : ∀ c ∈ mark.toList, isBlank c = false := by simp [mark, isBlank]

private theorem mark_line : ∀ c ∈ mark.toList, (c == '\n') = false := by simp [mark]

private theorem cut_mark (rest : List Char) :
    cut (· == '\n') (mark.toList ++ rest) = (mark.toList ++ (cut (· == '\n') rest).1,(cut (· == '\n') rest).2) := by
  have happend (line : List Char) (h : ∀ c ∈ line, (c == '\n') = false) :
      cut (· == '\n') (line ++ rest) = (line ++ (cut (· == '\n') rest).1,(cut (· == '\n') rest).2) := by
    induction line with
    | nil => rfl
    | cons c line ih => simp [cut, h c (by simp), ih fun d hd => h d (by simp [hd])]
  exact happend _ mark_line

/-- What is behind the mark is a blank, if anything. -/
theorem isMarked_iff (text : String) :
    IsMarked text ↔ ∃ rest, trimStart text.toList = mark.toList ++ rest ∧ ∀ c ∈ rest.head?, isBlank c = true := by
  rw [← cut_isBlank_eq_iff mark_word, IsMarked, wordsOf, List.head?_map, head?_words]
  split
  · rename_i hnil
    rw [hnil]
    simp [cut, mark]
  · simp [← String.toList_inj]

private theorem drop_mark (line : List Char) : (mark.toList ++ line).drop mark.length = line := List.drop_left' rfl

theorem body?_of_marked {s rest : List Char} (hs : trimStart s = mark.toList ++ rest)
    (hrest : ∀ c ∈ rest.head?, isBlank c = true) : body? s = some ((cut (· == '\n') rest).2.drop 1) := by
  have hline : mark.toList.isPrefixOf (mark.toList ++ (cut (· == '\n') rest).1) = true :=
    List.isPrefixOf_iff_prefix.mpr (List.prefix_append _ _)
  simp only [body?, hs, cut_mark, hline, if_true, drop_mark]
  cases rest with
  | nil => rfl
  | cons c rest =>
    have hc := hrest c rfl
    by_cases hbreak : c = '\n' <;> simp [cut, hbreak, hc]

theorem body?_of_not_marked {text : String} (h : ¬ IsMarked text) : body? text.toList = none := by
  rw [isMarked_iff] at h
  simp only [body?]
  split
  · rename_i hstart
    obtain ⟨line,hline⟩ := List.isPrefixOf_iff_prefix.mp hstart
    have hs := cut_append (· == '\n') (trimStart text.toList)
    rw [← hline, List.append_assoc] at hs
    rw [← hline, drop_mark]
    split
    · -- nothing follows the mark in its line
      refine absurd ⟨_,hs.symm,fun c hc => ?_⟩ h
      rw [eq_of_beq (of_head?_cut (· == '\n') _ c hc)]
      rfl
    · rename_i c line
      rw [if_neg]
      exact fun hc => h ⟨_,hs.symm,by simpa using hc⟩
  · rfl

theorem body?_isSome (text : String) : (body? text.toList).isSome ↔ IsMarked text := by
  constructor
  · intro h
    by_contra hmark
    simp [body?_of_not_marked hmark] at h
  · intro h
    obtain ⟨rest,hs,hrest⟩ := (isMarked_iff text).mp h
    rw [body?_of_marked hs hrest, Option.isSome_some]

theorem body?_congr {s t : List Char} (h : trimStart s = trimStart t) : body? s = body? t := by
  rw [body?, body?, h]

private theorem body?_trim_isSome (text : String) : (body? (trim text.toList)).isSome ↔ IsMarked text := by
  rw [IsMarked, ← wordsOf_trimmed, ← IsMarked, ← body?_isSome, trimmed, String.toList_ofList]

private theorem ofTextLenient_of_marked {text : String} (h : IsMarked text) :
    ofTextLenient text = ofText (trimmedEnd text) := by
  have hbody : body? (trim text.toList) = body? (trimEnd text.toList) :=
    body?_congr (by rw [trimStart_trim, trimStart_trimEnd])
  obtain ⟨body,hsome⟩ := Option.isSome_iff_exists.mp ((body?_trim_isSome text).mpr h)
  rw [ofTextLenient, ofText, trimmedEnd, String.toList_ofList, ← hbody, hsome, Option.getD_some]

private theorem ofTextLenient_of_not_marked {text : String} (h : ¬ IsMarked text) :
    ofTextLenient text = ofText (mark ++ "\n" ++ trimmed text) := by
  have hnone : body? (trim text.toList) = none := by simpa [h] using body?_trim_isSome text
  have hown : body? (mark ++ "\n" ++ trimmed text).toList = some (trim text.toList) := by
    have hs : trimStart (mark ++ "\n" ++ trimmed text).toList = mark.toList ++ '\n' :: trim text.toList := by
      simp [trimmed, mark, trimStart, isBlank]
    rw [body?_of_marked hs (by simp [isBlank])]
    simp [cut]
  rw [ofTextLenient, ofText, hown, hnone, Option.getD_none]

/-- Lenient reading is strict reading, of the text without trailing blanks if it is marked, and else of the text without
the blanks at its ends behind a mark of its own. The text itself is read if no blank stands at its ends. -/
theorem ofTextLenient_eq_ofText (text : String) :
    ofTextLenient text = ofText (if IsMarked text then trimmedEnd text else mark ++ "\n" ++ trimmed text) ∧
      (trimmed text = text →
        ofTextLenient text = ofText (if IsMarked text then text else mark ++ "\n" ++ text)) := by
  have htrimmed : ofTextLenient text = ofText (if IsMarked text then trimmedEnd text else mark ++ "\n" ++ trimmed text) := by
    by_cases h : IsMarked text
    · rw [if_pos h, ofTextLenient_of_marked h]
    · rw [if_neg h, ofTextLenient_of_not_marked h]
  refine ⟨htrimmed,fun htext => ?_⟩
  rwa [trimmedEnd_of_trimmed htext, htext] at htrimmed

/-- A text without a mark. -/
theorem ofTextLenient_unpadded :
    trimmed "name: bot" = "name: bot" ∧ ¬ IsMarked "name: bot" ∧
      ofTextLenient "name: bot" = ofText "#!agent\nname: bot" ∧
      (ofText "#!agent\nname: bot").toOption.map Definition.name = some "bot" := by
  have htext : trimmed "name: bot" = "name: bot" := by decide +kernel
  have hmark : ¬ IsMarked "name: bot" := by decide +kernel
  have h := (ofTextLenient_eq_ofText "name: bot").2 htext
  rw [if_neg hmark] at h
  exact ⟨htext,hmark,h,by decide +kernel⟩

/-- Of what is dropped, a line break at the end can belong to a block, and blanks at the start can be the indentation of a
mapping. -/
theorem ofTextLenient_drops_layout :
    (IsMarked "#!agent\nsystem_prompt: |\n  hi\n" ∧
      ofTextLenient "#!agent\nsystem_prompt: |\n  hi\n" ≠ ofText "#!agent\nsystem_prompt: |\n  hi\n") ∧
    (¬ IsMarked "  name: bot\n  model: x\n" ∧
      ofTextLenient "  name: bot\n  model: x\n" ≠ ofText (mark ++ "\n" ++ "  name: bot\n  model: x\n")) := by
  refine ⟨⟨by decide +kernel,fun h => ?_⟩,by decide +kernel,fun h => ?_⟩
  · have hprompt := congrArg (fun result => result.toOption.map systemPrompt) h
    revert hprompt
    decide +kernel
  · have hname := congrArg (fun result => result.toOption.map Definition.name) h
    revert hname
    decide +kernel

end Agent.Definition
end VirtualShell
