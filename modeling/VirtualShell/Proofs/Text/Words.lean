import Mathlib.Data.List.TakeWhile
import VirtualShell.Text.Blank

/-! Words of a text do not depend on the blanks at its ends, and a word goes on to the next blank. -/
namespace VirtualShell.Text

variable {blanks word rest s : List Char}

theorem cut_append_blank (hblank : ∀ c ∈ blanks, isBlank c) (s : List Char) :
    cut isBlank (s ++ blanks) = ((cut isBlank s).1,(cut isBlank s).2 ++ blanks) := by
  induction s with
  | nil =>
    cases blanks with
    | nil => rfl
    | cons c _ => simp [cut, hblank c (by simp)]
  | cons c s ih => by_cases h : isBlank c <;> simp [cut, h, ih]

theorem words_blank (hblank : ∀ c ∈ blanks, isBlank c) : words blanks = [] := by
  induction blanks with
  | nil => rw [words]
  | cons c blanks ih => rw [words, if_pos (hblank c (by simp)), ih fun d hd => hblank d (by simp [hd])]

theorem words_append_blank (hblank : ∀ c ∈ blanks, isBlank c) (s : List Char) : words (s ++ blanks) = words s := by
  induction s using words.induct with
  | case1 => rw [List.nil_append, words_blank hblank, words]
  | case2 c s h ih => rw [List.cons_append, words, words, if_pos h, if_pos h, ih]
  | case3 c s h ih => rw [List.cons_append, words, words, if_neg h, if_neg h, cut_append_blank hblank, ih]

theorem words_trimStart (s : List Char) : words (trimStart s) = words s := by
  induction s with
  | nil => rfl
  | cons c s ih =>
    rw [trimStart, List.dropWhile_cons]
    split
    · rename_i h
      rw [words, if_pos h]
      exact ih
    · rfl

theorem words_trimEnd (s : List Char) : words (trimEnd s) = words s := by
  have hsplit : s = trimEnd s ++ (s.reverse.takeWhile isBlank).reverse := by
    rw [trimEnd, ← List.reverse_append, List.takeWhile_append_dropWhile, List.reverse_reverse]
  have hblank : ∀ c ∈ (s.reverse.takeWhile isBlank).reverse, isBlank c := fun c hc =>
    List.mem_takeWhile_imp (List.mem_reverse.mp hc)
  calc
    words (trimEnd s) = words (trimEnd s ++ _) := (words_append_blank hblank _).symm
    _ = words s := by rw [← hsplit]

theorem words_trim (s : List Char) : words (trim s) = words s := by
  rw [trim, words_trimEnd, words_trimStart]

theorem wordsOf_trimmed (s : String) : wordsOf (trimmed s) = wordsOf s := by
  rw [wordsOf, trimmed, String.toList_ofList, words_trim, wordsOf]

theorem isBlank_of_words_eq_nil (h : words s = []) : ∀ c ∈ s, isBlank c := by
  induction s using words.induct with
  | case1 => simp
  | case2 c s hc ih =>
    rw [words, if_pos hc] at h
    exact List.forall_mem_cons.mpr ⟨hc,ih h⟩
  | case3 c s hc ih =>
    rw [words, if_neg hc] at h
    cases h

/-- Nothing is left of a text without words. -/
theorem trimmed_eq_empty_iff (s : String) : trimmed s = "" ↔ wordsOf s = [] := by
  constructor
  · intro h
    rw [← wordsOf_trimmed, h]
    simp [wordsOf, words]
  · intro h
    have hblank := isBlank_of_words_eq_nil (List.map_eq_nil_iff.mp h)
    rw [trimmed, trim, trimStart, List.dropWhile_eq_nil_iff.mpr hblank]
    rfl

/-- A text that is one word. -/
def IsWord (word : List Char) : Prop := word ≠ [] ∧ ∀ c ∈ word, isBlank c = false

instance : DecidablePred IsWord := fun word => @instDecidableAnd _ _ inferInstance (List.decidableBAll _ word)

theorem cut_append_word (hword : ∀ c ∈ word, isBlank c = false) (s : List Char) :
    cut isBlank (word ++ s) = (word ++ (cut isBlank s).1,(cut isBlank s).2) := by
  induction word with
  | nil => rfl
  | cons c word ih => simp [cut, hword c (by simp), ih fun d hd => hword d (by simp [hd])]

theorem words_word (h : IsWord word) : words word = [word] := by
  obtain ⟨hne,hword⟩ := h
  obtain ⟨first,others,rfl⟩ := List.exists_cons_of_ne_nil hne
  have hothers : ∀ d ∈ others, isBlank d = false := fun d hd => hword d (by simp [hd])
  have hcut := cut_append_word hothers []
  simp only [cut, List.append_nil] at hcut
  rw [words, if_neg (by simp [hword first (by simp)]), hcut, words]

theorem words_append_word (h : IsWord word) {c : Char} (hc : isBlank c) (rest : List Char) :
    words (word ++ c :: rest) = word :: words rest := by
  obtain ⟨hne,hword⟩ := h
  obtain ⟨first,others,rfl⟩ := List.exists_cons_of_ne_nil hne
  have hothers : ∀ d ∈ others, isBlank d = false := fun d hd => hword d (by simp [hd])
  have hcut : cut isBlank (others ++ c :: rest) = (others,c :: rest) := by
    simp [cut_append_word hothers, cut, hc]
  rw [List.cons_append, words, if_neg (by simp [hword first (by simp)]), hcut, words, if_pos hc]

/-- Words with single spaces between them are read as these words. -/
theorem words_intercalate {list : List (List Char)} (h : ∀ word ∈ list, IsWord word) : words ([' '].intercalate list) = list := by
  induction list with
  | nil => rw [List.intercalate_nil, words]
  | cons word list ih =>
    obtain ⟨hword,hlist⟩ := List.forall_mem_cons.mp h
    cases list with
    | nil => rw [List.intercalate_singleton, words_word hword]
    | cons next list =>
      rw [List.intercalate_cons_cons, List.append_assoc, List.singleton_append, words_append_word hword rfl, ih hlist]

theorem wordsOf_intercalate {list : List String} (h : ∀ word ∈ list, IsWord word.toList) : wordsOf (" ".intercalate list) = list := by
  have hwords : words ([' '].intercalate (list.map String.toList)) = list.map String.toList := by
    refine words_intercalate fun word hword => ?_
    obtain ⟨text,htext,rfl⟩ := List.mem_map.mp hword
    exact h text htext
  rw [wordsOf, String.toList_intercalate]
  simp [hwords, Function.comp_def]

end VirtualShell.Text
