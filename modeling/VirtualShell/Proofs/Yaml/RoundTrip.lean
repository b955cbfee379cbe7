import VirtualShell.Proofs.Yaml.Floats
import VirtualShell.Proofs.Yaml.Lexing
import VirtualShell.Proofs.Yaml.Tokens

/-! The YAML text of a value is read back as that value. -/
namespace VirtualShell.Yaml

theorem plain_numberText (x : JsonNumber) : Plain (numberText x).toList := by
  cases x with
  | natural n => simpa [numberText] using plain_toDigits n.toNat
  | negative n => simpa [numberText] using plain_negative n.toNat
  | float x => exact plain_numberText_float x

/-! ### The lines of a value -/

/-- A value that is written in one piece. -/
inductive IsLeaf : Json → Prop where
  | null : IsLeaf .null
  | bool (b : Bool) : IsLeaf (.bool b)
  | number (x : JsonNumber) : IsLeaf (.number x)
  | string (s : String) : IsLeaf (.string s)
  | noItems : IsLeaf (.array [])
  | noMembers : IsLeaf (.object [])

/-- The text of an entry whose key stands in column `n`. -/
def memberText (n : Nat) (key : String) (x : Json) : List Char :=
  if isSimpleKey key then scalarText (n + 2) key ++ ':' :: behindKey n x
  else '?' :: ' ' :: (endLine (scalarText (n + 2) key) ++ (padding n ++ ':' :: behindSign n x))

variable {n k : Nat} {rest : List Char} {x v : Json} {xs : List Json} {key : String} {ms : List (String × Json)}

theorem drop_items : (items n (x :: xs)).drop n = '-' :: (behindSign n x ++ items n xs) := by
  rw [items, List.append_assoc, List.drop_left' (length_padding n), List.cons_append]

theorem drop_members : (members n ((key,x) :: ms)).drop n = memberText n key x ++ members n ms := by
  rw [members, List.append_assoc, List.drop_left' (length_padding n), memberText]
  split <;> simp

theorem items_eq (hne : xs ≠ []) : items n xs = padding n ++ (items n xs).drop n := by
  obtain ⟨x,xs,rfl⟩ := List.exists_cons_of_ne_nil hne
  rw [drop_items, items, List.append_assoc, List.cons_append]

theorem members_eq (hne : ms ≠ []) : members n ms = padding n ++ (members n ms).drop n := by
  obtain ⟨⟨key,x⟩,ms,rfl⟩ := List.exists_cons_of_ne_nil hne
  rw [drop_members, members, List.append_assoc, memberText]
  split <;> simp

theorem behindSign_leaf (h : IsLeaf v) : behindSign n v = ' ' :: leaf (n + 2) v := by
  cases h <;> rw [behindSign] <;> simp

theorem behindKey_leaf (h : IsLeaf v) : behindKey n v = ' ' :: leaf (n + 2) v := by
  cases h <;> rw [behindKey] <;> simp

theorem behindSign_array : behindSign n (.array (x :: xs)) = ' ' :: (items (n + 2) (x :: xs)).drop (n + 2) := by
  simp [behindSign]

theorem behindSign_object {m : String × Json} :
    behindSign n (.object (m :: ms)) = ' ' :: (members (n + 2) (m :: ms)).drop (n + 2) := by simp [behindSign]

theorem behindKey_array : behindKey n (.array (x :: xs)) = '\n' :: (padding n ++ (items n (x :: xs)).drop n) := by
  rw [← items_eq (by simp)]
  simp [behindKey]

theorem behindKey_object {m : String × Json} :
    behindKey n (.object (m :: ms)) = '\n' :: (padding (n + 2) ++ (members (n + 2) (m :: ms)).drop (n + 2)) := by
  rw [← members_eq (by simp)]
  simp [behindKey]

/-- A sign is followed by a blank. -/
theorem isSeparated_behindSign (v : Json) (n : Nat) (rest : List Char) : isSeparated (behindSign n v ++ rest) = true := by
  unfold behindSign
  split <;> rfl

theorem isSeparated_behindKey (v : Json) (n : Nat) (rest : List Char) : isSeparated (behindKey n v ++ rest) = true := by
  unfold behindKey
  split <;> rfl

theorem print_leaf (h : IsLeaf v) : print v = .ofList (leaf 2 v) := by
  cases h <;> rw [print] <;> simp

/-! ### Scalars and empty collections -/

theorem leaf_cases (h : IsLeaf v) : (∃ text style written, leaf n v = endLine written ∧ Written n text style written ∧
      ∀ hanging, tokensOf hanging v = [.scalar text style]) ∨
    ∃ first last opening closing, Lexer.Brackets first last opening closing ∧ leaf n v = [first, last, '\n'] ∧
      ∀ hanging, tokensOf hanging v = [opening, closing] := by
  have hword {cs : List Char} (h : Plain cs) : endLine cs = cs ++ ['\n'] := (Written.plain (n := n) h).endLine_eq (by simp)
  have hnull : Plain ['n', 'u', 'l', 'l'] := plain_word (by decide) (by simp)
  have hbool (b : Bool) : Plain (if b then "true" else "false").toList := by
    cases b
    · exact show Plain ['f', 'a', 'l', 's', 'e'] from plain_word (by decide) (by simp)
    · exact show Plain ['t', 'r', 'u', 'e'] from plain_word (by decide) (by simp)
  cases h with
  | null => exact .inl ⟨_,_,_,(hword hnull).symm,.plain hnull,fun hanging => by rw [tokensOf]⟩
  | bool b =>
    refine .inl ⟨_,_,_,?_,.plain (hbool b),fun hanging => by rw [tokensOf, String.ofList_toList]⟩
    rw [hword (hbool b)]
    cases b <;> rfl
  | number x => exact .inl ⟨_,_,_,rfl,.plain (plain_numberText x),fun hanging => by rw [tokensOf, String.ofList_toList]⟩
  | string s => exact .inl ⟨_,_,_,rfl,written_scalarText n s,fun hanging => by rw [tokensOf]⟩
  | noItems => exact .inr ⟨_,_,_,_,.sequence,rfl,fun hanging => by rw [tokensOf]⟩
  | noMembers => exact .inr ⟨_,_,_,_,.mapping,rfl,fun hanging => by rw [tokensOf]⟩

namespace Lexer
variable {allowed hanging : Bool} {tokens tokens' : List Token} {indents outer : List Nat} {column : Nat} {lexer : Lexer}

theorem content_leaf (h : IsLeaf v) (rest : List Char) : Content (leaf n v ++ rest) := by
  obtain ⟨text,style,written,hleaf,hwritten,_⟩ | ⟨first,last,_,_,hbrackets,hleaf,_⟩ := leaf_cases (n := n) h
  · rw [hleaf]
    exact hwritten.content rest
  · rw [hleaf]
    cases hbrackets <;> simp [Content, isGap, isBreak]

theorem Stands.leaf (hleaf : IsLeaf v) (hn : n = indents.head?.getD 0 + 2) (hcolumn : ∀ i ∈ indents.head?, i < column)
    (hfollows : Follows indents k rest) (h : Stands allowed tokens indents (leaf n v ++ (padding k ++ rest)) column lexer) :
    ∃ lexer', Reaches lexer lexer' ∧ Stands true ((tokensOf hanging v).reverse ++ tokens) indents rest k lexer' := by
  obtain ⟨text,style,written,hleaf,hwritten,htokens⟩ | ⟨first,last,opening,closing,hbrackets,hleaf,htokens⟩ :=
    leaf_cases (n := n) hleaf
  · rw [hleaf] at h
    obtain ⟨lexer',hstep,hstands⟩ := h.scalar hwritten hn hcolumn hfollows
    rw [htokens]
    exact ⟨lexer',.single hstep,hstands⟩
  · rw [hleaf] at h
    rw [htokens]
    exact h.brackets hbrackets hcolumn hfollows.content

/-! ### Lists and objects -/

theorem Follows.deeper (h : Follows (n :: outer) k rest) : Follows ((n + 2) :: n :: outer) k rest :=
  ⟨h.content,Nat.le_trans h.left (Nat.le_add_right n 2)⟩

theorem content_items (hne : xs ≠ []) (rest : List Char) : Content ((items n xs).drop n ++ rest) := by
  obtain ⟨x,xs,rfl⟩ := List.exists_cons_of_ne_nil hne
  rw [drop_items]
  simp [Content, isGap, isBreak]

theorem content_members (hne : ms ≠ []) (rest : List Char) : Content ((members n ms).drop n ++ rest) := by
  obtain ⟨⟨key,x⟩,ms,rfl⟩ := List.exists_cons_of_ne_nil hne
  rw [drop_members, memberText]
  split
  · obtain ⟨c,more,hmore,hc⟩ := (written_scalarText (n + 2) key).exists_cons
    rw [hmore]
    simpa [Content] using hc
  · simp [Content, isGap, isBreak]

mutual

/-- Behind the sign of an item or of a key that has one. -/
theorem reaches_behindSign (v : Json) {n k : Nat} {outer : List Nat} {rest : List Char} (hfollows : Follows (n :: outer) k rest)
    (tokens : List Token) (offset line : Nat) : ∃ lexer',
    Reaches (between true tokens (n :: outer) none ⟨behindSign n v ++ (padding k ++ rest),offset,line,n + 1⟩) lexer' ∧
      Stands true ((tokensOf false v).reverse ++ tokens) (n :: outer) rest k lexer' := by
  have hleaf (h : IsLeaf v) : ∃ lexer',
      Reaches (between true tokens (n :: outer) none ⟨behindSign n v ++ (padding k ++ rest),offset,line,n + 1⟩) lexer' ∧
        Stands true ((tokensOf false v).reverse ++ tokens) (n :: outer) rest k lexer' := by
    rw [behindSign_leaf h]
    exact (stands_blank (content_leaf h _)).leaf h rfl (by rintro _ ⟨⟩; omega) hfollows
  have hopens (sign : Token) : Opens (n + 2) sign tokens (n :: outer) (sign :: tokens) (n :: outer) := .anew (by simp)
  have hclose : k < n + 2 := Nat.lt_of_le_of_lt hfollows.left (by omega)
  match v with
  | .null | .bool _ | .number _ | .string _ | .array [] | .object [] => exact hleaf (by constructor)
  | .array (x :: xs) =>
    rw [behindSign_array, tokensOf_array]
    exact (reaches_items (x :: xs) (by simp) (hopens .blockSequence) hfollows.deeper (stands_blank (content_items (by simp) _))).imp
      fun _ h => ⟨h.1,by simpa using h.2.close hclose⟩
  | .object (m :: ms) =>
    rw [behindSign_object, tokensOf_object]
    exact (reaches_members (m :: ms) (by simp) (hopens .blockMapping) hfollows.deeper (stands_blank (content_members (by simp) _))).imp
      fun _ h => ⟨h.1,by simpa using h.2.close hclose⟩

/-- Behind the colon of a simple key. -/
theorem reaches_behindKey (v : Json) {n k column : Nat} {outer : List Nat} {rest : List Char}
    (hfollows : Follows (n :: outer) k rest) (hcolumn : n < column) (tokens : List Token) (offset line : Nat) : ∃ lexer',
    Reaches (between false tokens (n :: outer) none ⟨behindKey n v ++ (padding k ++ rest),offset,line,column⟩) lexer' ∧
      Stands true ((tokensOf true v).reverse ++ tokens) (n :: outer) rest k lexer' := by
  have hleaf (h : IsLeaf v) : ∃ lexer',
      Reaches (between false tokens (n :: outer) none ⟨behindKey n v ++ (padding k ++ rest),offset,line,column⟩) lexer' ∧
        Stands true ((tokensOf true v).reverse ++ tokens) (n :: outer) rest k lexer' := by
    rw [behindKey_leaf h]
    exact (stands_blank (content_leaf h _)).leaf h rfl (by simp; omega) hfollows
  match v with
  | .null | .bool _ | .number _ | .string _ | .array [] | .object [] => exact hleaf (by constructor)
  | .array (x :: xs) =>
    rw [behindKey_array, tokensOf_hanging, List.cons_append, List.append_assoc]
    exact reaches_items (x :: xs) (by simp) .already hfollows (stands_break (content_items (by simp) _))
  | .object (m :: ms) =>
    rw [behindKey_object, tokensOf_object, List.cons_append, List.append_assoc]
    exact (reaches_members (m :: ms) (by simp) (.anew (by simp)) hfollows.deeper (stands_break (content_members (by simp) _))).imp
      fun _ h => ⟨h.1,by simpa using h.2.close (Nat.lt_of_le_of_lt hfollows.left (by omega))⟩

/-- The items of a list, from the dash of the first one. -/
theorem reaches_items (xs : List Json) (hne : xs ≠ []) {n k : Nat} {indents outer : List Nat} {tokens tokens' : List Token}
    {rest : List Char} {lexer : Lexer} (hopens : Opens n .blockSequence tokens indents tokens' outer)
    (hfollows : Follows (n :: outer) k rest)
    (h : Stands true tokens indents ((items n xs).drop n ++ (padding k ++ rest)) n lexer) :
    ∃ lexer', Reaches lexer lexer' ∧ Stands true ((itemTokens xs).reverse ++ tokens') (n :: outer) rest k lexer' := by
  match xs with
  | [] => exact absurd rfl hne
  | x :: xs =>
    rw [drop_items, List.cons_append, List.append_assoc] at h
    obtain ⟨_,hsign,offset,line,rfl⟩ := h.steps (P := fun lexer' => ∃ offset line, lexer' =
        between true (.entry :: tokens') (n :: outer) none
          ⟨behindSign n x ++ (items n xs ++ (padding k ++ rest)),offset,line,n + 1⟩) hopens.head_le fun offset line =>
      ⟨_,readToken_entry (isSeparated_behindSign x n _) hopens,by simp [between],_,_,rfl⟩
    match xs with
    | [] =>
      obtain ⟨lexer',hreaches,hstands⟩ := reaches_behindSign x hfollows (.entry :: tokens') offset line
      rw [items] at hsign
      exact ⟨lexer',.head hsign hreaches,by simpa [itemTokens] using hstands⟩
    | y :: ys =>
      obtain ⟨lexer',hreaches,hstands⟩ := reaches_behindSign x
        (⟨content_items (by simp) _,Nat.le_refl n⟩ : Follows (n :: outer) n ((items n (y :: ys)).drop n ++ (padding k ++ rest)))
        (.entry :: tokens') offset line
      obtain ⟨lexer'',hrest,hstands⟩ := reaches_items (y :: ys) (by simp) .already hfollows hstands
      rw [items_eq (by simp), List.append_assoc] at hsign
      exact ⟨lexer'',.head hsign (hreaches.trans hrest),by simpa [itemTokens] using hstands⟩

/-- The entries of an object, from the key of the first one. -/
theorem reaches_members (ms : List (String × Json)) (hne : ms ≠ []) {n k : Nat} {indents outer : List Nat}
    {tokens tokens' : List Token} {rest : List Char} {lexer : Lexer} (hopens : Opens n .blockMapping tokens indents tokens' outer)
    (hfollows : Follows (n :: outer) k rest)
    (h : Stands true tokens indents ((members n ms).drop n ++ (padding k ++ rest)) n lexer) :
    ∃ lexer', Reaches lexer lexer' ∧ Stands true ((memberTokens ms).reverse ++ tokens') (n :: outer) rest k lexer' := by
  match ms with
  | [] => exact absurd rfl hne
  | (key,x) :: ms =>
    have hwritten := written_scalarText (n + 2) key
    rw [drop_members, List.append_assoc] at h
    -- What follows the entry, with the indentation of the next one before it.
    obtain ⟨k',rest',hnext,hfollows',hlater⟩ : ∃ k' rest', members n ms ++ (padding k ++ rest) = padding k' ++ rest' ∧
        Follows (n :: outer) k' rest' ∧ ∀ {tokens : List Token} {lexer : Lexer}, Stands true tokens (n :: outer) rest' k' lexer →
          ∃ lexer', Reaches lexer lexer' ∧ Stands true ((memberTokens ms).reverse ++ tokens) (n :: outer) rest k lexer' := by
      match ms with
      | [] => exact ⟨k,rest,by rw [members, List.nil_append],hfollows,fun h => ⟨_,.refl,h⟩⟩
      | m :: ms =>
        refine ⟨n,(members n (m :: ms)).drop n ++ (padding k ++ rest),?_,⟨content_members (by simp) _,Nat.le_refl n⟩,fun h => ?_⟩
        · rw [← List.append_assoc (padding n), ← members_eq (List.cons_ne_nil m ms)]
        · exact reaches_members (m :: ms) (by simp) .already hfollows h
    rw [hnext, memberText] at h
    have hkey : ∃ lexer', Reaches lexer lexer' ∧ Stands true ((tokensOf (isSimpleKey key) x).reverse ++
        (.value :: .scalar key (styleOf key) :: .key :: tokens')) (n :: outer) rest' k' lexer' := by
      split at h
      · rename_i hsimple
        rw [List.append_assoc, List.cons_append] at h
        obtain ⟨offset,line,column,hcolumn,hreaches⟩ := h.simpleKey hwritten (by omega) hsimple (isSeparated_behindKey x n _) hopens
        obtain ⟨lexer',hvalue,hstands⟩ := reaches_behindKey x hfollows' hcolumn _ offset line
        exact ⟨lexer',hreaches.trans hvalue,hsimple ▸ hstands⟩
      · rename_i hsimple
        rw [List.cons_append, List.cons_append, List.append_assoc, List.append_assoc, List.cons_append] at h
        obtain ⟨offset,line,hreaches⟩ := h.complexKey hwritten (isSeparated_behindSign x n _) hopens
        obtain ⟨lexer',hvalue,hstands⟩ := reaches_behindSign x hfollows' _ offset line
        exact ⟨lexer',hreaches.trans hvalue,by rwa [Bool.not_eq_true _ |>.mp hsimple]⟩
    obtain ⟨lexer',hreaches,hstands⟩ := hkey
    obtain ⟨lexer'',hrest,hstands⟩ := hlater hstands
    exact ⟨lexer'',hreaches.trans hrest,by simpa [memberTokens] using hstands⟩

end

/-! ### A whole text -/

theorem tokens_closeAll (indents : List Nat) (lexer : Lexer) :
    indents.foldl (fun lexer _ => lexer.emit .blockEnd) lexer =
      { lexer with tokens := List.replicate indents.length .blockEnd ++ lexer.tokens, count := lexer.count + indents.length } := by
  induction indents generalizing lexer with
  | nil => rfl
  | cons i indents ih =>
    rw [List.foldl_cons, ih, List.length_cons, List.replicate_succ']
    simp [emit, Nat.add_assoc, Nat.add_comm 1]

/-- At the end of the text all blocks end. -/
theorem Stands.run_end (h : Stands allowed tokens indents [] column lexer) (hhead : ∀ i ∈ indents.head?, i ≤ column) {fuel : Nat}
    (hfuel : 0 < fuel) : ∃ lexer', lexer.run fuel = .ok lexer' ∧
      lexer'.tokens = .streamEnd :: (List.replicate indents.length .blockEnd ++ tokens) := by
  obtain ⟨fuel,rfl⟩ := Nat.exists_eq_add_of_le' hfuel
  obtain ⟨offset,line,hnext⟩ := h.next
  have hend : ∃ lexer', (between allowed tokens indents none ⟨[],offset,line,column⟩).readToken = .ok lexer' ∧
      lexer'.finished = true ∧ lexer'.tokens = .streamEnd :: (List.replicate indents.length .blockEnd ++ tokens) := by
    change ∃ lexer', (between allowed tokens indents none ⟨[],offset,line,column⟩).closeAll.dropCandidate >>= _ = .ok lexer' ∧ _
    rw [closeAll, if_neg (by simp [between, inFlow]), tokens_closeAll]
    exact ⟨_,rfl,rfl,rfl⟩
  obtain ⟨lexer',hread,hfinished,htokens⟩ := hend
  refine ⟨lexer',?_,htokens⟩
  rw [run, h.running, step_eq, hnext, dedent_between hhead]
  change ((between allowed tokens indents none ⟨[],offset,line,column⟩).readToken >>= run fuel) = _
  rw [hread]
  cases fuel with
  | zero => rfl
  | succ fuel => exact if_pos hfinished

end Lexer

theorem tokens_eq {text : List Char} {ts : List Token} {indents : List Nat} {lexer : Lexer} {column : Nat}
    (hchars : ∀ c ∈ text, isPrintable c = true) (hreaches : Lexer.Reaches (Lexer.start text) lexer)
    (h : Lexer.Stands true ts indents [] column lexer) (hhead : ∀ i ∈ indents.head?, i ≤ column) :
    tokens text = .ok (ts.reverse ++ List.replicate indents.length .blockEnd ++ [.streamEnd]) := by
  have hallowed : (text.find? fun c => !isAllowed c) = none := by
    rw [List.find?_eq_none]
    exact fun c hc => by simp [isAllowed_of_isPrintable (hchars c hc)]
  obtain ⟨fuel,hfuel,hrun⟩ := hreaches.run (show text.length < text.length + 2 by omega)
  obtain ⟨lexer',hend,htokens⟩ := h.run_end hhead (Nat.zero_lt_of_lt hfuel)
  rw [tokens, hallowed]
  change ((Lexer.start text).run (text.length + 2) >>= fun lexer => .ok lexer.tokens.reverse) = _
  rw [hrun, hend]
  change Except.ok lexer'.tokens.reverse = _
  rw [htokens]
  simp

theorem printable_leaf (h : IsLeaf v) : ∀ c ∈ leaf n v, isPrintable c = true := by
  obtain ⟨text,style,written,hleaf,hwritten,_⟩ | ⟨first,last,_,_,hbrackets,hleaf,_⟩ := leaf_cases (n := n) h
  · rw [hleaf]
    exact isPrintable_endLine hwritten.printable
  · rw [hleaf]
    cases hbrackets <;> decide

theorem printable_drop {cs : List Char} (h : ∀ c ∈ cs, isPrintable c = true) : ∀ c ∈ cs.drop n, isPrintable c = true :=
  fun c hc => h c (List.mem_of_mem_drop hc)

mutual

theorem printable_behindSign (n : Nat) (v : Json) : ∀ c ∈ behindSign n v, isPrintable c = true := by
  have hleaf (h : IsLeaf v) : ∀ c ∈ behindSign n v, isPrintable c = true := by
    rw [behindSign_leaf h]
    exact List.forall_mem_cons.mpr ⟨rfl,printable_leaf h⟩
  match v with
  | .null | .bool _ | .number _ | .string _ | .array [] | .object [] => exact hleaf (by constructor)
  | .array (x :: xs) =>
    rw [behindSign_array]
    exact List.forall_mem_cons.mpr ⟨rfl,printable_drop (printable_items (n + 2) (x :: xs))⟩
  | .object (m :: ms) =>
    rw [behindSign_object]
    exact List.forall_mem_cons.mpr ⟨rfl,printable_drop (printable_members (n + 2) (m :: ms))⟩

theorem printable_behindKey (n : Nat) (v : Json) : ∀ c ∈ behindKey n v, isPrintable c = true := by
  have hleaf (h : IsLeaf v) : ∀ c ∈ behindKey n v, isPrintable c = true := by
    rw [behindKey_leaf h]
    exact List.forall_mem_cons.mpr ⟨rfl,printable_leaf h⟩
  match v with
  | .null | .bool _ | .number _ | .string _ | .array [] | .object [] => exact hleaf (by constructor)
  | .array (x :: xs) =>
    rw [behindKey_array, ← items_eq (by simp)]
    exact List.forall_mem_cons.mpr ⟨rfl,printable_items n (x :: xs)⟩
  | .object (m :: ms) =>
    rw [behindKey_object, ← members_eq (by simp)]
    exact List.forall_mem_cons.mpr ⟨rfl,printable_members (n + 2) (m :: ms)⟩

theorem printable_items (n : Nat) (xs : List Json) : ∀ c ∈ items n xs, isPrintable c = true := by
  match xs with
  | [] =>
    rw [items]
    exact List.forall_mem_nil _
  | x :: xs =>
    rw [items, List.forall_mem_append, List.forall_mem_append, List.forall_mem_cons]
    exact ⟨⟨isPrintable_padding,rfl,printable_behindSign n x⟩,printable_items n xs⟩

theorem printable_members (n : Nat) (ms : List (String × Json)) : ∀ c ∈ members n ms, isPrintable c = true := by
  match ms with
  | [] =>
    rw [members]
    exact List.forall_mem_nil _
  | (key,x) :: ms =>
    have hkey := (written_scalarText (n + 2) key).printable
    have hentry : ∀ c ∈ memberText n key x, isPrintable c = true := by
      rw [memberText]
      split
      · exact List.forall_mem_append.mpr ⟨hkey,List.forall_mem_cons.mpr ⟨rfl,printable_behindKey n x⟩⟩
      · refine List.forall_mem_cons.mpr ⟨rfl,List.forall_mem_cons.mpr ⟨rfl,?_⟩⟩
        refine List.forall_mem_append.mpr ⟨isPrintable_endLine hkey,List.forall_mem_append.mpr ⟨isPrintable_padding,?_⟩⟩
        exact List.forall_mem_cons.mpr ⟨rfl,printable_behindSign n x⟩
    rw [members_eq (by simp), drop_members]
    exact List.forall_mem_append.mpr ⟨isPrintable_padding,List.forall_mem_append.mpr ⟨hentry,printable_members n ms⟩⟩

end

theorem tokens_print (v : Json) : tokens (print v).toList = .ok (tokensOf false v ++ [.streamEnd]) := by
  have hcontent : Content [] := by simp [Content]
  have hend : Lexer.Follows [] 0 [] := ⟨hcontent,rfl,rfl⟩
  have hendBlock : Lexer.Follows [0] 0 [] := ⟨hcontent,Nat.le_refl 0⟩
  have hstart {text : List Char} (h : Content (text ++ [])) : Lexer.Stands true [] [] (text ++ []) 0 (Lexer.start (text ++ [])) :=
    Lexer.stands_padding h 0 (by simp)
  have hleaf (h : IsLeaf v) : tokens (print v).toList = .ok (tokensOf false v ++ [.streamEnd]) := by
    obtain ⟨lexer,hreaches,hstands⟩ : ∃ lexer, Lexer.Reaches (Lexer.start (leaf 2 v ++ [])) lexer ∧
        Lexer.Stands true ((tokensOf false v).reverse ++ []) [] [] 0 lexer :=
      (hstart (Lexer.content_leaf h [])).leaf h rfl (by simp) hend
    rw [print_leaf h, String.toList_ofList, ← List.append_nil (leaf 2 v)]
    simpa using tokens_eq (by simpa using printable_leaf h) hreaches hstands (by simp)
  cases v with
  | array elements =>
    cases elements with
    | nil => exact hleaf (by constructor)
    | cons x xs =>
      obtain ⟨lexer,hreaches,hstands⟩ := Lexer.reaches_items (x :: xs) (by simp) (.anew (by simp)) hendBlock
        (hstart (Lexer.content_items (List.cons_ne_nil x xs) []))
      have htext : (print (.array (x :: xs))).toList = (items 0 (x :: xs)).drop 0 ++ [] := by simp [print]
      rw [htext, tokensOf_array]
      simpa using tokens_eq (by simpa using printable_items 0 (x :: xs)) hreaches hstands (by simp)
  | object entries =>
    cases entries with
    | nil => exact hleaf (by constructor)
    | cons m ms =>
      obtain ⟨lexer,hreaches,hstands⟩ := Lexer.reaches_members (m :: ms) (by simp) (.anew (by simp)) hendBlock
        (hstart (Lexer.content_members (List.cons_ne_nil m ms) []))
      have htext : (print (.object (m :: ms))).toList = (members 0 (m :: ms)).drop 0 ++ [] := by simp [print]
      rw [htext, tokensOf_object]
      simpa using tokens_eq (by simpa using printable_members 0 (m :: ms)) hreaches hstands (by simp)
  | _ => exact hleaf (by constructor)

/-- A value that has been written is read back as the node of that value, whatever its texts are made of. -/
theorem parse_print (v : Json) : Document.parse (print v) = .ok ⟨nodeOf v,[]⟩ := Document.parse_of_tokens (tokens_print v)

end VirtualShell.Yaml
