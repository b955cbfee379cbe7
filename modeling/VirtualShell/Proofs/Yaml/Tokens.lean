import VirtualShell.Proofs.Yaml.Decoding

/-!
The tokens that stand for a value in block style, and the node that is read off them.
-/
namespace VirtualShell.Yaml

/-! ### The tokens of a value -/

mutual

/-- The tokens of a value; an array that is `hanging` behind a key opens no block of its own. -/
def tokensOf (hanging : Bool) : Json → List Token
  | .null => [.scalar "null" .plain]
  | .bool b => [.scalar (if b then "true" else "false") .plain]
  | .number n => [.scalar (numberText n) .plain]
  | .string s => [.scalar s (styleOf s)]
  | .array [] => [.flowSequence, .flowSequenceEnd]
  | .array xs => if hanging then itemTokens xs else .blockSequence :: itemTokens xs ++ [.blockEnd]
  | .object [] => [.flowMapping, .flowMappingEnd]
  | .object ms => .blockMapping :: memberTokens ms ++ [.blockEnd]

def itemTokens : List Json → List Token
  | [] => []
  | x :: rest => .entry :: tokensOf false x ++ itemTokens rest

def memberTokens : List (String × Json) → List Token
  | [] => []
  | (key,x) :: rest => .key :: .scalar key (styleOf key) :: .value :: tokensOf (isSimpleKey key) x ++ memberTokens rest

end

theorem tokensOf_array (x : Json) (xs : List Json) : tokensOf false (.array (x :: xs)) =
    .blockSequence :: (itemTokens (x :: xs) ++ [.blockEnd]) := by simp [tokensOf]

theorem tokensOf_hanging (x : Json) (xs : List Json) : tokensOf true (.array (x :: xs)) = itemTokens (x :: xs) := by
  simp [tokensOf]

theorem tokensOf_object (hanging : Bool) (m : String × Json) (ms : List (String × Json)) :
    tokensOf hanging (.object (m :: ms)) = .blockMapping :: (memberTokens (m :: ms) ++ [.blockEnd]) := by simp [tokensOf]

namespace Reader

/-! ### Readings that take tokens -/

/-- The reading takes just the tokens before `rest` and comes to an answer; of the reader it changes nothing else. -/
def Takes {α : Type} (act : Reading α) (tokens rest : List Token) (a : α) : Prop :=
  ∀ reader : Reader, act.run { reader with rest := tokens ++ rest } = .ok (a,{ reader with rest })

variable {α β : Type} {act : Reading α} {f : α → Reading β} {a : α} {b : β} {tokens more rest : List Token} {token : Token}

namespace Takes

theorem pure (a : α) (rest : List Token) : Takes (Pure.pure a : Reading α) [] rest a := fun _ => rfl

theorem bind (h : Takes act tokens (more ++ rest) a) (hf : Takes (f a) more rest b) :
    Takes (act >>= f) (tokens ++ more) rest b := by
  intro reader
  rw [StateT.run_bind, List.append_assoc, h reader]
  exact hf reader

theorem map (h : Takes act tokens rest a) (g : α → β) : Takes (act >>= fun a => Pure.pure (g a)) tokens rest (g a) := by
  have hpure := h.bind (f := fun a => Pure.pure (g a)) (pure (g a) rest)
  rwa [List.append_nil] at hpure

theorem peek (token : Token) (rest : List Token) : Takes Reader.peek [] (token :: rest) token := fun _ => rfl

theorem advance (token : Token) (rest : List Token) : Takes Reader.advance [token] rest () := fun _ => rfl

end Takes

/-! ### One step of reading -/

variable {fuel : Nat} {block hanging : Bool} {node : Node} {items : List Node} {entries : List (Node × Node)}

theorem takes_scalar (text : String) (style : Style) :
    Takes (Reader.node (fuel + 1) block hanging) [.scalar text style] rest (.scalar ⟨text,style,none⟩) := fun _ => rfl

theorem takes_flowSequence :
    Takes (Reader.node (fuel + 2) block hanging) [.flowSequence, .flowSequenceEnd] rest (.sequence none []) := fun _ => rfl

theorem takes_flowMapping :
    Takes (Reader.node (fuel + 2) block hanging) [.flowMapping, .flowMappingEnd] rest (.mapping none []) := fun _ => rfl

theorem takes_hanging (h : Takes (blockItems fuel true) (.entry :: tokens) rest items) :
    Takes (Reader.node (fuel + 1) true true) (.entry :: tokens) rest (.sequence none items) :=
  fun reader => h.map (Node.sequence none) reader

theorem takes_blockSequence (h : Takes (blockItems fuel false) tokens rest items) :
    Takes (Reader.node (fuel + 1) true hanging) (.blockSequence :: tokens) rest (.sequence none items) :=
  fun reader => h.map (Node.sequence none) reader

theorem takes_blockMapping (h : Takes (blockEntries fuel) tokens rest entries) :
    Takes (Reader.node (fuel + 1) true hanging) (.blockMapping :: tokens) rest (.mapping none entries) :=
  fun reader => h.map (Node.mapping none) reader

theorem takes_noItems : Takes (blockItems (fuel + 1) false) [.blockEnd] rest [] := fun _ => rfl

theorem takes_noEntries : Takes (blockEntries (fuel + 1)) [.blockEnd] rest [] := fun _ => rfl

/-- The tokens that a value that opens no hanging array can start with. -/
inductive Starts : Token → Prop where
  | scalar (text : String) (style : Style) : Starts (.scalar text style)
  | flowSequence : Starts .flowSequence
  | flowMapping : Starts .flowMapping
  | blockSequence : Starts .blockSequence
  | blockMapping : Starts .blockMapping

theorem takes_item (hstart : Starts token) (h : Takes (Reader.node fuel true false) (token :: tokens) (more ++ rest) node)
    (hmore : Takes (blockItems fuel hanging) more rest items) :
    Takes (blockItems (fuel + 1) hanging) (.entry :: token :: tokens ++ more) rest (node :: items) := by
  intro reader
  have hrun := h.bind (f := fun node => blockItems fuel hanging >>= fun items => pure (node :: items))
    (hmore.map (node :: ·)) reader
  rw [← hrun]
  cases hanging <;> cases hstart <;> rfl

/-- A hanging array ends where a token for something else stands. -/
theorem takes_noMoreItems (h : token ≠ .entry) : Takes (blockItems (fuel + 1) true) [] (token :: rest) [] := by
  intro reader
  cases token <;> first | rfl | exact absurd rfl h

/-- The part behind the sign of a key or a value. -/
theorem takes_part {sign : Token} (hstart : Starts token ∨ token = .entry)
    (h : Takes (Reader.node fuel true true) (token :: tokens) rest node) :
    Takes (blockPart (fuel + 1)) (sign :: token :: tokens) rest node := by
  intro reader
  rw [← h reader]
  obtain hstart | rfl := hstart
  · cases hstart <;> rfl
  · rfl

theorem takes_entry {key value : Node} {tail : List Token}
    (hkey : Takes (blockPart fuel) (.key :: tokens) (.value :: more ++ tail ++ rest) key)
    (hvalue : Takes (blockPart fuel) (.value :: more) (tail ++ rest) value) (htail : Takes (blockEntries fuel) tail rest entries) :
    Takes (blockEntries (fuel + 1)) (.key :: tokens ++ (.value :: more ++ tail)) rest ((key,value) :: entries) := by
  have hvalues := hvalue.bind (f := fun value => do return (key,value) :: (← blockEntries fuel)) (htail.map ((key,value) :: ·))
  have hentry := hkey.bind (f := fun key => do
    let value ← if (← Reader.peek) == .value then blockPart fuel else pure (.scalar .empty)
    return (key,value) :: (← blockEntries fuel)) fun reader => hvalues reader
  exact fun reader => hentry reader

/-! ### Reading a value -/

theorem tokensOf_starts (hanging : Bool) (v : Json) :
    ∃ token tokens, tokensOf hanging v = token :: tokens ∧ (Starts token ∨ hanging = true ∧ token = .entry) := by
  match v with
  | .null | .bool _ | .number _ | .string _ => exact ⟨_,_,by rw [tokensOf],.inl (.scalar _ _)⟩
  | .array [] => exact ⟨_,_,by rw [tokensOf],.inl .flowSequence⟩
  | .object [] => exact ⟨_,_,by rw [tokensOf],.inl .flowMapping⟩
  | .object (m :: ms) => exact ⟨_,_,tokensOf_object hanging m ms,.inl .blockMapping⟩
  | .array (x :: xs) =>
    cases hanging with
    | false => exact ⟨_,_,tokensOf_array x xs,.inl .blockSequence⟩
    | true => exact ⟨_,_,by rw [tokensOf_hanging, itemTokens, List.cons_append],.inr ⟨rfl,rfl⟩⟩

mutual

/-- A value is read off its tokens, also a hanging array where one is allowed and no further item follows. -/
theorem takes_tokensOf (hanging allowed : Bool) (v : Json) (fuel : Nat) (rest : List Token)
    (hfuel : 2 * (tokensOf hanging v).length + 1 < fuel)
    (hrest : hanging = true → allowed = true ∧ ∃ token more, rest = token :: more ∧ token ≠ .entry) :
    Takes (Reader.node fuel true allowed) (tokensOf hanging v) rest (nodeOf v) := by
  match v, fuel with
  | _, 0 => omega
  | .null, fuel + 1 | .bool _, fuel + 1 | .number _, fuel + 1 | .string _, fuel + 1 =>
    rw [tokensOf, nodeOf]
    exact takes_scalar _ _
  | .array [], fuel + 2 =>
    rw [tokensOf, nodeOf, nodesOf]
    exact takes_flowSequence
  | .object [], fuel + 2 =>
    rw [tokensOf, nodeOf, entriesOf]
    exact takes_flowMapping
  | .object (m :: ms), fuel + 1 =>
    rw [tokensOf_object] at hfuel ⊢
    rw [nodeOf]
    exact takes_blockMapping (takes_memberTokens (m :: ms) fuel rest (by simp at hfuel; omega))
  | .array (x :: xs), fuel + 1 =>
    rw [nodeOf]
    cases hanging with
    | false =>
      rw [tokensOf_array] at hfuel ⊢
      refine takes_blockSequence (takes_itemTokens false (x :: xs) fuel [.blockEnd] rest (by simp at hfuel; omega) ?_)
      exact fun _ => takes_noItems
    | true =>
      rw [tokensOf_hanging] at hfuel ⊢
      obtain ⟨rfl,token,more,rfl,htoken⟩ := hrest rfl
      have hitems := takes_itemTokens true (x :: xs) fuel [] (token :: more) (by omega) fun _ => takes_noMoreItems htoken
      rw [List.append_nil, itemTokens] at hitems
      rw [itemTokens]
      exact takes_hanging hitems

theorem takes_itemTokens (hanging : Bool) (xs : List Json) (fuel : Nat) (tail rest : List Token)
    (hfuel : 2 * (itemTokens xs).length < fuel) (htail : ∀ fuel, Takes (blockItems (fuel + 1) hanging) tail rest []) :
    Takes (blockItems fuel hanging) (itemTokens xs ++ tail) rest (nodesOf xs) := by
  match xs, fuel with
  | _, 0 => omega
  | [], fuel + 1 =>
    rw [itemTokens, nodesOf]
    exact htail fuel
  | x :: xs, fuel + 1 =>
    rw [itemTokens] at hfuel ⊢
    rw [nodesOf]
    simp only [List.length_cons, List.length_append] at hfuel
    obtain ⟨token,tokens,htokens,hstart⟩ := tokensOf_starts false x
    have hx := takes_tokensOf false false x fuel (itemTokens xs ++ tail ++ rest) (by omega) (by simp)
    have hxs := takes_itemTokens hanging xs fuel tail rest (by omega) htail
    rw [htokens] at hx ⊢
    rw [List.append_assoc]
    exact takes_item (hstart.resolve_right (by simp)) hx hxs

theorem takes_memberTokens (ms : List (String × Json)) (fuel : Nat) (rest : List Token)
    (hfuel : 2 * (memberTokens ms).length < fuel) :
    Takes (blockEntries fuel) (memberTokens ms ++ [.blockEnd]) rest (entriesOf ms) := by
  match ms, fuel with
  | _, 0 => omega
  | [], fuel + 1 =>
    rw [memberTokens, entriesOf]
    exact takes_noEntries
  | (key,x) :: ms, fuel + 1 =>
    rw [memberTokens] at hfuel ⊢
    rw [entriesOf]
    simp only [List.length_cons, List.length_append] at hfuel
    obtain ⟨fuel,rfl⟩ := Nat.exists_eq_add_of_le' (show 1 ≤ fuel by omega)
    obtain ⟨token,tokens,htokens,hstart⟩ := tokensOf_starts (isSimpleKey key) x
    have hx := takes_tokensOf (isSimpleKey key) true x fuel (memberTokens ms ++ [.blockEnd] ++ rest) (by omega) fun _ => by
      cases ms with
      | nil => exact ⟨rfl,_,_,rfl,by simp⟩
      | cons m ms => exact ⟨rfl,_,_,by rw [memberTokens]; rfl,by simp⟩
    have hms := takes_memberTokens ms (fuel + 1) rest (by omega)
    rw [htokens] at hx hfuel ⊢
    rw [List.length_cons] at hfuel
    obtain ⟨fuel,rfl⟩ := Nat.exists_eq_add_of_le' (show 1 ≤ fuel by omega)
    rw [List.append_assoc]
    exact takes_entry (takes_part (.inl (.scalar key (styleOf key))) (takes_scalar key (styleOf key)))
      (takes_part (hstart.imp_right And.right) hx) hms

end

/-- A document with nothing but a value in it. -/
theorem stream_tokensOf (v : Json) (fuel : Nat) (hfuel : 2 * (tokensOf false v).length < fuel) :
    (stream (fuel + 1)).run ⟨tokensOf false v ++ [.streamEnd],[],[],[],[]⟩ =
      .ok (nodeOf v,⟨[.streamEnd],standardHandles,[],[],[]⟩) := by
  have hnode := takes_tokensOf false false v (fuel + 1) [.streamEnd] (by omega) (by simp)
  have hend (node : Node) : Takes (do
      skipEnds (fuel + 1)
      if (← Reader.peek) == .streamEnd then return node else throw .severalDocuments) [] [.streamEnd] node := fun _ => rfl
  have hrun := hnode.bind (f := fun node => do
    skipEnds (fuel + 1)
    if (← Reader.peek) == .streamEnd then return node else throw .severalDocuments) (hend _) ⟨[],standardHandles,[],[],[]⟩
  obtain ⟨token,tokens,htokens,hstart⟩ := tokensOf_starts false v
  rw [List.append_nil] at hrun
  rw [← hrun, htokens]
  cases hstart.resolve_right (by simp) <;> rfl

end Reader

theorem Document.parse_of_tokens {text : String} {v : Json} (h : tokens text.toList = .ok (tokensOf false v ++ [.streamEnd])) :
    Document.parse text = .ok ⟨nodeOf v,[]⟩ := by
  have hstream := Reader.stream_tokensOf v (4 * (tokensOf false v ++ [Token.streamEnd]).length + 7) (by simp; omega)
  rw [Document.parse, h]
  have hbind {rest : Node × Reader → Except YamlError Document} := congrArg (fun outcome => outcome >>= rest) hstream
  exact hbind.trans rfl

end VirtualShell.Yaml
