import Mathlib.Logic.Relation
import VirtualShell.Proofs.Yaml.Writing

/-!
The text of a value is taken apart into its tokens. Between two tokens a lexer stands before some content in some column,
and all that counts of it are the tokens so far and the columns of the open blocks.
-/
namespace VirtualShell.Yaml

/-- Something other than a blank, a line break or a comment comes next, or nothing. -/
def Content (rest : List Char) : Prop :=
  ∀ c ∈ rest.head?, isGap c = false ∧ isBreak c = false ∧ c ≠ '#' ∧ c ≠ '\ufeff'

theorem Content.parted {rest : List Char} (h : Content rest) : Parted rest := fun c hc => ⟨(h c hc).1,(h c hc).2.1⟩

theorem cons_endLine (c : Char) (cs : List Char) : ∃ more, endLine (c :: cs) = c :: more := by
  rw [endLine]
  split
  · exact ⟨cs,rfl⟩
  · exact ⟨cs ++ ['\n'],rfl⟩

theorem Written.content {n : Nat} {text : String} {style : Style} {written : List Char} (h : Written n text style written)
    (rest : List Char) : Content (endLine written ++ rest) := by
  obtain ⟨c,more,rfl,hc⟩ := h.exists_cons
  obtain ⟨more',hmore⟩ := cons_endLine c more
  rw [hmore]
  simpa [Content] using hc

namespace Lexer

/-- A lexer outside of all brackets. -/
def between (allowed : Bool) (tokens : List Token) (indents : List Nat) (candidate : Option Candidate) (cursor : Cursor) : Lexer :=
  ⟨cursor,tokens,tokens.length,indents,candidate,[],allowed,false⟩

/-- The lexer before its next token. -/
def next (lexer : Lexer) : Except YamlError Lexer := do
  let lexer ← (lexer.skipBlank (lexer.cursor.rest.length + 1)).dropStale
  return lexer.dedent lexer.cursor.column

theorem step_eq (lexer : Lexer) : lexer.step = lexer.next >>= readToken := by
  rw [step, next]
  cases (lexer.skipBlank (lexer.cursor.rest.length + 1)).dropStale <;> rfl

/-- With nothing but blanks in between, some content comes next, in a given column. -/
structure Stands (allowed : Bool) (tokens : List Token) (indents : List Nat) (rest : List Char) (column : Nat) (lexer : Lexer) :
    Prop where
  running : lexer.finished = false
  length : rest.length ≤ lexer.cursor.rest.length
  next : ∃ offset line, lexer.next = .ok ((between allowed tokens indents none ⟨rest,offset,line,column⟩).dedent column)

variable {allowed : Bool} {tokens : List Token} {indents : List Nat} {candidate : Option Candidate} {rest : List Char}
variable {offset line column k : Nat} {lexer : Lexer}

/-! ### Before the next token -/

theorem skipBlank_padding (h : Content rest) (k fuel : Nat) :
    (between allowed tokens indents candidate ⟨padding k ++ rest,offset,line,column⟩).skipBlank (fuel + 1) =
      between allowed tokens indents candidate ⟨rest,offset + k,line,column + k⟩ := by
  have hmark : ((padding k ++ rest).head? == some '\ufeff') = false := by
    cases k with
    | zero =>
      rw [beq_eq_false_iff_ne]
      exact fun hhead => (h _ hhead).2.2.2 rfl
    | succ k => rfl
  have hblanks (p : Char → Bool) (hp : ∀ c, p c = true → isGap c = true) (hspace : p ' ' = true) :
      (padding k ++ rest).takeWhile p = padding k := by
    rw [List.takeWhile_append_of_pos fun c hc => by rwa [List.eq_of_mem_replicate hc]]
    cases rest with
    | nil => simp
    | cons c rest =>
      have hc : p c = false := by
        rw [← Bool.not_eq_true]
        intro hc
        have := hp c hc
        rw [(h c rfl).1] at this
        cases this
      simp [hc]
  have hcomment : (rest.head? == some '#') = false := by
    rw [beq_eq_false_iff_ne]
    exact fun hhead => (h _ hhead).2.2.1 rfl
  have hbreak : rest.head?.any isBreak = false := by
    cases hhead : rest.head? with
    | none => rfl
    | some c => exact (h c hhead).2.1
  have hskip : Cursor.skipWhile ⟨padding k ++ rest,offset,line,column⟩ (fun c => c == ' ' || (!allowed && c == '\t')) =
      ⟨rest,offset + k,line,column + k⟩ := by
    have hgap : ∀ c, (c == ' ' || (!allowed && c == '\t')) = true → isGap c = true := fun c hc => by
      simp only [isGap, Bool.or_eq_true, Bool.and_eq_true] at hc ⊢
      exact hc.imp_right And.right
    rw [Cursor.skipWhile, hblanks _ hgap rfl, Cursor.skip_append]
    simp [padding]
  rw [skipBlank]
  simp only [between, inFlow, List.isEmpty_nil, Bool.not_true, Bool.false_or, hmark, Bool.and_false, Bool.false_eq_true, if_false,
    hskip, hcomment, hbreak]

theorem skipBlank_break (fuel : Nat) :
    (between allowed tokens indents candidate ⟨'\n' :: rest,offset,line,column⟩).skipBlank (fuel + 1) =
      (between true tokens indents candidate ⟨rest,offset + 1,line + 1,0⟩).skipBlank fuel := by
  have hskip : Cursor.skipWhile ⟨'\n' :: rest,offset,line,column⟩ (fun c => c == ' ' || (!allowed && c == '\t')) =
      ⟨'\n' :: rest,offset,line,column⟩ := by
    simp [Cursor.skipWhile, Cursor.skip]
  rw [skipBlank]
  simp only [between, inFlow, List.isEmpty_nil, Bool.not_true, Bool.false_or]
  simp [hskip, isBreak, Cursor.skipBreak, Cursor.takeBreak]

theorem dropStale_between (h : ∀ c ∈ candidate, c.required = false ∧ c.line < line) :
    (between allowed tokens indents candidate ⟨rest,offset,line,column⟩).dropStale =
      .ok (between allowed tokens indents none ⟨rest,offset,line,column⟩) := by
  cases candidate with
  | none => rfl
  | some c =>
    obtain ⟨hrequired,hline⟩ := h c rfl
    simp [dropStale, between, hrequired, isStale, hline]

theorem stands_padding (h : Content rest) (k : Nat) (hcandidate : ∀ c ∈ candidate, c.required = false ∧ c.line < line) :
    Stands allowed tokens indents rest (column + k) (between allowed tokens indents candidate ⟨padding k ++ rest,offset,line,column⟩) where
  running := rfl
  length := by simp [between]
  next := by
    refine ⟨offset + k,line,?_⟩
    rw [Lexer.next, skipBlank_padding h, dropStale_between hcandidate]
    rfl

theorem stands_line (h : Content rest) (hcandidate : ∀ c ∈ candidate, c.required = false ∧ c.line ≤ line) :
    Stands true tokens indents rest k (between allowed tokens indents candidate ⟨'\n' :: (padding k ++ rest),offset,line,column⟩) where
  running := rfl
  length := by
    simp [between]
    omega
  next := by
    refine ⟨offset + 1 + k,line + 1,?_⟩
    rw [Lexer.next, skipBlank_break, show (between _ _ _ _ _).cursor.rest.length = (padding k ++ rest).length + 1 from rfl,
      skipBlank_padding h, Nat.zero_add, dropStale_between fun c hc => (hcandidate c hc).imp_right Nat.lt_succ_of_le]
    rfl

theorem stands_blank (h : Content rest) : Stands allowed tokens indents rest (column + 1)
    (between allowed tokens indents none ⟨' ' :: rest,offset,line,column⟩) := stands_padding h 1 (by simp)

theorem stands_break (h : Content rest) : Stands true tokens indents rest k
    (between allowed tokens indents none ⟨'\n' :: (padding k ++ rest),offset,line,column⟩) := stands_line h (by simp)

/-! ### Blocks that open and close -/

/-- With a sign in a column a block stands open there, inside of the `outer` ones; the sign opens it unless it is open already. -/
inductive Opens (column : Nat) (sign : Token) (tokens : List Token) : List Nat → List Token → List Nat → Prop where
  | anew {indents : List Nat} (h : ∀ i ∈ indents.head?, i < column) : Opens column sign tokens indents (sign :: tokens) indents
  | already {outer : List Nat} : Opens column sign tokens (column :: outer) tokens outer

variable {cursor : Cursor} {sign : Token} {tokens' : List Token} {outer : List Nat} {i : Nat}

theorem Opens.head_le (h : Opens column sign tokens indents tokens' outer) : ∀ i ∈ indents.head?, i ≤ column := by
  cases h with
  | anew h => exact fun i hi => Nat.le_of_lt (h i hi)
  | already => simp

theorem insertAt_between (later tokens : List Token) :
    (between allowed (later ++ tokens) indents candidate cursor).insertAt tokens.length sign =
      between allowed (later ++ sign :: tokens) indents candidate cursor := by
  have hlater : (later ++ tokens).length - tokens.length = later.length := by simp
  rw [insertAt, between]
  dsimp only
  rw [hlater, List.take_left, List.drop_left, between]
  simp [Nat.add_assoc]

theorem indent_between (h : Opens column sign tokens indents tokens' outer) (later : List Token) :
    (between allowed (later ++ tokens) indents candidate cursor).indent column tokens.length sign =
      between allowed (later ++ tokens') (column :: outer) candidate cursor := by
  cases h with
  | anew h =>
    have hhead : indents.head?.any (column ≤ ·) = false := by
      cases indents with
      | nil => rfl
      | cons i indents => simpa using h i rfl
    rw [indent, insertAt_between, if_neg (by simp [between, inFlow, hhead])]
    rfl
  | already => rw [indent, if_pos (by simp [between])]

theorem dedent_between (h : ∀ i ∈ indents.head?, i ≤ column) :
    (between allowed tokens indents candidate cursor).dedent column = between allowed tokens indents candidate cursor := by
  cases indents with
  | nil => rfl
  | cons i indents =>
    have := h i rfl
    change closeBeyond column (i :: indents) _ = _
    rw [closeBeyond, if_neg (by omega)]

/-- A block ends in front of what stands further left. -/
theorem Stands.close (h : Stands allowed tokens (i :: indents) rest column lexer) (hi : column < i) :
    Stands allowed (.blockEnd :: tokens) indents rest column lexer where
  running := h.running
  length := h.length
  next := by
    obtain ⟨offset,line,hnext⟩ := h.next
    refine ⟨offset,line,hnext.trans ?_⟩
    change Except.ok (closeBeyond column (i :: indents) _) = _
    rw [closeBeyond, if_pos hi]
    rfl

/-! ### From token to token -/

/-- A token is read, which takes some of the text. -/
def Steps (lexer lexer' : Lexer) : Prop :=
  lexer.finished = false ∧ lexer.step = .ok lexer' ∧ lexer'.cursor.rest.length < lexer.cursor.rest.length

abbrev Reaches : Lexer → Lexer → Prop := Relation.ReflTransGen Steps

theorem Reaches.run {lexer' : Lexer} (h : Reaches lexer lexer') {fuel : Nat} (hfuel : lexer.cursor.rest.length < fuel) :
    ∃ fuel', lexer'.cursor.rest.length < fuel' ∧ lexer.run fuel = lexer'.run fuel' := by
  induction h using Relation.ReflTransGen.head_induction_on generalizing fuel with
  | refl => exact ⟨fuel,hfuel,rfl⟩
  | head hstep _ ih =>
    obtain ⟨hrunning,hstep,hlength⟩ := hstep
    obtain ⟨fuel,rfl⟩ := Nat.exists_eq_add_of_le' (show 1 ≤ fuel by omega)
    obtain ⟨fuel',hfuel',hrun⟩ := ih (show _ < fuel by omega)
    refine ⟨fuel',hfuel',?_⟩
    rw [Lexer.run, hrunning, hstep]
    exact hrun

theorem Stands.steps {P : Lexer → Prop} (h : Stands allowed tokens indents rest column lexer)
    (hcolumn : ∀ i ∈ indents.head?, i ≤ column)
    (hread : ∀ offset line, ∃ lexer', (between allowed tokens indents none ⟨rest,offset,line,column⟩).readToken = .ok lexer' ∧
      lexer'.cursor.rest.length < rest.length ∧ P lexer') : ∃ lexer', Steps lexer lexer' ∧ P lexer' := by
  obtain ⟨offset,line,hnext⟩ := h.next
  obtain ⟨lexer',hread,hlength,hP⟩ := hread offset line
  refine ⟨lexer',⟨h.running,?_,Nat.lt_of_lt_of_le hlength h.length⟩,hP⟩
  rw [step_eq, hnext, dedent_between hcolumn]
  exact hread

/-! ### Signs -/

theorem atMark_of_ne {c d : Char} (h : c ≠ d) : Cursor.atMark ⟨c :: rest,offset,line,column⟩ d = false := by
  rw [Cursor.atMark, Bool.and_eq_false_iff]
  right
  split
  · rename_i heq
    obtain rfl := (List.cons.inj heq).1
    simp [h]
  · rfl

theorem atMark_of_isSeparated {c d : Char} (h : isSeparated rest = true) (hd : isGap d = false ∧ isBreak d = false) :
    Cursor.atMark ⟨c :: rest,offset,line,column⟩ d = false := by
  rw [Cursor.atMark, Bool.and_eq_false_iff]
  right
  split
  · rename_i x y z rest' heq
    obtain rfl := (List.cons.inj heq).2
    have hy : y ≠ d := by
      rintro rfl
      simp [isSeparated, hd] at h
    simp [hy]
  · rfl

theorem readToken_entry (hrest : isSeparated rest = true) (h : Opens column .blockSequence tokens indents tokens' outer) :
    (between true tokens indents none ⟨'-' :: rest,offset,line,column⟩).readToken =
      .ok (between true (.entry :: tokens') (column :: outer) none ⟨rest,offset + 1,line,column + 1⟩) := by
  have hread : (between true tokens indents none ⟨'-' :: rest,offset,line,column⟩).readToken =
      (between true tokens indents none ⟨'-' :: rest,offset,line,column⟩).readEntry := by
    simp [readToken, between, atMark_of_isSeparated hrest, hrest, isGap, isBreak]
  rw [hread]
  change ((indent _ column tokens.length .blockSequence).dropCandidate >>= fun _ => _) = _
  rw [show between true tokens indents none _ = between true ([] ++ tokens) indents none _ from rfl, indent_between h]
  rfl

theorem readToken_key (hrest : isSeparated rest = true) (h : Opens column .blockMapping tokens indents tokens' outer) :
    (between true tokens indents none ⟨'?' :: rest,offset,line,column⟩).readToken =
      .ok (between true (.key :: tokens') (column :: outer) none ⟨rest,offset + 1,line,column + 1⟩) := by
  have hread : (between true tokens indents none ⟨'?' :: rest,offset,line,column⟩).readToken =
      (between true tokens indents none ⟨'?' :: rest,offset,line,column⟩).readKey := by
    simp [readToken, between, atMark_of_isSeparated hrest, hrest, isGap, isBreak]
  rw [hread]
  change ((indent _ column tokens.length .blockMapping).dropCandidate >>= fun _ => _) = _
  rw [show between true tokens indents none _ = between true ([] ++ tokens) indents none _ from rfl, indent_between h]
  rfl

theorem readToken_value (hrest : isSeparated rest = true) (allowed : Bool) (candidate : Option Candidate) :
    (between allowed tokens indents candidate ⟨':' :: rest,offset,line,column⟩).readToken =
      (between allowed tokens indents candidate ⟨':' :: rest,offset,line,column⟩).readValue := by
  simp [readToken, between, atMark_of_isSeparated hrest, hrest, isGap, isBreak]

/-- A colon behind a key that has a sign of its own. -/
theorem readToken_value_none (hrest : isSeparated rest = true) :
    (between true tokens (column :: outer) none ⟨':' :: rest,offset,line,column⟩).readToken =
      .ok (between true (.value :: tokens) (column :: outer) none ⟨rest,offset + 1,line,column + 1⟩) := by
  rw [readToken_value hrest]
  have hindent : indent (between true tokens (column :: outer) none ⟨':' :: rest,offset,line,column⟩) column tokens.length
      .blockMapping = between true tokens (column :: outer) none ⟨':' :: rest,offset,line,column⟩ := indent_between .already []
  have hread (lexer : Lexer) (hcandidate : lexer.candidate = none) (hallowed : lexer.keyAllowed = true) : lexer.readValue =
      .ok { (lexer.indent lexer.cursor.column lexer.count .blockMapping).sign 1 .value with
        keyAllowed := !(lexer.indent lexer.cursor.column lexer.count .blockMapping).inFlow } := by
    simp [readValue, hcandidate, hallowed]
  rw [hread _ rfl rfl]
  exact congrArg (fun lexer : Lexer => Except.ok { lexer.sign 1 .value with keyAllowed := !lexer.inFlow }) hindent

/-- The colon tells that a key started at the candidate. -/
theorem readToken_value_some (hrest : isSeparated rest = true) (h : Opens k .blockMapping tokens indents tokens' outer)
    (token : Token) (required : Bool) (start startLine : Nat) :
    (between false (token :: tokens) indents (some ⟨required,tokens.length,start,startLine,k⟩)
        ⟨':' :: rest,offset,line,column⟩).readToken =
      .ok (between false (.value :: token :: .key :: tokens') (k :: outer) none ⟨rest,offset + 1,line,column + 1⟩) := by
  rw [readToken_value hrest]
  change Except.ok { (indent (insertAt _ tokens.length .key) k tokens.length .blockMapping).sign 1 .value with
    candidate := none, keyAllowed := false } = _
  rw [show between false (token :: tokens) indents _ _ = between false ([token] ++ tokens) indents _ _ from rfl, insertAt_between,
    show [token] ++ .key :: tokens = [token, .key] ++ tokens from rfl, indent_between h]
  rfl

/-! ### Scalars -/

/-- The candidate for a key that starts here. -/
def noted (allowed : Bool) (tokens : List Token) (indents : List Nat) (cursor : Cursor) : Option Candidate :=
  if allowed then some ⟨indents.head? == some cursor.column,tokens.length,cursor.offset,cursor.line,cursor.column⟩ else none

theorem noteCandidate_between : (between allowed tokens indents none cursor).noteCandidate =
    .ok (between allowed tokens indents (noted allowed tokens indents cursor) cursor) := by
  cases allowed <;> rfl

theorem mem_noted {c : Candidate} (h : c ∈ noted allowed tokens indents cursor) :
    c.required = (indents.head? == some cursor.column) ∧ c.line = cursor.line ∧ c.offset = cursor.offset := by
  cases allowed with
  | false => cases h
  | true =>
    obtain rfl := Option.some.inj h
    exact ⟨rfl,rfl,rfl⟩

/-- No key has to start right of the innermost block. -/
theorem not_required (hcolumn : ∀ i ∈ indents.head?, i < cursor.column) {c : Candidate}
    (h : c ∈ noted allowed tokens indents cursor) : c.required = false := by
  rw [(mem_noted h).1, beq_eq_false_iff_ne]
  exact fun hhead => Nat.lt_irrefl _ (hcolumn _ hhead)

variable {token : Token} {next : Cursor}

theorem readAtom_between {read : Cursor → Except YamlError (Token × Cursor)} (h : read cursor = .ok (token,next)) :
    (between allowed tokens indents none cursor).readAtom read =
      .ok (between false (token :: tokens) indents (noted allowed tokens indents cursor) next) := by
  rw [readAtom, noteCandidate_between]
  change (read cursor >>= fun _ => _) = _
  rw [h]
  rfl

theorem readPlain_between {broken : Bool}
    (h : plainScalar false ((indents.head?.map (· + 1)).getD 0) cursor = .ok (token,broken,next)) :
    (between allowed tokens indents none cursor).readPlain =
      .ok (between broken (token :: tokens) indents (noted allowed tokens indents cursor) next) := by
  rw [readPlain, noteCandidate_between]
  change (plainScalar false ((indents.head?.map (· + 1)).getD 0) cursor >>= fun _ => _) = _
  rw [h]
  rfl

theorem readBlock_between (h : blockScalar false indents.head? cursor = .ok (token,next)) :
    (between allowed tokens indents none cursor).readBlock false = .ok (between true (token :: tokens) indents none next) := by
  change (blockScalar false indents.head? cursor >>= fun _ => _) = _
  rw [h]
  rfl

theorem readToken_quote {quote : Char} (h : quote = '\'' ∨ quote = '\"') :
    (between allowed tokens indents none ⟨quote :: rest,offset,line,column⟩).readToken =
      (between allowed tokens indents none ⟨quote :: rest,offset,line,column⟩).readAtom (quotedScalar quote) := by
  obtain rfl | rfl := h <;> simp [readToken, between, inFlow, atMark_of_ne]

theorem readToken_block : (between allowed tokens indents none ⟨'|' :: rest,offset,line,column⟩).readToken =
    (between allowed tokens indents none ⟨'|' :: rest,offset,line,column⟩).readBlock false := by
  simp [readToken, between, inFlow, atMark_of_ne]

theorem readToken_plain {cs stop : List Char} (h : Plain cs) (hstop : ∀ c ∈ stop.head?, c = ':' ∨ c = '\n') :
    (between allowed tokens indents none ⟨cs ++ stop,offset,line,column⟩).readToken =
      (between allowed tokens indents none ⟨cs ++ stop,offset,line,column⟩).readPlain := by
  have hmark := h.not_mark hstop offset line column
  rw [Cursor.atDocumentMark, Bool.or_eq_false_iff] at hmark
  obtain ⟨c,cs,rfl⟩ := List.exists_cons_of_ne_nil h.ne
  obtain ⟨hlead,hstart,_⟩ := hasSigns_cons h.signs
  obtain ⟨hbreak,htab⟩ := h.inLine c (by simp)
  have hgap : isGap c = false := by
    have hspace : c ≠ ' ' := fun he => h.first (by simp [he])
    simp [isGap, hspace, htab]
  have hsep (hc : c = '?' ∨ c = ':' ∨ c = '-') : isSeparated (cs ++ stop) = false := by
    have hc : (c == '?' || c == ':' || c == '-') = true := by simpa [or_assoc] using hc
    rw [hc, Bool.true_and] at hstart
    cases cs with
    | nil => cases hstart
    | cons d cs => exact hstart
  have hnext (h : isSeparated (cs ++ stop) = false) : (cs ++ stop).head?.any isGap = false := by
    cases hcs : cs ++ stop with
    | nil => rfl
    | cons d more =>
      rw [hcs, isSeparated, Bool.or_eq_false_iff] at h
      exact h.1
  rw [List.cons_append] at hmark ⊢
  by_cases hc : c = '?' ∨ c = ':' ∨ c = '-'
  · have hparted := hsep hc
    have hnext := hnext hparted
    obtain rfl | rfl | rfl := hc <;> simp only [readToken, between, inFlow, hmark, hparted, hnext] <;> simp
  · simp only [leadingSigns, List.contains_eq_mem, List.mem_cons, List.not_mem_nil, or_false, decide_eq_false_iff_not, not_or] at hlead hc
    have hsign : isSign c = false := by simp [isSign, hlead, hc]
    simp [readToken, between, inFlow, hmark, hlead, hc, hgap, hbreak, hsign]

/-- What comes in the next line, after `k` blanks: nothing that would be a part of a block further in, or the end of the text. -/
structure Follows (indents : List Nat) (k : Nat) (rest : List Char) : Prop where
  content : Content rest
  left : match indents with
    | [] => k = 0 ∧ rest = []
    | i :: _ => k ≤ i

/-- No candidate right of the innermost block outlives its line. -/
theorem noted_stale (hcolumn : ∀ i ∈ indents.head?, i < cursor.column) {line' : Nat} (hline : cursor.line < line') :
    ∀ c ∈ noted allowed tokens indents cursor, c.required = false ∧ c.line < line' := fun _ hc =>
  ⟨not_required hcolumn hc,(mem_noted hc).2.1 ▸ hline⟩

theorem readToken_quoted_line {quote : Char} {body : List Char} (hquote : quote = '\'' ∨ quote = '\"')
    (hcolumn : ∀ i ∈ indents.head?, i < column) (hcontent : Content rest)
    (hscalar : ∃ stop, stop.rest = '\n' :: (padding k ++ rest) ∧
      EndsAt (quote :: body) ⟨quote :: body ++ '\n' :: (padding k ++ rest),offset,line,column⟩ stop ∧
      quotedScalar quote ⟨quote :: body ++ '\n' :: (padding k ++ rest),offset,line,column⟩ = .ok (token,stop)) :
    ∃ lexer', (between allowed tokens indents none ⟨quote :: body ++ '\n' :: (padding k ++ rest),offset,line,column⟩).readToken =
        .ok lexer' ∧ lexer'.cursor.rest.length < (quote :: body ++ '\n' :: (padding k ++ rest)).length ∧
      Stands true (token :: tokens) indents rest k lexer' := by
  obtain ⟨⟨_,offset',line',column'⟩,rfl,hends,hread⟩ := hscalar
  refine ⟨_,(readToken_quote hquote).trans (readAtom_between hread),?_,?_⟩
  · simp only [between, List.length_cons, List.length_append]
    omega
  refine stands_line hcontent fun c hc => ?_
  obtain ⟨hrequired,hline⟩ := noted_stale hcolumn (Nat.lt_succ_self line) c hc
  exact ⟨hrequired,Nat.le_trans (Nat.le_of_lt_succ hline) hends.line⟩

/-- A scalar is read up to the end of its line, and a new line starts. -/
theorem readToken_line {n : Nat} {text : String} {style : Style} {written : List Char} (h : Written n text style written)
    (hn : n = indents.head?.getD 0 + 2) (hcolumn : ∀ i ∈ indents.head?, i < column) (hfollows : Follows indents k rest) :
    ∃ lexer', (between allowed tokens indents none ⟨endLine written ++ (padding k ++ rest),offset,line,column⟩).readToken = .ok lexer' ∧
      lexer'.cursor.rest.length < (endLine written ++ (padding k ++ rest)).length ∧
      Stands true (.scalar text style :: tokens) indents rest k lexer' := by
  have hparted := hfollows.content.parted
  cases h with
  | plain h =>
    have hend : endLine written ++ (padding k ++ rest) = written ++ '\n' :: (padding k ++ rest) := by
      rw [(Written.plain (n := n) h).endLine_eq (by simp), List.append_assoc, List.singleton_append]
    have hleft : k < (indents.head?.map (· + 1)).getD 0 ∨ (indents.head?.map (· + 1)).getD 0 = 0 ∧ k = 0 ∧ rest = [] := by
      have := hfollows.left
      cases indents with
      | nil => exact .inr ⟨rfl,this⟩
      | cons i indents => exact .inl (Nat.lt_succ_of_le this)
    have hright : (indents.head?.map (· + 1)).getD 0 ≤ column + 1 := by
      cases indents with
      | nil => exact Nat.zero_le _
      | cons i indents => exact Nat.succ_le_succ (Nat.le_of_lt (hcolumn i rfl))
    rw [hend]
    refine ⟨_,(readToken_plain h (by simp)).trans (readPlain_between (h.scalar_line hparted hleft hright offset line)),?_,?_⟩
    · simp [between]
      omega
    · exact stands_padding hfollows.content 0 (noted_stale hcolumn (Nat.lt_succ_self line))
  | @single cs h =>
    have hscalar := h.scalar (show 0 < n by omega) (show ('\n' :: (padding k ++ rest)).head? ≠ some '\'' by simp) offset line column
    rw [(Written.single h).endLine_eq (by simp), List.append_assoc, List.singleton_append]
    rw [singleQuoted_eq] at hscalar ⊢
    exact readToken_quoted_line (.inl rfl) hcolumn hfollows.content hscalar
  | double cs =>
    rw [(Written.double cs (n := n)).endLine_eq (by simp), List.append_assoc, List.singleton_append]
    exact readToken_quoted_line (.inr rfl) hcolumn hfollows.content (double_scalar cs _ offset line column)
  | @literal cs hbreak hchars =>
    have hk : k < n := by
      have := hfollows.left
      cases indents with
      | nil => omega
      | cons i indents =>
        simp at hn
        omega
    obtain ⟨offset',line',hline,hread⟩ := literal_scalar (List.ne_nil_of_mem hbreak) hchars hn hk hparted offset line column
    obtain ⟨more,hmore⟩ : ∃ more, endLine (literalBlock n cs) = '|' :: more := cons_endLine '|' _
    rw [hmore] at hread ⊢
    refine ⟨_,readToken_block.trans (readBlock_between hread),by simp [between]; omega,?_⟩
    exact stands_padding hfollows.content 0 (by simp)

theorem Stands.scalar {n : Nat} {text : String} {style : Style} {written : List Char} (hwritten : Written n text style written)
    (hn : n = indents.head?.getD 0 + 2) (hcolumn : ∀ i ∈ indents.head?, i < column) (hfollows : Follows indents k rest)
    (h : Stands allowed tokens indents (endLine written ++ (padding k ++ rest)) column lexer) :
    ∃ lexer', Steps lexer lexer' ∧ Stands true (.scalar text style :: tokens) indents rest k lexer' :=
  h.steps (fun i hi => Nat.le_of_lt (hcolumn i hi)) fun _ _ => readToken_line hwritten hn hcolumn hfollows

/-! ### Brackets with nothing between them -/

inductive Brackets : Char → Char → Token → Token → Prop where
  | sequence : Brackets '[' ']' .flowSequence .flowSequenceEnd
  | mapping : Brackets '\x7b' '\x7d' .flowMapping .flowMappingEnd

/-- The lexer behind an opening bracket. -/
def within (tokens : List Token) (indents : List Nat) (candidate : Option Candidate) (cursor : Cursor) : Lexer :=
  ⟨cursor,tokens,tokens.length,indents,none,[candidate],true,false⟩

variable {first last : Char} {opening closing : Token}

theorem readToken_opening (h : Brackets first last opening closing) :
    (between allowed tokens indents none ⟨first :: rest,offset,line,column⟩).readToken = .ok (within (opening :: tokens) indents
      (noted allowed tokens indents ⟨first :: rest,offset,line,column⟩) ⟨rest,offset + 1,line,column + 1⟩) := by
  have hread : (between allowed tokens indents none ⟨first :: rest,offset,line,column⟩).readToken =
      (between allowed tokens indents none ⟨first :: rest,offset,line,column⟩).openFlow opening := by
    cases h <;> simp [readToken, between, atMark_of_ne]
  rw [hread, openFlow, noteCandidate_between]
  rfl

theorem step_closing (h : Brackets first last opening closing)
    (hcandidate : ∀ c ∈ candidate, isStale ⟨last :: rest,offset,line,column⟩ c = false) :
    (within tokens indents candidate ⟨last :: rest,offset,line,column⟩).step =
      .ok (between false (closing :: tokens) indents candidate ⟨rest,offset + 1,line,column + 1⟩) := by
  have hskip (fuel : Nat) : (within tokens indents candidate ⟨last :: rest,offset,line,column⟩).skipBlank (fuel + 1) =
      within tokens indents candidate ⟨last :: rest,offset,line,column⟩ := by
    cases h <;> simp [skipBlank, within, Cursor.skipWhile, Cursor.skip, isBreak]
  have hdrop : (within tokens indents candidate ⟨last :: rest,offset,line,column⟩).dropStale =
      .ok (within tokens indents candidate ⟨last :: rest,offset,line,column⟩) := by
    cases candidate with
    | none => rfl
    | some c => simp [dropStale, within, hcandidate c rfl]
  have hread : (within tokens indents candidate ⟨last :: rest,offset,line,column⟩).readToken =
      (within tokens indents candidate ⟨last :: rest,offset,line,column⟩).closeFlow closing := by
    cases h <;> simp [readToken, within, atMark_of_ne]
  rw [step, hskip, hdrop]
  exact hread

/-- Brackets are read up to the end of their line. -/
theorem Stands.brackets (hbrackets : Brackets first last opening closing) (hcolumn : ∀ i ∈ indents.head?, i < column)
    (hcontent : Content rest) (h : Stands allowed tokens indents (first :: last :: '\n' :: (padding k ++ rest)) column lexer) :
    ∃ lexer', Reaches lexer lexer' ∧ Stands true (closing :: opening :: tokens) indents rest k lexer' := by
  obtain ⟨lexer',hfirst,hlast⟩ := h.steps (fun i hi => Nat.le_of_lt (hcolumn i hi)) (P := fun lexer' => ∃ lexer'',
      Steps lexer' lexer'' ∧ Stands true (closing :: opening :: tokens) indents rest k lexer'') fun offset line => by
    refine ⟨_,readToken_opening hbrackets,by simp [Lexer.within],_,⟨rfl,step_closing hbrackets fun c hc => ?_,?_⟩,?_⟩
    · obtain ⟨_,hline,hoffset⟩ := mem_noted hc
      simp [isStale, hline, hoffset]
    · simp [Lexer.within, between]
    · refine stands_line hcontent fun c hc => ?_
      obtain ⟨hrequired,hline⟩ := noted_stale hcolumn (Nat.lt_succ_self line) c hc
      exact ⟨hrequired,Nat.le_of_lt_succ hline⟩
  obtain ⟨lexer'',hlast,hstands⟩ := hlast
  exact ⟨lexer'',.head hfirst (.single hlast),hstands⟩

/-! ### Keys -/

theorem readToken_simple {n : Nat} {text : String} {style : Style} {written : List Char} (h : Written n text style written)
    (hn : 0 < n) (hkey : isSimpleKey text = true) (hrest : isSeparated rest = true) (hhead : ∀ i ∈ indents.head?, i ≤ column) :
    (between true tokens indents none ⟨written ++ ':' :: rest,offset,line,column⟩).readToken =
      .ok (between false (.scalar text style :: tokens) indents
        (some ⟨indents.head? == some column,tokens.length,offset,line,column⟩)
        ⟨':' :: rest,offset + written.length,line,column + written.length⟩) := by
  obtain ⟨hline,_,hstyle⟩ := h.simple hkey
  have hplace {stop : Cursor} (hstop : stop.rest = ':' :: rest) (hends : EndsAt written ⟨written ++ ':' :: rest,offset,line,column⟩ stop) :
      stop = ⟨':' :: rest,offset + written.length,line,column + written.length⟩ := by
    rw [hends.inLine hline, hstop]
    rfl
  cases h with
  | plain h =>
    have hright : (indents.head?.map (· + 1)).getD 0 ≤ column + 1 := by
      cases indents with
      | nil => exact Nat.zero_le _
      | cons i indents => exact Nat.succ_le_succ (hhead i rfl)
    exact (readToken_plain h (by simp)).trans (readPlain_between (h.scalar_key hrest hright offset line))
  | @single cs h =>
    obtain ⟨stop,hstop,hends,hread⟩ := h.scalar hn (show (':' :: rest).head? ≠ some '\'' by simp) offset line column
    obtain rfl := hplace hstop hends
    rw [singleQuoted_eq] at hread ⊢
    exact (readToken_quote (.inl rfl)).trans (readAtom_between hread)
  | double cs =>
    obtain ⟨stop,hstop,hends,hread⟩ := double_scalar cs (':' :: rest) offset line column
    obtain rfl := hplace hstop hends
    exact (readToken_quote (.inr rfl)).trans (readAtom_between hread)
  | literal => exact absurd rfl hstyle

/-- A lexer that stands before some content keeps a candidate that is not stale. -/
theorem next_between (hcontent : Content rest) (hhead : ∀ i ∈ indents.head?, i ≤ column)
    (hfresh : ∀ c ∈ candidate, isStale ⟨rest,offset,line,column⟩ c = false) :
    (between allowed tokens indents candidate ⟨rest,offset,line,column⟩).next =
      .ok (between allowed tokens indents candidate ⟨rest,offset,line,column⟩) := by
  have hskip : (between allowed tokens indents candidate ⟨rest,offset,line,column⟩).skipBlank (rest.length + 1) =
      between allowed tokens indents candidate ⟨rest,offset,line,column⟩ := skipBlank_padding hcontent 0 rest.length
  have hdrop : (between allowed tokens indents candidate ⟨rest,offset,line,column⟩).dropStale =
      .ok (between allowed tokens indents candidate ⟨rest,offset,line,column⟩) := by
    cases candidate with
    | none => rfl
    | some c => simp [dropStale, between, hfresh c rfl]
  change (skipBlank (rest.length + 1) _).dropStale >>= _ = _
  rw [hskip, hdrop]
  exact congrArg Except.ok (dedent_between hhead)

theorem step_value (hrest : isSeparated rest = true) (ho : Opens k .blockMapping tokens indents tokens' outer) (hcolumn : k ≤ column)
    {c : Candidate} (hc : c.tokens = tokens.length ∧ c.column = k) (hfresh : isStale ⟨':' :: rest,offset,line,column⟩ c = false) :
    (between false (token :: tokens) indents (some c) ⟨':' :: rest,offset,line,column⟩).step =
      .ok (between false (.value :: token :: .key :: tokens') (k :: outer) none ⟨rest,offset + 1,line,column + 1⟩) := by
  have hcontent : Content (':' :: rest) := by simp [Content, isGap, isBreak]
  have hhead : ∀ i ∈ indents.head?, i ≤ column := fun i hi => Nat.le_trans (ho.head_le i hi) hcolumn
  obtain ⟨required,_,start,startLine,_⟩ := c
  obtain ⟨rfl,rfl⟩ := hc
  rw [step_eq, next_between hcontent hhead (by simpa using hfresh)]
  exact readToken_value_some hrest ho token required start startLine

/-- A key that stands before its colon in one line. -/
theorem Stands.simpleKey {n : Nat} {key : String} {style : Style} {written : List Char} (hwritten : Written n key style written)
    (hn : 0 < n) (hkey : isSimpleKey key = true) (hrest : isSeparated rest = true)
    (ho : Opens column .blockMapping tokens indents tokens' outer)
    (h : Stands true tokens indents (written ++ ':' :: rest) column lexer) :
    ∃ offset line column', column < column' ∧ Reaches lexer
      (between false (.value :: .scalar key style :: .key :: tokens') (column :: outer) none ⟨rest,offset,line,column'⟩) := by
  obtain ⟨lexer',hfirst,hsecond⟩ := h.steps (P := fun lexer' => ∃ offset line column', column < column' ∧ Steps lexer'
      (between false (.value :: .scalar key style :: .key :: tokens') (column :: outer) none ⟨rest,offset,line,column'⟩))
    ho.head_le fun offset line => by
      obtain ⟨_,hlength,_⟩ := hwritten.simple hkey
      refine ⟨_,readToken_simple hwritten hn hkey hrest ho.head_le,?_,_,_,_,?_,rfl,step_value hrest ho (Nat.le_add_right _ _) ⟨rfl,rfl⟩ ?_,?_⟩
      · obtain ⟨c,more,rfl,_⟩ := hwritten.exists_cons
        simp only [between, List.length_cons, List.length_append]
        omega
      · omega
      · simp [isStale, hlength]
      · simp [between]
  obtain ⟨offset,line,column',hcolumn,hsecond⟩ := hsecond
  exact ⟨offset,line,column',hcolumn,.head hfirst (.single hsecond)⟩

/-- A key with a sign of its own, in a line of its own. -/
theorem Stands.complexKey {key : String} {style : Style} {written : List Char}
    (hwritten : Written (column + 2) key style written) (hrest : isSeparated rest = true)
    (ho : Opens column .blockMapping tokens indents tokens' outer)
    (h : Stands true tokens indents ('?' :: ' ' :: (endLine written ++ (padding column ++ ':' :: rest))) column lexer) :
    ∃ offset line, Reaches lexer (between true (.value :: .scalar key style :: .key :: tokens') (column :: outer) none
      ⟨rest,offset,line,column + 1⟩) := by
  obtain ⟨lexer₁,hsign,hstands⟩ := h.steps (P := Stands true (.key :: tokens') (column :: outer)
      (endLine written ++ (padding column ++ ':' :: rest)) (column + 1 + 1)) ho.head_le fun offset line =>
    ⟨_,readToken_key rfl ho,by simp [between],stands_blank (hwritten.content _)⟩
  have hfollows : Follows (column :: outer) column (':' :: rest) := ⟨by simp [Content, isGap, isBreak],Nat.le_refl _⟩
  obtain ⟨lexer₂,htext,hstands⟩ := hstands.scalar hwritten rfl (by rintro _ ⟨⟩; omega) hfollows
  obtain ⟨lexer₃,hcolon,offset,line,rfl⟩ := hstands.steps (P := fun lexer' => ∃ offset line, lexer' =
      between true (.value :: .scalar key style :: .key :: tokens') (column :: outer) none ⟨rest,offset,line,column + 1⟩) (by simp)
    fun offset line => ⟨_,readToken_value_none hrest,by simp [between],_,_,rfl⟩
  exact ⟨offset,line,.head hsign (.head htext (.single hcolon))⟩

end Lexer
end VirtualShell.Yaml
