import Mathlib.Data.List.Basic
import VirtualShell.Proofs.Agent.ToolCalls

/-!
The calls in a text. A text is divided in one way into calls and what stands before, between and behind them: each call
stands where the first complete one begins, and has its arguments if these are closed. Expanding the text makes the calls
of that division, each once and in order, puts what they answer in their places, and leaves the rest as it is.
-/
namespace VirtualShell.Agent

/-! ### Calls as they are written -/

/-- A call in a text: its name in brackets, and its arguments in parentheses, if it has any. -/
structure Written where
  name : List Char
  arguments : Option (List Char)
  deriving DecidableEq

namespace Written

/-- How arguments are written behind a name. -/
def bracketed : Option (List Char) → List Char
  | none => []
  | some arguments => '(' :: (arguments ++ [')'])

def text (written : Written) : List Char := callMark ++ (written.name ++ ']' :: bracketed written.arguments)

/-- What is called: without arguments it is called with an empty text. -/
def call (written : Written) : ToolCall := ⟨.ofList written.name,.ofList (written.arguments.getD [])⟩

/-- The name is not empty, and the first closing signs are those of the name and of the arguments. -/
structure Proper (written : Written) : Prop where
  named : written.name ≠ []
  name : ']' ∉ written.name
  arguments : ∀ arguments ∈ written.arguments, ')' ∉ arguments

/-- The call with which a text begins, and what follows it: what could be its arguments belongs to it. -/
structure Heads (written : Written) (cs after : List Char) : Prop extends Proper written where
  text : cs = written.text ++ after
  greedy : written.arguments = none → ∀ arguments more, ')' ∉ arguments → after ≠ '(' :: (arguments ++ ')' :: more)

end Written

/-- A complete call stands at the start of a text. -/
def Begins (cs : List Char) : Prop := ∃ written after, Written.Proper written ∧ cs = written.text ++ after

/-- A call with what stands before it, behind the call before. -/
structure Passage where
  literal : List Char
  written : Written
  deriving DecidableEq

def Passage.text (passage : Passage) : List Char := passage.literal ++ passage.written.text

def Passage.call (passage : Passage) : ToolCall := passage.written.call

/-- A text divided into passages and what stands behind the last call. No call begins before the one of its passage. -/
inductive Divides : List Char → List Passage → List Char → Prop
  | rest {cs : List Char} (hnone : ∀ i, ¬Begins (cs.drop i)) : Divides cs [] cs
  | passage {cs literal call after rest : List Char} {written : Written} {passages : List Passage} (hcs : cs = literal ++ call)
      (hfirst : ∀ i < literal.length, ¬Begins (cs.drop i)) (hcall : written.Heads call after)
      (hrest : Divides after passages rest) : Divides cs (⟨literal,written⟩ :: passages) rest

/-! ### Reading a call -/

variable {close : Char} {cs before after name rest : List Char} {written other : Written}

private theorem upTo?_cons (close c : Char) (cs : List Char) : upTo? close (c :: cs) =
    if c = close then some ([],cs) else (upTo? close cs).map fun (before,after) => (c :: before,after) := by
  by_cases h : c = close
  · simp [upTo?, h]
  · simp only [upTo?, bne_iff_ne, ne_eq, h, not_false_eq_true, List.dropWhile_cons_of_pos, List.takeWhile_cons_of_pos, if_false]
    cases cs.dropWhile (· != close) <;> rfl

theorem upTo?_eq_some_iff : upTo? close cs = some (before,after) ↔ cs = before ++ close :: after ∧ close ∉ before := by
  induction cs generalizing before with
  | nil => simp [upTo?]
  | cons c cs ih =>
    rw [upTo?_cons]
    split
    · rename_i h
      cases before with
      | nil => simp [h]
      | cons d before =>
        simp [h]
        grind
    · rename_i h
      cases before with
      | nil => simp [h]
      | cons d before =>
        simp [ih]
        grind

theorem upTo?_eq_none_iff : upTo? close cs = none ↔ close ∉ cs := by
  induction cs with
  | nil => simp [upTo?]
  | cons c cs ih =>
    rw [upTo?_cons]
    split
    · rename_i h
      simp [h]
    · rename_i h
      rw [Option.map_eq_none_iff, ih, List.mem_cons, not_or]
      exact ⟨fun hc => ⟨fun he => h he.symm,hc⟩,And.right⟩

/-- The arguments behind a name, if they are closed, and what follows. -/
private def argumentsAt (cs : List Char) : Option (List Char) × List Char :=
  match cs with
  | '(' :: inner =>
    match upTo? ')' inner with
    | some (arguments,after) => (some arguments,after)
    | none => (none,cs)
  | _ => (none,cs)

private theorem argumentsAt_open (inner : List Char) : argumentsAt ('(' :: inner) =
    match upTo? ')' inner with
    | some (arguments,after) => (some arguments,after)
    | none => (none,'(' :: inner) := rfl

private theorem argumentsAt_shut (h : ∀ inner, cs ≠ '(' :: inner) : argumentsAt cs = (none,cs) := by
  unfold argumentsAt
  split
  · exact absurd rfl (h _)
  · rfl

private theorem argumentsAt_eq_iff {arguments : Option (List Char)} : argumentsAt cs = (arguments,after) ↔
    cs = Written.bracketed arguments ++ after ∧ (∀ inner ∈ arguments, ')' ∉ inner) ∧
      (arguments = none → ∀ inner more, ')' ∉ inner → after ≠ '(' :: (inner ++ ')' :: more)) := by
  have hclosed (inner more : List Char) : Written.bracketed (some inner) ++ more = '(' :: (inner ++ ')' :: more) := by
    simp [Written.bracketed]
  constructor
  · intro h
    cases cs with
    | nil =>
      obtain ⟨rfl,rfl⟩ := Prod.mk.inj h
      exact ⟨rfl,nofun,fun _ _ _ _ => nofun⟩
    | cons c inner =>
      by_cases hopen : c = '('
      · subst hopen
        rw [argumentsAt_open] at h
        cases hfound : upTo? ')' inner with
        | none =>
          rw [hfound] at h
          obtain ⟨rfl,rfl⟩ := Prod.mk.inj h
          refine ⟨rfl,nofun,fun _ args more _ heq => ?_⟩
          rw [(List.cons.inj heq).2, upTo?_eq_none_iff] at hfound
          simp at hfound
        | some found =>
          obtain ⟨args,more⟩ := found
          rw [hfound] at h
          obtain ⟨rfl,rfl⟩ := Prod.mk.inj h
          obtain ⟨rfl,hfree⟩ := upTo?_eq_some_iff.mp hfound
          refine ⟨(hclosed args more).symm,fun other ho => ?_,nofun⟩
          rwa [← Option.some.inj ho]
      · rw [argumentsAt_shut fun _ heq => hopen (List.cons.inj heq).1] at h
        obtain ⟨rfl,rfl⟩ := Prod.mk.inj h
        exact ⟨rfl,nofun,fun _ args more _ heq => hopen (List.cons.inj heq).1⟩
  · rintro ⟨rfl,hfree,hgreedy⟩
    cases arguments with
    | none =>
      change argumentsAt after = (none,after)
      by_cases hopen : ∃ inner, after = '(' :: inner
      · obtain ⟨inner,rfl⟩ := hopen
        rw [argumentsAt_open]
        cases hfound : upTo? ')' inner with
        | none => rfl
        | some found =>
          obtain ⟨hinner,hargs⟩ := upTo?_eq_some_iff.mp hfound
          exact absurd (congrArg ('(' :: ·) hinner) (hgreedy rfl _ _ hargs)
      · exact argumentsAt_shut (not_exists.mp hopen)
    | some inner =>
      have hfound : upTo? ')' (inner ++ ')' :: after) = some (inner,after) :=
        upTo?_eq_some_iff.mpr ⟨rfl,hfree inner rfl⟩
      rw [hclosed, argumentsAt_open, hfound]

/-- A call that is closed behind its name is read with what could be its arguments. -/
private theorem callAt?_mark (hname : name ≠ []) (hfree : ']' ∉ name) :
    callAt? (callMark ++ (name ++ ']' :: rest)) =
      some (⟨.ofList name,.ofList ((argumentsAt rest).1.getD [])⟩,(argumentsAt rest).2) := by
  have hmark : callMark.isPrefixOf (callMark ++ (name ++ ']' :: rest)) = true :=
    List.isPrefixOf_iff_prefix.mpr (List.prefix_append _ _)
  have hdrop : (callMark ++ (name ++ ']' :: rest)).drop callMark.length = name ++ ']' :: rest := List.drop_left
  have hfound : upTo? ']' (name ++ ']' :: rest) = some (name,rest) := upTo?_eq_some_iff.mpr ⟨rfl,hfree⟩
  obtain ⟨first,others,rfl⟩ := List.exists_cons_of_ne_nil hname
  rw [callAt?, hmark, hdrop, hfound]
  simp only [Bool.not_true, Bool.false_eq_true, if_false]
  split
  · rename_i inner
    rw [argumentsAt_open]
    cases upTo? ')' inner <;> rfl
  · rename_i hopen
    rw [argumentsAt_shut hopen]
    rfl

namespace Written

/-- Where a text begins with a call: behind the mark and the name. -/
theorem Heads.iff : written.Heads cs after ↔ written.name ≠ [] ∧ ']' ∉ written.name ∧
    ∃ rest, cs = callMark ++ (written.name ++ ']' :: rest) ∧ argumentsAt rest = (written.arguments,after) := by
  have htext (rest : List Char) :
      written.text ++ rest = callMark ++ (written.name ++ ']' :: (bracketed written.arguments ++ rest)) := by
    simp [Written.text]
  constructor
  · rintro ⟨⟨hnamed,hname,hargs⟩,htext',hgreedy⟩
    exact ⟨hnamed,hname,_,htext'.trans (htext after),argumentsAt_eq_iff.mpr ⟨rfl,hargs,hgreedy⟩⟩
  · rintro ⟨hnamed,hname,rest,rfl,hrest⟩
    obtain ⟨rfl,hargs,hgreedy⟩ := argumentsAt_eq_iff.mp hrest
    exact ⟨⟨hnamed,hname,hargs⟩,(htext after).symm,hgreedy⟩

theorem Heads.callAt? (h : written.Heads cs after) : callAt? cs = some (written.call,after) := by
  obtain ⟨hnamed,hname,rest,rfl,hrest⟩ := Heads.iff.mp h
  rw [callAt?_mark hnamed hname, hrest]
  rfl

theorem Heads.unique {later : List Char} (h : written.Heads cs after) (ho : other.Heads cs later) :
    other = written ∧ later = after := by
  obtain ⟨hnamed,hname,rest,hcs,hrest⟩ := Heads.iff.mp h
  obtain ⟨hnamed',hname',rest',hcs',hrest'⟩ := Heads.iff.mp ho
  have hsame : other.name ++ ']' :: rest' = written.name ++ ']' :: rest := List.append_cancel_left (hcs'.symm.trans hcs)
  have hread := upTo?_eq_some_iff.mpr ⟨hsame.symm,hname'⟩
  rw [upTo?_eq_some_iff.mpr ⟨rfl,hname⟩, Option.some.injEq, Prod.mk.injEq] at hread
  obtain ⟨hnames,rfl⟩ := hread
  rw [hrest, Prod.mk.injEq] at hrest'
  obtain ⟨name,arguments⟩ := written
  obtain ⟨name',arguments'⟩ := other
  obtain rfl : name = name' := hnames
  obtain rfl : arguments = arguments' := hrest'.1
  exact ⟨rfl,hrest'.2.symm⟩

theorem Heads.begins (h : written.Heads cs after) : Begins cs := ⟨written,after,h.toProper,h.text⟩

theorem Heads.length_lt (h : written.Heads cs after) : after.length < cs.length := by
  have hlength := congrArg List.length h.text
  simp only [Written.text, callMark, List.length_append, List.length_cons] at hlength
  omega

end Written

theorem Begins.exists_heads (h : Begins cs) : ∃ written after, Written.Heads written cs after := by
  obtain ⟨⟨name,arguments⟩,after,⟨hnamed,hname,_⟩,rfl⟩ := h
  let rest := Written.bracketed arguments ++ after
  refine ⟨⟨name,(argumentsAt rest).1⟩,(argumentsAt rest).2,Written.Heads.iff.mpr ⟨hnamed,hname,rest,?_,rfl⟩⟩
  simp [Written.text, rest]

/-- What is read as a call is one that is complete. -/
private theorem begins_of_callAt? (h : callAt? cs ≠ none) : Begins cs := by
  obtain ⟨read,hread⟩ := Option.ne_none_iff_exists'.mp h
  rw [callAt?] at hread
  split at hread
  · cases hread
  · rename_i hmark
    obtain ⟨inner,rfl⟩ : callMark <+: cs := by simpa using hmark
    rw [List.drop_left] at hread
    split at hread
    · cases hread
    · cases hread
    · rename_i name rest hnamed hfound
      obtain ⟨rfl,hname⟩ := upTo?_eq_some_iff.mp hfound
      exact ⟨⟨name,none⟩,rest,⟨hnamed,hname,nofun⟩,by simp [Written.text, Written.bracketed]⟩

theorem callAt?_eq_none_iff : callAt? cs = none ↔ ¬Begins cs := by
  constructor
  · intro hnone hbegins
    obtain ⟨written,after,hheads⟩ := hbegins.exists_heads
    rw [hheads.callAt?] at hnone
    cases hnone
  · intro hno
    by_contra hsome
    exact hno (begins_of_callAt? hsome)

theorem not_begins_nil : ¬Begins [] := by
  rintro ⟨written,after,_,htext⟩
  simp [Written.text, callMark] at htext

/-! ### The division of a text -/

namespace Divides
variable {passages : List Passage}

/-- The passages and the rest make up the text. -/
theorem text_eq (h : Divides cs passages rest) : cs = passages.flatMap Passage.text ++ rest := by
  induction h with
  | rest hnone => rfl
  | passage hcs hfirst hcall hrest ih => simp [hcs, hcall.text, Passage.text, ← ih]

/-- There is no passage if no call begins anywhere. -/
theorem eq_nil_iff (h : Divides cs passages rest) : passages = [] ↔ ∀ i, ¬Begins (cs.drop i) := by
  cases h with
  | rest hnone => exact ⟨fun _ => hnone,fun _ => rfl⟩
  | @passage _ literal call _ _ _ _ hcs _ hcall =>
    refine ⟨nofun,fun hnone => absurd hcall.begins ?_⟩
    have hno := hnone literal.length
    rwa [hcs, List.drop_left] at hno

/-- Of two divisions none has its first call before the other. -/
private theorem length_le {literal literal' call' after : List Char} (hcs' : cs = literal' ++ call')
    (hfirst : ∀ i < literal.length, ¬Begins (cs.drop i)) (hcall : written.Heads call' after) :
    literal.length ≤ literal'.length := by
  by_contra hlt
  have hno := hfirst literal'.length (by omega)
  rw [hcs', List.drop_left] at hno
  exact hno hcall.begins

theorem unique {others : List Passage} {last : List Char} (h : Divides cs passages rest) (ho : Divides cs others last) :
    others = passages ∧ last = rest := by
  induction h generalizing others last with
  | rest hnone =>
    obtain rfl := ho.eq_nil_iff.mpr hnone
    cases ho
    exact ⟨rfl,rfl⟩
  | @passage cs literal call after rest written passages hcs hfirst hcall hrest ih =>
    cases ho with
    | rest hnone =>
      have hno := hnone literal.length
      rw [hcs, List.drop_left] at hno
      exact absurd hcall.begins hno
    | passage hcs' hfirst' hcall' hrest' =>
      have hlength := Nat.le_antisymm (length_le hcs' hfirst hcall') (length_le hcs hfirst' hcall)
      obtain ⟨rfl,rfl⟩ := List.append_inj (hcs.symm.trans hcs') hlength
      obtain ⟨rfl,rfl⟩ := hcall.unique hcall'
      obtain ⟨rfl,rfl⟩ := ih hrest'
      exact ⟨rfl,rfl⟩

end Divides

/-- Every text can be divided. -/
theorem exists_divides (cs : List Char) : ∃ passages rest, Divides cs passages rest := by
  induction hlength : cs.length using Nat.strong_induction_on generalizing cs with
  | _ n ih =>
    subst hlength
    by_cases hbegins : Begins cs
    · obtain ⟨written,after,hheads⟩ := hbegins.exists_heads
      obtain ⟨passages,rest,hrest⟩ := ih _ hheads.length_lt after rfl
      have hcs : cs = [] ++ cs := rfl
      exact ⟨_,_,.passage hcs (by simp) hheads hrest⟩
    · cases cs with
      | nil => exact ⟨[],[],.rest fun i => by simpa using not_begins_nil⟩
      | cons c cs =>
        obtain ⟨passages,rest,hrest⟩ := ih cs.length (by simp) cs rfl
        cases hrest with
        | rest hnone =>
          refine ⟨[],c :: cs,.rest fun i => ?_⟩
          cases i with
          | zero => exact hbegins
          | succ i => exact hnone i
        | @passage _ literal call after _ written passages hcs hfirst hcall hrest =>
          refine ⟨⟨c :: literal,written⟩ :: passages,rest,.passage (by rw [hcs, List.cons_append]) (fun i hi => ?_) hcall hrest⟩
          cases i with
          | zero => exact hbegins
          | succ i => exact hfirst i (by simpa using hi)

/-- A division, piece by piece. -/
def piecesOf (passages : List Passage) (rest : List Char) : List Piece :=
  passages.flatMap (fun passage => passage.literal.map .char ++ [.call passage.call]) ++ rest.map .char

/-- Where no call begins, characters are read one after the other. -/
private theorem piecesWithin_literal {literal : List Char}
    (hfirst : ∀ i < literal.length, ¬Begins ((literal ++ cs).drop i)) (fuel : Nat) :
    piecesWithin (literal.length + fuel) (literal ++ cs) = literal.map .char ++ piecesWithin fuel cs := by
  induction literal with
  | nil => simp
  | cons c literal ih =>
    have hnone : callAt? (c :: (literal ++ cs)) = none := callAt?_eq_none_iff.mpr (hfirst 0 (by simp))
    have hrest := ih fun i hi => hfirst (i + 1) (by simpa using hi)
    rw [List.length_cons, Nat.add_right_comm, List.cons_append, piecesWithin, hnone]
    dsimp only
    rw [hrest, List.map_cons, List.cons_append]

/-- What is read of a text is its division. -/
theorem Divides.piecesWithin_eq {passages : List Passage} (h : Divides cs passages rest) {fuel : Nat}
    (hfuel : cs.length ≤ fuel) :
    piecesWithin fuel cs = piecesOf passages rest := by
  induction h generalizing fuel with
  | @rest cs hnone =>
    obtain ⟨more,rfl⟩ := Nat.exists_eq_add_of_le hfuel
    have hread : piecesWithin (cs.length + more) (cs ++ []) = cs.map .char ++ piecesWithin more [] :=
      piecesWithin_literal (by simpa using fun i _ => hnone i) more
    rw [List.append_nil] at hread
    rw [hread]
    cases more <;> simp [piecesWithin, piecesOf]
  | @passage cs literal call after rest written passages hcs hfirst hcall hrest ih =>
    subst hcs
    have hlt := hcall.length_lt
    rw [List.length_append] at hfuel
    obtain ⟨more,rfl⟩ : ∃ more, fuel = literal.length + (more + 1) := ⟨fuel - literal.length - 1,by omega⟩
    obtain ⟨c,others,rfl⟩ := List.exists_cons_of_length_pos (Nat.zero_lt_of_lt hlt)
    rw [piecesWithin_literal hfirst, piecesWithin, hcall.callAt?]
    dsimp only
    rw [ih (by omega)]
    simp [piecesOf, Passage.call]

theorem Divides.pieces_eq {passages : List Passage} {text : String} (h : Divides text.toList passages rest) :
    pieces text = piecesOf passages rest := h.piecesWithin_eq le_rfl

private theorem calls_of_chars (literal : List Char) : (literal.map Piece.char).filterMap Piece.call? = [] := by
  induction literal with
  | nil => rfl
  | cons c literal ih => exact ih

private theorem calls_piecesOf (passages : List Passage) (rest : List Char) :
    (piecesOf passages rest).filterMap Piece.call? = passages.map Passage.call := by
  induction passages with
  | nil => exact calls_of_chars rest
  | cons passage passages ih =>
    have hpieces : piecesOf (passage :: passages) rest =
        passage.literal.map Piece.char ++ .call passage.call :: piecesOf passages rest := by simp [piecesOf]
    rw [hpieces, List.filterMap_append, calls_of_chars, List.nil_append, List.map_cons, ← ih]
    rfl

theorem Divides.callsIn_eq {passages : List Passage} {text : String} (h : Divides text.toList passages rest) :
    callsIn text = passages.map Passage.call := by
  rw [callsIn, h.pieces_eq, calls_piecesOf]

/-! ### Making the calls -/

/-- The text with answers in the places of its calls. -/
def weave (passages : List Passage) (answers : List (Except AgentError String)) (rest : List Char) : List Char :=
  (List.zipWith (fun passage answer => passage.literal ++ (callResult passage.call answer).toList) passages answers).flatten ++
    rest

section
variable {σ : Type} (run : ToolCall → StateM σ (Except AgentError String))

private theorem expandPieces_literal (literal : List Char) (ps : List Piece) :
    expandPieces run (literal.map .char ++ ps) = (literal ++ ·) <$> expandPieces run ps := by
  induction literal with
  | nil => simp
  | cons c literal ih =>
    rw [List.map_cons, List.cons_append, expandPieces, ih, bind_map_left]
    rfl

/-- Expanding makes the calls one after the other, and then puts the text together. -/
private theorem expandPieces_piecesOf (passages : List Passage) (rest : List Char) : expandPieces run (piecesOf passages rest) =
    (fun answers => weave passages answers rest) <$> (passages.map Passage.call).mapM run := by
  induction passages with
  | nil =>
    have hliteral := expandPieces_literal run rest []
    rw [List.append_nil] at hliteral
    simp only [piecesOf, List.flatMap_nil, List.nil_append, hliteral]
    simp [weave, expandPieces]
  | cons passage passages ih =>
    have hpieces : piecesOf (passage :: passages) rest =
        passage.literal.map Piece.char ++ .call passage.call :: piecesOf passages rest := by simp [piecesOf]
    rw [hpieces, expandPieces_literal, expandPieces, ih]
    simp [weave, List.mapM_cons]

/-- Notes every call that is made. -/
def noting (call : ToolCall) : StateM (σ × List ToolCall) (Except AgentError String) := fun (s,made) =>
  let (answer,s) := (run call).run s
  (answer,s,made ++ [call])

private theorem run_noting (call : ToolCall) (s : σ) (made : List ToolCall) :
    (noting run call).run (s,made) = (((run call).run s).1,((run call).run s).2,made ++ [call]) := rfl

/-- What is made is noted, each call once and in order, and nothing else changes. -/
private theorem mapM_noting (calls : List ToolCall) (s : σ) (made : List ToolCall) : (calls.mapM (noting run)).run (s,made) =
    (((calls.mapM run).run s).1,((calls.mapM run).run s).2,made ++ calls) := by
  induction calls generalizing s made with
  | nil => rw [List.append_nil]; rfl
  | cons call calls ih =>
    have hmade : made ++ [call] ++ calls = made ++ call :: calls := by simp
    rw [List.mapM_cons, List.mapM_cons, StateT.run_bind, StateT.run_bind, run_noting]
    simp only [StateT.run_bind, StateT.run_pure, ih, ← hmade]
    rfl

private theorem mapM_length (calls : List ToolCall) (s : σ) : ((calls.mapM run).run s).1.length = calls.length := by
  induction calls generalizing s with
  | nil => rfl
  | cons call calls ih =>
    rw [List.mapM_cons, StateT.run_bind]
    exact congrArg (· + 1) (ih _)

theorem Divides.run_expand {passages : List Passage} {text : String} (h : Divides text.toList passages rest) (s : σ) :
    (expand run text).run s = (.ofList (weave passages (((passages.map Passage.call).mapM run).run s).1 rest),
      (((passages.map Passage.call).mapM run).run s).2) := by
  rw [expand, h.pieces_eq, expandPieces_piecesOf]
  rfl

/-- A text in which no call begins stays as it is. -/
private theorem Divides.expand_rest {text : String} (h : Divides text.toList [] rest) : expand run text = pure text := by
  have htext : rest = text.toList := h.text_eq.symm
  funext s
  change (expand run text).run s = (text,s)
  rw [h.run_expand run s, htext]
  exact congrArg (·,s) String.ofList_toList

/-- Looks for the mark of a call before anything else. -/
def expandMarked (text : String) : StateM σ String :=
  if Text.holds callMark text.toList then expand run text else return text

/-- A call begins with its mark. -/
private theorem not_begins_of_holds (h : Text.holds callMark cs = false) (i : Nat) : ¬Begins (cs.drop i) := by
  induction cs generalizing i with
  | nil => simpa using not_begins_nil
  | cons c cs ih =>
    rw [Text.holds, Bool.or_eq_false_iff] at h
    cases i with
    | zero =>
      rintro ⟨written,after,_,htext⟩
      have hmark : callMark <+: c :: cs := ⟨_,(List.append_assoc ..).symm.trans htext.symm⟩
      rw [← List.isPrefixOf_iff_prefix, h.1] at hmark
      cases hmark
    | succ i => exact ih h.2 i

private theorem expandMarked_eq (text : String) : expandMarked run text = expand run text := by
  unfold expandMarked
  split
  · rfl
  · rename_i hmark
    have hnone := Divides.rest (not_begins_of_holds (Bool.eq_false_iff.mpr hmark))
    exact (hnone.expand_rest run).symm

end

/-- Expanding is a single pass. A text has one division into calls and what stands around them, whoever makes the calls:
these are made, each once and in order, what they answer stands in their places, and a text without a call stays. -/
theorem expand_single_pass (text : String) : ∃ passages rest, Divides text.toList passages rest ∧
    (∀ others last, Divides text.toList others last → others = passages ∧ last = rest) ∧
    text.toList = passages.flatMap Passage.text ++ rest ∧ callsIn text = passages.map Passage.call ∧
    (passages = [] ↔ ∀ i, ¬Begins (text.toList.drop i)) ∧
    ∀ {σ : Type} (run : ToolCall → StateM σ (Except AgentError String)) (s : σ),
      (∃ answers after, ((passages.map Passage.call).mapM run).run s = (answers,after) ∧ answers.length = passages.length ∧
        (expand run text).run s = (.ofList (weave passages answers rest),after) ∧
        ∀ made, (expand (noting run) text).run (s,made) =
          (.ofList (weave passages answers rest),after,made ++ passages.map Passage.call)) ∧
      (passages = [] → (expand run text).run s = (text,s)) ∧ expandMarked run text = expand run text := by
  obtain ⟨passages,rest,h⟩ := exists_divides text.toList
  refine ⟨passages,rest,h,fun _ _ => h.unique,h.text_eq,h.callsIn_eq,h.eq_nil_iff,fun run s => ⟨?_,?_,expandMarked_eq run text⟩⟩
  · have hlength := mapM_length run (passages.map Passage.call) s
    rw [List.length_map] at hlength
    refine ⟨_,_,(Prod.eta (((passages.map Passage.call).mapM run).run s)).symm,hlength,h.run_expand run s,fun made => ?_⟩
    rw [h.run_expand (noting run), mapM_noting]
  · rintro rfl
    rw [h.expand_rest run]
    rfl

/-- Counts the calls. -/
def counted (_ : ToolCall) : StateM Nat (Except AgentError String) := fun n => (.ok "TOOL[rm](/)",n + 1)

/-- What is not closed, or has no name, is not a call. -/
def unclosed : String := "TOOL[] and TOOL[rm"

/-- A name may hold the mark of a call, and arguments that are not closed are none. -/
def nested : String := "TOOL[TOOL[ls](-l),TOOL[pwd](x and TOOL[]"

private theorem rest_of_reads {cs : List Char} (h : ∀ i < cs.length, callAt? (cs.drop i) = none) : Divides cs [] cs := by
  refine .rest fun i => callAt?_eq_none_iff.mp ?_
  rcases Nat.lt_or_ge i cs.length with hi | hi
  · exact h i hi
  · rw [List.drop_eq_nil_of_le hi]
    rfl

private theorem unclosed_divides : Divides unclosed.toList [] unclosed.toList := rest_of_reads (by decide)

private theorem nested_divides : Divides nested.toList [⟨[],⟨"TOOL[ls".toList,some "-l".toList⟩⟩,⟨[','],⟨"pwd".toList,none⟩⟩]
    "(x and TOOL[]".toList := by
  have hlist : (Written.mk "TOOL[ls".toList (some "-l".toList)).Heads nested.toList ",TOOL[pwd](x and TOOL[]".toList :=
    Written.Heads.iff.mpr ⟨by decide,by decide,"(-l),TOOL[pwd](x and TOOL[]".toList,by decide,by decide⟩
  have hplace : (Written.mk "pwd".toList none).Heads "TOOL[pwd](x and TOOL[]".toList "(x and TOOL[]".toList :=
    Written.Heads.iff.mpr ⟨by decide,by decide,"(x and TOOL[]".toList,by decide,by decide⟩
  have hcomma : ∀ i < [','].length, ¬Begins (",TOOL[pwd](x and TOOL[]".toList.drop i) := by
    intro i hi
    obtain rfl : i = 0 := by simpa using hi
    exact callAt?_eq_none_iff.mp (by decide)
  exact .passage rfl (by simp) hlist (.passage (by decide) hcomma hplace (rest_of_reads (by decide)))

/-- Calls are made in the order of the text, and what they answer is not looked at again; without a call the text stays. -/
theorem expand_nested :
    (∃ passages rest, Divides nested.toList passages rest ∧ (expand (noting counted) nested).run (0,[]) =
      ("[TOOL[ls result: TOOL[rm](/)],[pwd result: TOOL[rm](/)](x and TOOL[]",2,[⟨"TOOL[ls","-l"⟩,⟨"pwd",""⟩]) ∧
      .ofList rest = "(x and TOOL[]" ∧ expandMarked counted nested = expand counted nested) ∧
    (expand counted unclosed).run 0 = (unclosed,0) ∧ callsIn unclosed = [] := by
  obtain ⟨passages,rest,hdivides,hunique,_,_,_,hexpand⟩ := expand_single_pass nested
  obtain ⟨rfl,rfl⟩ := hunique _ _ nested_divides
  obtain ⟨⟨answers,after,hrun,_,_,hmade⟩,_,hmarked⟩ := hexpand counted 0
  obtain ⟨rfl,rfl⟩ := Prod.mk.inj hrun
  obtain ⟨_,_,_,hnone,_,hcalls,_,hexpand⟩ := expand_single_pass unclosed
  obtain ⟨rfl,rfl⟩ := hnone _ _ unclosed_divides
  obtain ⟨_,hstays,_⟩ := hexpand counted 0
  exact ⟨⟨_,_,hdivides,hmade [],rfl,hmarked⟩,hstays rfl,hcalls⟩

end VirtualShell.Agent
