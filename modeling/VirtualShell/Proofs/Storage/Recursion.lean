import Mathlib.Logic.Function.Iterate
import VirtualShell.Proofs.Storage.Descent
import VirtualShell.Proofs.Storage.Walking

/-!
Recursions that are cut off at some depth. As far as the calls go down, it does not matter what is done below; so a walk
through a tree ends no deeper than the tree is high, and a search after as many steps as there are nodes.
-/
namespace VirtualShell
open Storing

section
variable {α β : Type} {step : (α → β) → α → β} {rel : β → β → Prop} {levels n m : Nat} {stands : Nat → α → Prop}
  {last last' : α → β}

/-- With the calls that are left on a level, two recursions go on alike. -/
private theorem iterate_related_at (hstep : ∀ {again again' : α → β} {depth a}, stands depth a →
      (∀ b, depth < levels → stands (depth + 1) b → rel (again b) (again' b)) → rel (step again a) (step again' a))
    {depth : Nat} {a : α} (ha : stands depth a) (hdepth : depth ≤ levels) (hn : levels < depth + n) (hm : levels < depth + m) :
    rel (step^[n] last a) (step^[m] last' a) := by
  induction n generalizing m depth a with
  | zero => omega
  | succ n ih =>
    cases m with
    | zero => omega
    | succ m =>
      rw [Function.iterate_succ_apply', Function.iterate_succ_apply']
      exact hstep ha fun b hlt hb => ih hb hlt (by omega) (by omega)

/--
Two recursions with the same step do the same, whatever each of them does where it is cut off, if calls go on to one level
further down only, and none goes below the last level.
-/
theorem iterate_related (stands : Nat → α → Prop) (hstep : ∀ {again again' : α → β} {depth a}, stands depth a →
      (∀ b, depth < levels → stands (depth + 1) b → rel (again b) (again' b)) → rel (step again a) (step again' a))
    {a : α} (ha : stands 0 a) (hn : levels < n) (hm : levels < m) : rel (step^[n] last a) (step^[m] last' a) :=
  iterate_related_at hstep ha (Nat.zero_le _) (by omega) (by omega)

end

/-! ### Actions that do the same -/

namespace Storing
variable {σ α β : Type} {inv : σ → Prop}

/-- On a store two actions do the same, and leave what is to hold. -/
def SameAt (inv : σ → Prop) (s : σ) (act act' : Storing σ α) : Prop := act.on s = act'.on s ∧ inv (act.on s).2

namespace SameAt
variable {act act' : Storing σ α} {f f' : α → Storing σ β} {s : σ}

theorem pure (a : α) (h : inv s) : SameAt inv s (Pure.pure a : Storing σ α) (Pure.pure a) := ⟨rfl,h⟩

theorem get_bind {f f' : σ → Storing σ β} (h : SameAt inv s (f s) (f' s)) :
    SameAt inv s (MonadState.get >>= f) (MonadState.get >>= f') := h

theorem bind (h : SameAt inv s act act') (hf : ∀ a t, inv t → SameAt inv t (f a) (f' a)) :
    SameAt inv s (act >>= f) (act' >>= f') := by
  obtain ⟨hsame,hinv⟩ := h
  cases he : act.on s with
  | mk result t =>
    rw [he] at hsame hinv
    cases result with
    | error e =>
      rw [SameAt, on_bind_error he, on_bind_error hsame.symm]
      exact ⟨rfl,hinv⟩
    | ok a =>
      rw [SameAt, on_bind_ok he, on_bind_ok hsame.symm]
      exact hf a t hinv

/-- What follows an action that is known to answer may rely on the answer. -/
theorem bind_yields {wanted : α → σ → Prop} (h : act.Yields s wanted) (hf : ∀ a t, wanted a t → SameAt inv t (f a) (f' a)) :
    SameAt inv s (act >>= f) (act >>= f') := by
  obtain ⟨a,t,he,ha⟩ := h
  rw [SameAt, on_bind_ok he, on_bind_ok he]
  exact hf a t ha

end SameAt

/-- Wherever an invariant holds two actions do the same, and it holds afterwards. -/
def Same (inv : σ → Prop) (act act' : Storing σ α) : Prop := ∀ s, inv s → SameAt inv s act act'

namespace Same
variable {act act' : Storing σ α} {f f' : α → Storing σ β}

theorem of_preserves (h : Preserves inv act) : Same inv act act := fun s hs => ⟨rfl,h s hs⟩

theorem pure (a : α) : Same inv (Pure.pure a : Storing σ α) (Pure.pure a) := fun _ => .pure a

theorem get_bind {f f' : σ → Storing σ β} (hf : ∀ s, inv s → Same inv (f s) (f' s)) :
    Same inv (MonadState.get >>= f) (MonadState.get >>= f') := fun s hs => .get_bind (hf s hs s hs)

theorem bind (h : Same inv act act') (hf : ∀ a, Same inv (f a) (f' a)) : Same inv (act >>= f) (act' >>= f') :=
  fun s hs => (h s hs).bind fun a => hf a

theorem bind_yields {wanted : α → Prop} (h : ∀ s, inv s → act.Yields s fun a t => inv t ∧ wanted a)
    (hf : ∀ a, wanted a → Same inv (f a) (f' a)) : Same inv (act >>= f) (act >>= f') :=
  fun s hs => .bind_yields (h s hs) fun a t ht => hf a ht.2 t ht.1

end Same
end Storing

/-- The tree at a chain of names goes no further down than some levels. -/
def View.Shallow (view : View) (names : List String) (levels : Nat) : Prop :=
  ∀ more, (view (names ++ more)).isSome → more.length ≤ levels

namespace Storage
variable {σ : Type} [Storage σ] {inv : σ → Prop} {view : View} {levels n m : Nat}

/-! ### Walks -/

/-- Walking through a directory, where the directories in it are walked through in some way. -/
def walkStep (deep : Bool) (wanted : String → Bool) (again : String → Storing σ Traversal) (dir : String) :
    Storing σ Traversal := do
  match ← Storing.caught (list dir) with
  | .error e => return ⟨[],[(dir,e.message)]⟩
  | .ok names =>
    walkEach (fun name => do
      let child := Path.join dir name
      let here : Traversal := ⟨if wanted name then [child] else [],[]⟩
      if !deep then return here
      match ← Storing.caught (info child) with
      | .error e => return here.append ⟨[],[(child,e.message)]⟩
      | .ok (some node) => if node.isDir then return here.append (← again child) else return here
      | .ok none => return here) names

theorem walk_eq (deep : Bool) (wanted : String → Bool) (fuel : Nat) :
    walk (σ := σ) deep wanted fuel = (walkStep deep wanted)^[fuel] fun _ => return .empty := by
  induction fuel with
  | zero => rfl
  | succ fuel ih =>
    rw [Function.iterate_succ_apply', ← ih]
    rfl

omit [Storage σ] in
theorem same_walkEach {walk walk' : String → Storing σ Traversal} {names : List String}
    (h : ∀ name ∈ names, Same inv (walk name) (walk' name)) : Same inv (walkEach walk names) (walkEach walk' names) := by
  induction names with
  | nil => exact .pure _
  | cons name names ih =>
    refine .bind (h name List.mem_cons_self) fun here => .bind ?_ fun later => .pure _
    exact ih fun other ho => h other (List.mem_cons_of_mem _ ho)

/-- A walk goes on to what is in the directory. -/
theorem walkStep_same {bad : Unreadable} (hlooks : Looks inv view bad) (hw : view.WellFormed) {deep : Bool} {wanted : String → Bool}
    {again again' : String → Storing σ Traversal} {dir : List String} (hdir : Path.Named dir)
    (hagain : ∀ name, (view (dir ++ [name])).isSome →
      Same inv (again (Path.ofSegments (dir ++ [name]))) (again' (Path.ofSegments (dir ++ [name])))) :
    Same inv (walkStep deep wanted again (Path.ofSegments dir)) (walkStep deep wanted again' (Path.ofSegments dir)) := by
  refine .bind_yields (fun s hs => hlooks.list _ hs) fun listed hlisted => ?_
  cases listed with
  | error e => exact .pure _
  | ok names =>
    have hnames : view.Lists dir names := by
      rw [Path.segments_ofSegments hdir] at hlisted
      split at hlisted
      · cases hlisted
      · obtain ⟨_,he,hlists⟩ := hlisted
        rwa [Except.ok.inj he]
    refine same_walkEach fun name hname => ?_
    have hsome := (hnames.2 name).mp hname
    dsimp only
    rw [Path.join_ofSegments hdir (Path.named_concat.mp (hw.named _ hsome)).2]
    split
    · exact .pure _
    · refine .bind_yields (fun s hs => (hlooks.info _ hs).mono fun _ _ h => ⟨h.1,trivial⟩) fun looked _ => ?_
      rcases looked with e | _ | node
      · exact .pure _
      · exact .pure _
      · dsimp only
        split
        · exact .bind (hagain name hsome) fun below => .pure _
        · exact .pure _

/-- A walk goes down no further than its tree. -/
theorem walk_same {bad : Unreadable} (hlooks : Looks inv view bad) (hw : view.WellFormed) {start : List String}
    (hstart : Path.Named start) (hshallow : view.Shallow start levels) (deep : Bool) (wanted : String → Bool)
    {last last' : String → Storing σ Traversal} (hn : levels < n) (hm : levels < m) :
    Same inv ((walkStep deep wanted)^[n] last (Path.ofSegments start)) ((walkStep deep wanted)^[m] last' (Path.ofSegments start)) := by
  let stands (depth : Nat) (path : String) : Prop :=
    ∃ more : List String, more.length = depth ∧ Path.Named (start ++ more) ∧ path = Path.ofSegments (start ++ more)
  refine iterate_related stands ?_ ⟨[],rfl,by simpa using hstart,by simp⟩ hn hm
  rintro again again' depth _ ⟨more,rfl,hnamed,rfl⟩ hagain
  refine walkStep_same hlooks hw hnamed fun name hsome => ?_
  rw [List.append_assoc] at hsome ⊢
  have hlevel := hshallow _ hsome
  rw [List.length_append, List.length_singleton] at hlevel
  exact hagain _ hlevel ⟨more ++ [name],by simp,hw.named _ hsome,rfl⟩

/-! ### Searches -/

/-- One step of a search: the children of a directory are found, and the search goes on in some way. -/
def searchStep (again : List String × List Node → Storing σ (List Node)) : List String × List Node → Storing σ (List Node)
  | ([],found) => return found
  | (dir :: stack,found) => do
    let children ← lookUp dir (← list dir)
    let dirs := (children.filter fun child => child.2.isDir).map Prod.fst
    again (dirs.reverse ++ stack,found ++ children.map Prod.snd)

/-- The nodes that a search from the directory for temporary data finds, deepest first. -/
def deepestFirst (search : List String × List Node → Storing σ (List Node)) : Storing σ (List Node) := do
  let found ← search ([tempDir],[])
  return found.mergeSort fun a b => Path.depth b.path ≤ Path.depth a.path

theorem searchStep_cons (again : List String × List Node → Storing σ (List Node)) (dir : String) (stack : List String)
    (found : List Node) : searchStep again (dir :: stack,found) = (do
      let children ← nodesIn dir
      again (((children.filter fun child => child.2.isDir).map Prod.fst).reverse ++ stack,found ++ children.map Prod.snd)) :=
  (bind_assoc _ _ _).symm

theorem descend_eq (fuel : Nat) (stack : List String) (found : List Node) : (descend fuel stack found : Storing σ (List Node)) =
    (searchStep^[fuel] fun state => return state.2) (stack,found) := by
  induction fuel generalizing stack found with
  | zero => rfl
  | succ fuel ih =>
    rw [Function.iterate_succ_apply']
    cases stack with
    | nil => rfl
    | cons dir stack =>
      rw [descend_cons, searchStep_cons]
      exact congrArg (nodesIn dir >>= ·) (funext fun children => ih _ _)

variable [LawfulNodes σ]
open Viewed

/-- A search takes no more steps than there are nodes to be found, and one more. -/
theorem search_same {entries : List (List String)} (hmem : ∀ names, names ∈ entries ↔ (view.temporary names).isSome)
    {last last' : List String × List Node → Storing σ (List Node)} (hn : entries.length + 1 < n) (hm : entries.length + 1 < m) :
    Same (fun s => Sound s ∧ Viewed.view s = view) (searchStep^[n] last ([tempDir],[])) (searchStep^[m] last' ([tempDir],[])) := by
  let stands (depth : Nat) (state : List String × List Node) : Prop := ∃ stack : List (List String),
    state.1 = stack.map Path.ofSegments ∧ (∀ dir ∈ stack, Path.Named dir) ∧ Search view stack (state.2.map Node.chain) ∧
      (∀ node ∈ state.2, view.Shows node) ∧ depth + stack.length + entries.length ≤ entries.length + 1 + state.2.length
  have hstart : stands 0 ([tempDir],[]) := by
    refine ⟨[["tmp"]],rfl,List.forall_mem_singleton.mpr (by decide),Search.start view,List.forall_mem_nil _,?_⟩
    simp only [List.length_singleton, List.length_nil]
    omega
  refine iterate_related stands ?_ hstart hn hm
  rintro again again' depth ⟨_,found⟩ ⟨stack,rfl,hstack,hsearch,hshows,hdepth⟩ hagain
  dsimp only at hsearch hshows hdepth
  cases stack with
  | nil => exact .pure _
  | cons dir stack =>
    rw [List.map_cons, searchStep_cons, searchStep_cons]
    have hfound := hsearch.length_le hmem
    rw [List.length_map] at hfound
    rw [List.length_cons] at hdepth
    have hnodes (s : σ) (hs : Sound s ∧ Viewed.view s = view) : (nodesIn (Path.ofSegments dir)).Yields s fun children t =>
        (Sound t ∧ Viewed.view t = view) ∧ Search.Onward view stack found children := by
      obtain ⟨hsound,rfl⟩ := hs
      exact (nodesIn_meets hsound hstack hsearch hshows).mono fun children after h => ⟨⟨h.1,h.2.1⟩,h.2.2⟩
    refine .bind_yields hnodes fun children honward => ?_
    obtain ⟨next,hnext,hnamed,hsearch',hshows',hlength⟩ := honward
    refine hagain _ (by omega) ⟨next,hnext,hnamed,hsearch',hshows',?_⟩
    rw [List.length_append, List.length_map]
    omega

/-- The search for all that is temporary lists no more directories than it finds nodes, and the one that it starts from. -/
theorem tempDescendants_same {s : σ} (hs : Sound s) : ∃ nodes, ((tempDescendants : Storing σ (List Node)).on s).1 = .ok nodes ∧
    ∀ n, nodes.length + 1 < n → ∀ last, (deepestFirst (searchStep^[n] last)).on s = tempDescendants.on s := by
  obtain ⟨nodes,t,he,_,_,hnodup,hmem,_⟩ := tempDescendants_meets hs
  have hcapacity : (nodes.map Node.chain).length + 1 < capacity s + 1 := by
    have hroot : [] ∉ nodes.map Node.chain := by
      rw [hmem, View.temporary, if_neg (by simp [View.Temporary])]
      simp
    refine Nat.succ_lt_succ (LawfulNodes.length_le_capacity hs ([] :: nodes.map Node.chain) (List.nodup_cons.mpr ⟨hroot,hnodup⟩) ?_)
    refine List.forall_mem_cons.mpr ⟨by rw [(LawfulNodes.wellFormed hs).root]; rfl,fun names hnames => ?_⟩
    have hsome := (hmem names).mp hnames
    rw [View.temporary] at hsome
    split at hsome
    · exact hsome
    · cases hsome
  refine ⟨nodes,congrArg Prod.fst he,fun n hn last => ?_⟩
  rw [← List.length_map (f := Node.chain)] at hn
  have hsame : (searchStep^[n] last ([tempDir],[])).on s =
      ((searchStep^[capacity s + 1] fun state => pure state.2) ([tempDir],[])).on s := (search_same hmem hn hcapacity s ⟨hs,rfl⟩).1
  have hsorted : (tempDescendants : Storing σ (List Node)).on s =
      (deepestFirst (searchStep^[capacity s + 1] fun state => pure state.2)).on s := by
    rw [deepestFirst, ← descend_eq]
    rfl
  rw [hsorted, deepestFirst, deepestFirst, on_bind, on_bind, hsame]

end Storage
end VirtualShell
