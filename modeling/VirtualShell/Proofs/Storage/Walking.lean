import VirtualShell.Proofs.Storage.View

/-!
What a walk through a directory tree finds where some directories cannot be listed and some nodes cannot be looked at. The
paths found are told by their chains of names: in the lexicographic order of chains a directory comes before what it holds,
and its children follow one another by name.
-/
namespace VirtualShell
open Storing

/-- The paths at which looking at a store fails. -/
structure Unreadable where
  list : String → Bool
  info : String → Bool

/-- The error of a call that is made to fail. -/
def Call.failure (call : Call) : StorageError := .backend (call.name ++ " failed")

namespace View
variable {view : View} {bad : Unreadable} {start dir names : List String} {name reason : String}

/-- A walk goes on to what is in a directory that can be listed and, below the start, could be looked at. -/
def Opens (bad : Unreadable) (start dir : List String) : Prop :=
  bad.list (Path.ofSegments dir) = false ∧ (dir ≠ start → bad.info (Path.ofSegments dir) = false)

/-- Something stands below the start of a walk, and every directory on the way to it lets the walk through. -/
def Reaches (view : View) (bad : Unreadable) (start names : List String) : Prop :=
  (view names).isSome ∧ start <+: names ∧ names ≠ start ∧
    ∀ dir, start <+: dir → dir <+: names → dir ≠ names → Opens bad start dir

/-- A walk comes to a node that it cannot look at, or to a directory that it cannot list. -/
def Misses (view : View) (bad : Unreadable) (start names : List String) (reason : String) : Prop :=
  view.Reaches bad start names ∧ bad.info (Path.ofSegments names) = true ∧
      reason = (Call.info (Path.ofSegments names)).failure.message ∨
    (names = start ∨ view.Reaches bad start names ∧ view names = some .dir ∧ bad.info (Path.ofSegments names) = false) ∧
      bad.list (Path.ofSegments names) = true ∧ reason = (Call.list (Path.ofSegments names)).failure.message

/-- What a walk finds that comes to a node: the node, and what is below it if the node can be looked at. -/
def ReachesFrom (view : View) (bad : Unreadable) (node names : List String) : Prop :=
  names = node ∨ bad.info (Path.ofSegments node) = false ∧ view.Reaches bad node names

/-- What a walk misses that comes to a node. -/
def MissesFrom (view : View) (bad : Unreadable) (node names : List String) (reason : String) : Prop :=
  bad.info (Path.ofSegments node) = true ∧ names = node ∧ reason = (Call.info (Path.ofSegments node)).failure.message ∨
    bad.info (Path.ofSegments node) = false ∧ view node = some .dir ∧ view.Misses bad node names reason

/-- A child of a start that can be listed. -/
def ChildOf (view : View) (bad : Unreadable) (start names : List String) : Prop :=
  bad.list (Path.ofSegments start) = false ∧ (view names).isSome ∧ ∃ name, names = start ++ [name]

/-- A start that cannot be listed. -/
def Unlisted (bad : Unreadable) (start names : List String) (reason : String) : Prop :=
  bad.list (Path.ofSegments start) = true ∧ names = start ∧ reason = (Call.list (Path.ofSegments start)).failure.message

/-! ### One step down -/

theorem Reaches.start_dir (hw : view.WellFormed) (h : view.Reaches bad start names) : view start = some .dir := by
  obtain ⟨hsome,⟨more,rfl⟩,hne,_⟩ := h
  exact hw.ancestor (by simpa using hne) hsome

theorem Reaches.named (hw : view.WellFormed) (h : view.Reaches bad start names) : Path.Named names := hw.named _ h.1

theorem Misses.named (hw : view.WellFormed) (hstart : Path.Named start) (h : view.Misses bad start names reason) :
    Path.Named names := by
  obtain ⟨h,_⟩ | ⟨rfl | ⟨h,_⟩,_⟩ := h
  · exact h.named hw
  · exact hstart
  · exact h.named hw

/-- From a directory that lets it through, a walk goes on to what is in it. -/
theorem Reaches.concat (h : view.Reaches bad start names) (hsome : (view (names ++ [name])).isSome)
    (hopens : Opens bad start names) : view.Reaches bad start (names ++ [name]) := by
  obtain ⟨_,hstart,_,hway⟩ := h
  refine ⟨hsome,hstart.trans (List.prefix_append _ _),?_,fun dir hfrom hto hne => ?_⟩
  · rintro rfl
    exact absurd hstart.length_le (by simp)
  · by_cases hlast : dir = names
    · exact hlast ▸ hopens
    · exact hway dir hfrom ((List.prefix_concat_iff.mp hto).resolve_left hne) hlast

/-- Everything that a walk finds, it finds by way of a child of the start. -/
theorem reaches_iff (hw : view.WellFormed) : view.Reaches bad start names ↔
    bad.list (Path.ofSegments start) = false ∧
      ∃ name, (view (start ++ [name])).isSome ∧ view.ReachesFrom bad (start ++ [name]) names := by
  constructor
  · rintro ⟨hsome,⟨more,rfl⟩,hne,hopens⟩
    refine ⟨(hopens start (List.prefix_refl _) (List.prefix_append _ _) (Ne.symm hne)).1,?_⟩
    cases more with
    | nil => simp at hne
    | cons name rest =>
      rw [List.append_cons] at hsome hne hopens ⊢
      by_cases hrest : rest = []
      · rw [hrest, List.append_nil] at hsome ⊢
        exact ⟨name,hsome,.inl rfl⟩
      · have hbelow : start ++ [name] ++ rest ≠ start ++ [name] := by simpa using hrest
        have hchild := hopens (start ++ [name]) (List.prefix_append _ _) (List.prefix_append _ _) (Ne.symm hbelow)
        refine ⟨name,by rw [hw.ancestor hrest hsome]; rfl,.inr ⟨hchild.2 (by simp),hsome,List.prefix_append _ _,hbelow,?_⟩⟩
        intro dir hfrom hto hnot
        obtain ⟨hlist,hinfo⟩ := hopens dir ((List.prefix_append _ _).trans hfrom) hto hnot
        refine ⟨hlist,fun _ => hinfo ?_⟩
        rintro rfl
        exact absurd hfrom.length_le (by simp)
  · rintro ⟨hlist,name,hsome,rfl | ⟨hinfo,hsome',hstart,hbelow,hopens⟩⟩
    · refine ⟨hsome,List.prefix_append _ _,by simp,fun dir hfrom hto hnot => ?_⟩
      obtain rfl : dir = start := (hfrom.eq_of_length_le
        ((List.prefix_concat_iff.mp hto).resolve_left hnot).length_le).symm
      exact ⟨hlist,fun h => absurd rfl h⟩
    · refine ⟨hsome',(List.prefix_append _ _).trans hstart,?_,fun dir hfrom hto hnot => ?_⟩
      · rintro rfl
        exact absurd hstart.length_le (by simp)
      rcases List.prefix_or_prefix_of_prefix hto hstart with hup | hdown
      · rcases List.prefix_concat_iff.mp hup with rfl | hup
        · exact ⟨(hopens _ (List.prefix_refl _) hto hnot).1,fun _ => hinfo⟩
        · obtain rfl : dir = start := (hfrom.eq_of_length_le hup.length_le).symm
          exact ⟨hlist,fun h => absurd rfl h⟩
      · obtain ⟨hlist',hinfo'⟩ := hopens dir hdown hto hnot
        refine ⟨hlist',fun _ => ?_⟩
        by_cases hsame : dir = start ++ [name]
        · exact hsame ▸ hinfo
        · exact hinfo' hsame

/-- So it is with what it misses, if there is anything to find. -/
theorem misses_iff (hw : view.WellFormed) (hlist : bad.list (Path.ofSegments start) = false) :
    view.Misses bad start names reason ↔
      ∃ name, (view (start ++ [name])).isSome ∧ view.MissesFrom bad (start ++ [name]) names reason := by
  have hnot {name : String} : start ++ [name] ≠ start := by simp
  constructor
  · rintro (⟨hreach,hinfo,rfl⟩ | ⟨rfl | ⟨hreach,hdir,hinfo⟩,hbad,rfl⟩)
    · obtain ⟨_,name,hsome,rfl | ⟨hchild,hbelow⟩⟩ := (reaches_iff hw).mp hreach
      · exact ⟨name,hsome,.inl ⟨hinfo,rfl,rfl⟩⟩
      · exact ⟨name,hsome,.inr ⟨hchild,hbelow.start_dir hw,.inl ⟨hbelow,hinfo,rfl⟩⟩⟩
    · exact absurd (hlist.symm.trans hbad) (by simp)
    · obtain ⟨_,name,hsome,rfl | ⟨hchild,hbelow⟩⟩ := (reaches_iff hw).mp hreach
      · exact ⟨name,hsome,.inr ⟨hinfo,hdir,.inr ⟨.inl rfl,hbad,rfl⟩⟩⟩
      · exact ⟨name,hsome,.inr ⟨hchild,hbelow.start_dir hw,.inr ⟨.inr ⟨hbelow,hdir,hinfo⟩,hbad,rfl⟩⟩⟩
  · rintro ⟨name,hsome,⟨hinfo,rfl,rfl⟩ | ⟨hchild,hdir,hmiss⟩⟩
    · exact .inl ⟨(reaches_iff hw).mpr ⟨hlist,name,hsome,.inl rfl⟩,hinfo,rfl⟩
    · obtain ⟨hbelow,hinfo,rfl⟩ | ⟨rfl | ⟨hbelow,hdir',hinfo⟩,hbad,rfl⟩ := hmiss
      · exact .inl ⟨(reaches_iff hw).mpr ⟨hlist,name,hsome,.inr ⟨hchild,hbelow⟩⟩,hinfo,rfl⟩
      · exact .inr ⟨.inr ⟨(reaches_iff hw).mpr ⟨hlist,name,hsome,.inl rfl⟩,hdir,hchild⟩,hbad,rfl⟩
      · exact .inr ⟨.inr ⟨(reaches_iff hw).mpr ⟨hlist,name,hsome,.inr ⟨hchild,hbelow⟩⟩,hdir',hinfo⟩,hbad,rfl⟩

/-- Where a walk does not come to something, it misses something on the way. -/
theorem exists_misses (hw : view.WellFormed) {more : List String} (hmore : more ≠ []) (hsome : (view (start ++ more)).isSome)
    (hnot : ¬ view.Reaches bad start (start ++ more)) : ∃ names reason, view.Misses bad start names reason := by
  induction more using List.reverseRecOn with
  | nil => exact absurd rfl hmore
  | append_singleton more name ih =>
    rw [← List.append_assoc] at hsome hnot
    by_cases hnil : more = []
    · rw [hnil, List.append_nil] at hsome hnot
      have hlist : bad.list (Path.ofSegments start) = true := by
        by_contra hlist
        exact hnot ((reaches_iff hw).mpr ⟨by simpa using hlist,name,hsome,.inl rfl⟩)
      exact ⟨start,_,.inr ⟨.inl rfl,hlist,rfl⟩⟩
    · have hdir := hw.parent (start ++ more) name hsome
      by_cases hparent : view.Reaches bad start (start ++ more)
      · have hshut : ¬ Opens bad start (start ++ more) := fun hopens => hnot (hparent.concat hsome hopens)
        by_cases hinfo : bad.info (Path.ofSegments (start ++ more)) = true
        · exact ⟨_,_,.inl ⟨hparent,hinfo,rfl⟩⟩
        · rw [Bool.not_eq_true] at hinfo
          have hlist : bad.list (Path.ofSegments (start ++ more)) = true := by
            by_contra hlist
            exact hshut ⟨by simpa using hlist,fun _ => hinfo⟩
          exact ⟨_,_,.inr ⟨.inr ⟨hparent,hdir,hinfo⟩,hlist,rfl⟩⟩
      · exact ih hnil (by rw [hdir]; rfl) hparent

/-! ### Lists of what a walk finds and misses -/

/-- The chains that are reached and those that are missed, with the reasons, each once and in rising order. -/
structure Tells (reached : List String → Prop) (missed : List String → String → Prop) (chains : List (List String))
    (skips : List (List String × String)) : Prop where
  rising : chains.Pairwise (· < ·)
  mem_chains : ∀ names, names ∈ chains ↔ reached names
  skips_rising : (skips.map Prod.fst).Pairwise (· < ·)
  mem_skips : ∀ names reason, (names, reason) ∈ skips ↔ missed names reason

namespace Tells
variable {reached reached' : List String → Prop} {missed missed' : List String → String → Prop}
  {chains chains' : List (List String)} {skips skips' : List (List String × String)}

theorem congr (h : Tells reached missed chains skips) (hreached : ∀ names, reached' names ↔ reached names)
    (hmissed : ∀ names reason, missed' names reason ↔ missed names reason) : Tells reached' missed' chains skips :=
  ⟨h.rising,fun names => (h.mem_chains names).trans (hreached names).symm,h.skips_rising,
    fun names reason => (h.mem_skips names reason).trans (hmissed names reason).symm⟩

theorem nothing : Tells (fun _ => False) (fun _ _ => False) [] [] := ⟨.nil,by simp,.nil,by simp⟩

/-- What comes later in the order of chains is told later. -/
theorem append (h : Tells reached missed chains skips) (h' : Tells reached' missed' chains' skips')
    (hreached : ∀ names names', reached names → reached' names' → names < names')
    (hmissed : ∀ names names' reason reason', missed names reason → missed' names' reason' → names < names') :
    Tells (fun names => reached names ∨ reached' names) (fun names reason => missed names reason ∨ missed' names reason)
      (chains ++ chains') (skips ++ skips') where
  rising := List.pairwise_append.mpr ⟨h.rising,h'.rising,fun names hn names' hn' =>
    hreached names names' ((h.mem_chains names).mp hn) ((h'.mem_chains names').mp hn')⟩
  mem_chains names := by rw [List.mem_append, h.mem_chains, h'.mem_chains]
  skips_rising := by
    rw [List.map_append]
    refine List.pairwise_append.mpr ⟨h.skips_rising,h'.skips_rising,fun names hn names' hn' => ?_⟩
    obtain ⟨⟨_,reason⟩,hskip,rfl⟩ := List.mem_map.mp hn
    obtain ⟨⟨_,reason'⟩,hskip',rfl⟩ := List.mem_map.mp hn'
    exact hmissed _ _ _ _ ((h.mem_skips _ _).mp hskip) ((h'.mem_skips _ _).mp hskip')
  mem_skips names reason := by rw [List.mem_append, h.mem_skips, h'.mem_skips]

end Tells

theorem ReachesFrom.below {node : List String} (h : view.ReachesFrom bad node names) : node <+: names := by
  obtain rfl | ⟨_,h⟩ := h
  · exact List.prefix_refl _
  · exact h.2.1

theorem MissesFrom.below {node : List String} (h : view.MissesFrom bad node names reason) : node <+: names := by
  obtain ⟨_,rfl,_⟩ | ⟨_,_,⟨h,_⟩ | ⟨rfl | ⟨h,_⟩,_⟩⟩ := h
  · exact List.prefix_refl _
  · exact h.2.1
  · exact List.prefix_refl _
  · exact h.2.1

/-- What lies in a directory under different names stands in the order of the names. -/
theorem lt_of_below {a b : String} {names names' : List String} (h : a < b) (ha : dir ++ [a] <+: names)
    (hb : dir ++ [b] <+: names') : names < names' := by
  obtain ⟨more,rfl⟩ := ha
  obtain ⟨more',rfl⟩ := hb
  rw [List.append_assoc, List.append_assoc]
  exact List.append_left_lt (List.cons_lt_cons_iff.mpr (.inl h))

/-- A node comes before what is below it. -/
theorem lt_of_reaches (h : view.Reaches bad start names) : start < names := by
  obtain ⟨_,⟨more,rfl⟩,hne,_⟩ := h
  cases more with
  | nil => simp at hne
  | cons name rest =>
    have hlt : start ++ [] < start ++ name :: rest := List.append_left_lt (List.nil_lt_cons name rest)
    rwa [List.append_nil] at hlt

end View

/-! ### The walk -/

namespace Storage
open View
variable {τ : Type} [Storage τ] {inv : τ → Prop} {view : View} {bad : Unreadable}

/-- Looking at a store, which leaves an invariant, fails at some paths and answers from a view at all others. -/
structure Looks (inv : τ → Prop) (view : View) (bad : Unreadable) : Prop where
  list {s : τ} (path : String) : inv s → (Storage.list path).caught.Yields s fun result after => inv after ∧
    if bad.list path then result = .error (Call.list path).failure
    else ∃ names, result = .ok names ∧ view.Lists (Path.segments path) names
  info {s : τ} (path : String) : inv s → (Storage.info path).caught.Yields s fun result after => inv after ∧
    if bad.info path then result = .error (Call.info path).failure
    else ∃ node, result = .ok node ∧ node.map Node.untimed = view.node? (Path.segments path)

/-- What a walk answers that wants some of the chains it finds. -/
def report (wanted : String → Bool) (chains : List (List String)) (skips : List (List String × String)) : Traversal :=
  ⟨(chains.filter fun names => wanted (names.getLast?.getD "")).map Path.ofSegments,
    skips.map fun skip => (Path.ofSegments skip.1, skip.2)⟩

theorem report_append (wanted : String → Bool) (chains chains' : List (List String)) (skips skips' : List (List String × String)) :
    (report wanted chains skips).append (report wanted chains' skips') = report wanted (chains ++ chains') (skips ++ skips') := by
  simp [report, Traversal.append]

/-- What a walk does at one name of a directory. -/
def visit (deep : Bool) (wanted : String → Bool) (fuel : Nat) (dir name : String) : Storing τ Traversal := do
  let child := Path.join dir name
  let here : Traversal := ⟨if wanted name then [child] else [], []⟩
  if !deep then return here
  match ← Storing.caught (info child) with
  | .error e => return here.append ⟨[], [(child, e.message)]⟩
  | .ok (some node) => if node.isDir then return here.append (← walk deep wanted fuel child) else return here
  | .ok none => return here

theorem walk_succ (deep : Bool) (wanted : String → Bool) (fuel : Nat) (dir : String) :
    (walk deep wanted (fuel + 1) dir : Storing τ Traversal) = (do
      match ← Storing.caught (list dir) with
      | .error e => return ⟨[], [(dir, e.message)]⟩
      | .ok names => walkEach (visit deep wanted fuel dir) names) := rfl

/-- Whatever is wanted, an action finds and misses what it should. -/
def Finds (inv : τ → Prop) (act : (String → Bool) → Storing τ Traversal) (reached : List String → Prop)
    (missed : List String → String → Prop) : Prop :=
  ∃ chains skips, Tells reached missed chains skips ∧
    ∀ wanted s, inv s → (act wanted).Yields s fun found after => inv after ∧ found = report wanted chains skips

omit [Storage τ] in
/-- Done at one name of a directory after the other, what is found and missed under each of them is found and missed. -/
private theorem finds_each (visits : (String → Bool) → String → Storing τ Traversal) {dir names : List String}
    {reached : String → List String → Prop} {missed : String → List String → String → Prop} (hrising : names.Pairwise (· < ·))
    (hreached : ∀ name chain, reached name chain → dir ++ [name] <+: chain)
    (hmissed : ∀ name chain reason, missed name chain reason → dir ++ [name] <+: chain)
    (h : ∀ name ∈ names, Finds inv (visits · name) (reached name) (missed name)) :
    Finds inv (fun wanted => walkEach (visits wanted) names) (fun chain => ∃ name ∈ names, reached name chain)
      (fun chain reason => ∃ name ∈ names, missed name chain reason) := by
  induction names with
  | nil => exact ⟨[],[],.congr .nothing (by simp) (by simp),fun wanted s hs => .pure ⟨hs,rfl⟩⟩
  | cons name rest ih =>
    obtain ⟨hfirst,hlater⟩ := List.pairwise_cons.mp hrising
    obtain ⟨chains,skips,htells,hvisit⟩ := h name (by simp)
    obtain ⟨chains',skips',htells',hwalk⟩ := ih hlater fun other ho => h other (by simp [ho])
    refine ⟨chains ++ chains',skips ++ skips',.congr (htells.append htells' ?_ ?_) (by simp) (by simp),fun wanted s hs => ?_⟩
    · rintro chain chain' hchain ⟨other,ho,hchain'⟩
      exact lt_of_below (hfirst other ho) (hreached _ _ hchain) (hreached _ _ hchain')
    · rintro chain chain' _ _ hchain ⟨other,ho,hchain'⟩
      exact lt_of_below (hfirst other ho) (hmissed _ _ _ hchain) (hmissed _ _ _ hchain')
    · refine (hvisit wanted s hs).bind fun here t ht => (hwalk wanted t ht.1).bind fun later u hu => ?_
      rw [ht.2, hu.2]
      exact .pure ⟨hu.1,report_append _ _ _ _ _⟩

private theorem report_single (wanted : String → Bool) (dir : List String) (name : String) (skips : List (List String × String)) :
    report wanted [dir ++ [name]] skips = ⟨if wanted name then [Path.ofSegments (dir ++ [name])] else [],
      skips.map fun skip => (Path.ofSegments skip.1, skip.2)⟩ := by
  cases hw : wanted name <;> simp [report, hw]

/-- The node itself comes before all that a walk below it finds. -/
private theorem tells_below {node : List String} {chains : List (List String)} {skips : List (List String × String)}
    (hinfo : bad.info (Path.ofSegments node) = false) (hdir : view node = some .dir)
    (h : Tells (view.Reaches bad node) (view.Misses bad node) chains skips) :
    Tells (view.ReachesFrom bad node) (view.MissesFrom bad node) (node :: chains) skips where
  rising := List.pairwise_cons.mpr ⟨fun chain hc => lt_of_reaches ((h.mem_chains chain).mp hc),h.rising⟩
  mem_chains chain := by simp [h.mem_chains, ReachesFrom, hinfo]
  skips_rising := h.skips_rising
  mem_skips chain reason := by simp [h.mem_skips, MissesFrom, hinfo, hdir]

/-- A file is found, and nothing else. -/
private theorem tells_file (hw : view.WellFormed) {node : List String} (hinfo : bad.info (Path.ofSegments node) = false)
    (hfile : view node ≠ some .dir) : Tells (view.ReachesFrom bad node) (view.MissesFrom bad node) [node] [] where
  rising := List.pairwise_singleton _ _
  mem_chains chain := by
    have hnone : ¬ view.Reaches bad node chain := fun h => hfile (h.start_dir hw)
    simp [ReachesFrom, hnone]
  skips_rising := .nil
  mem_skips chain reason := by simp [MissesFrom, hinfo, hfile]

/-- A node that cannot be looked at is found and missed. -/
private theorem tells_hidden {node : List String} (hinfo : bad.info (Path.ofSegments node) = true) :
    Tells (view.ReachesFrom bad node) (view.MissesFrom bad node) [node]
      [(node, (Call.info (Path.ofSegments node)).failure.message)] where
  rising := List.pairwise_singleton _ _
  mem_chains chain := by simp [ReachesFrom, hinfo]
  skips_rising := List.pairwise_singleton _ _
  mem_skips chain reason := by simp [MissesFrom, hinfo]

/-- A visit comes to one node and, where it can, goes on from there. -/
private theorem finds_visit (hw : view.WellFormed) (hlooks : Looks inv view bad) {dir : List String} {name : String} {fuel : Nat}
    (hnamed : Path.Named (dir ++ [name]))
    (hwalk : view (dir ++ [name]) = some .dir → Finds inv (walk true · fuel (Path.ofSegments (dir ++ [name])))
      (view.Reaches bad (dir ++ [name])) (view.Misses bad (dir ++ [name]))) :
    Finds inv (visit true · fuel (Path.ofSegments dir) name) (view.ReachesFrom bad (dir ++ [name]))
      (view.MissesFrom bad (dir ++ [name])) := by
  obtain ⟨hdir,hname⟩ := Path.named_concat.mp hnamed
  have hjoin : Path.join (Path.ofSegments dir) name = Path.ofSegments (dir ++ [name]) := Path.join_ofSegments hdir hname
  unfold visit
  simp only [Bool.not_true, Bool.false_eq_true, if_false, hjoin]
  cases hinfo : bad.info (Path.ofSegments (dir ++ [name])) with
  | true =>
    refine ⟨_,_,tells_hidden hinfo,fun wanted s hs => ?_⟩
    refine (hlooks.info _ hs).bind fun result t ht => ?_
    rw [if_pos hinfo] at ht
    obtain ⟨ht,rfl⟩ := ht
    exact .pure ⟨ht,by simp [report_single, Traversal.append]⟩
  | false =>
    by_cases hkind : view (dir ++ [name]) = some .dir
    · obtain ⟨chains,skips,htells,hbelow⟩ := hwalk hkind
      refine ⟨_,_,tells_below hinfo hkind htells,fun wanted s hs => ?_⟩
      refine (hlooks.info _ hs).bind fun result t ht => ?_
      rw [if_neg (by simp [hinfo]), Path.segments_ofSegments hnamed] at ht
      obtain ⟨ht,node,rfl,hnode⟩ := ht
      have hisDir := (View.any_isDir_iff hnode).mpr hkind
      cases node with
      | none => simp at hisDir
      | some node =>
        rw [Option.any_some] at hisDir
        dsimp only
        rw [if_pos hisDir]
        have hreport := report_append wanted [dir ++ [name]] chains [] skips
        rw [report_single] at hreport
        exact (hbelow wanted t ht).bind fun found u hu => .pure ⟨hu.1,hu.2 ▸ hreport⟩
    · refine ⟨_,_,tells_file hw hinfo hkind,fun wanted s hs => ?_⟩
      refine (hlooks.info _ hs).bind fun result t ht => ?_
      rw [if_neg (by simp [hinfo]), Path.segments_ofSegments hnamed] at ht
      obtain ⟨ht,node,rfl,hnode⟩ := ht
      have hisDir := (View.any_isDir_iff hnode).not.mpr hkind
      cases node with
      | none => exact .pure ⟨ht,by rw [report_single]; rfl⟩
      | some node =>
        rw [Option.any_some] at hisDir
        dsimp only
        rw [if_neg hisDir]
        exact .pure ⟨ht,by rw [report_single]; rfl⟩

/--
A walk first lists its start. Where that fails it misses the start and finds nothing; else it finds and misses what it
does under the names there.
-/
private theorem finds_listed (hlooks : Looks inv view bad) (deep : Bool) (fuel : Nat) {start : List String} {s : τ} (hs : inv s)
    (hnamed : Path.Named start) {reached : String → List String → Prop} {missed : String → List String → String → Prop}
    (hreached : ∀ name chain, reached name chain → start ++ [name] <+: chain)
    (hmissed : ∀ name chain reason, missed name chain reason → start ++ [name] <+: chain)
    (hvisit : ∀ name, (view (start ++ [name])).isSome →
      Finds inv (visit deep · fuel (Path.ofSegments start) name) (reached name) (missed name)) :
    Finds inv (walk deep · (fuel + 1) (Path.ofSegments start))
      (fun chain => bad.list (Path.ofSegments start) = false ∧ ∃ name, (view (start ++ [name])).isSome ∧ reached name chain)
      (fun chain reason =>
        bad.list (Path.ofSegments start) = true ∧ chain = start ∧ reason = (Call.list (Path.ofSegments start)).failure.message ∨
        bad.list (Path.ofSegments start) = false ∧ ∃ name, (view (start ++ [name])).isSome ∧ missed name chain reason) := by
  obtain ⟨_,_,_,_,hresult⟩ := hlooks.list (Path.ofSegments start) hs
  rw [Path.segments_ofSegments hnamed] at hresult
  cases hlist : bad.list (Path.ofSegments start) with
  | true =>
    refine ⟨[],[(start, (Call.list (Path.ofSegments start)).failure.message)],⟨.nil,by simp,List.pairwise_singleton _ _,by simp⟩,?_⟩
    intro wanted s hs
    simp only [walk_succ]
    refine (hlooks.list _ hs).bind fun result t ht => ?_
    rw [if_pos hlist] at ht
    obtain ⟨ht,rfl⟩ := ht
    exact .pure ⟨ht,rfl⟩
  | false =>
    rw [if_neg (by simp [hlist])] at hresult
    obtain ⟨names,-,hnames⟩ := hresult
    obtain ⟨chains,skips,htells,heach⟩ := finds_each (fun wanted => visit deep wanted fuel (Path.ofSegments start))
      hnames.1 hreached hmissed fun name hn => hvisit name ((hnames.2 name).mp hn)
    refine ⟨chains,skips,htells.congr (by simp [hnames.2]) (by simp [hnames.2]),fun wanted s hs => ?_⟩
    simp only [walk_succ]
    refine (hlooks.list _ hs).bind fun result t ht => ?_
    rw [if_neg (by simp [hlist]), Path.segments_ofSegments hnamed] at ht
    obtain ⟨ht,names',rfl,hnames'⟩ := ht
    obtain rfl := hnames.unique hnames'
    exact heach wanted t ht

/-- A deep walk with fuel for all that is below its start finds and misses what it should. -/
theorem finds_walk (hw : view.WellFormed) (hlooks : Looks inv view bad) {fuel : Nat} {start : List String} {s : τ} (hs : inv s)
    (hnamed : Path.Named start) (hpos : 0 < fuel) (hfuel : ∀ more, (view (start ++ more)).isSome → more.length < fuel) :
    Finds inv (walk true · fuel (Path.ofSegments start)) (view.Reaches bad start) (view.Misses bad start) := by
  induction fuel generalizing start with
  | zero => exact absurd hpos (by simp)
  | succ fuel ih =>
    obtain ⟨chains,skips,htells,hwalk⟩ := finds_listed hlooks true fuel hs hnamed (fun _ _ h => ReachesFrom.below h)
      (fun _ _ _ h => MissesFrom.below h) fun name hsome => finds_visit hw hlooks (hw.named _ hsome) fun _ => by
        refine ih (hw.named _ hsome) ?_ fun more hm => ?_
        · have hlength := hfuel [name] hsome
          simp only [List.length_singleton] at hlength
          omega
        · have hlength := hfuel (name :: more) (by rwa [List.append_cons])
          simp only [List.length_cons] at hlength
          omega
    refine ⟨chains,skips,htells.congr (fun chain => reaches_iff hw) fun chain reason => ?_,hwalk⟩
    cases hlist : bad.list (Path.ofSegments start) with
    | true =>
      have hnone : ¬ view.Reaches bad start chain := by simp [reaches_iff hw, hlist]
      simp only [Misses, hnone, false_and, or_false, false_or, true_and, reduceCtorEq]
      constructor
      · rintro ⟨rfl,_,rfl⟩
        exact ⟨rfl,rfl⟩
      · rintro ⟨rfl,rfl⟩
        exact ⟨rfl,hlist,rfl⟩
    | false => simp [misses_iff hw hlist]

/-- A walk that is not deep finds the children of its start. -/
theorem finds_children (hw : view.WellFormed) (hlooks : Looks inv view bad) (fuel : Nat) {start : List String} {s : τ} (hs : inv s)
    (hnamed : Path.Named start) :
    Finds inv (walk false · (fuel + 1) (Path.ofSegments start)) (view.ChildOf bad start) (Unlisted bad start) := by
  have hreached (name : String) (chain : List String) (h : chain = start ++ [name]) : start ++ [name] <+: chain :=
    h ▸ List.prefix_refl _
  have hmissed (name : String) (chain : List String) (_ : String) (h : False) : start ++ [name] <+: chain := h.elim
  obtain ⟨chains,skips,htells,hwalk⟩ :=
    finds_listed hlooks false fuel hs hnamed hreached hmissed fun name hsome => by
      obtain ⟨hdir,hname⟩ := Path.named_concat.mp (hw.named _ hsome)
      refine ⟨[start ++ [name]],[],⟨List.pairwise_singleton _ _,by simp,.nil,by simp⟩,fun wanted s hs => ?_⟩
      unfold visit
      rw [Path.join_ofSegments hdir hname]
      exact .pure ⟨hs,by rw [report_single]; rfl⟩
  refine ⟨chains,skips,htells.congr (fun names => and_congr_right fun _ => ?_) (by simp [Unlisted]),hwalk⟩
  constructor
  · rintro ⟨hsome,name,rfl⟩
    exact ⟨name,hsome,rfl⟩
  · rintro ⟨name,hsome,rfl⟩
    exact ⟨hsome,name,rfl⟩

/-! ### The paths of a walk -/

/-- The paths of a traversal are those that are reached, in their order, and those that are missed, with the reasons. -/
structure Lays (reached : List String → Prop) (missed : List String → String → Prop) (found : Traversal) : Prop where
  rising : (found.paths.map Path.segments).Pairwise (· < ·)
  mem_paths : ∀ path, path ∈ found.paths ↔ Path.normalize path = path ∧ reached (Path.segments path)
  skips_rising : (found.skipped.map fun skip => Path.segments skip.1).Pairwise (· < ·)
  mem_skipped : ∀ path reason, (path, reason) ∈ found.skipped ↔ Path.normalize path = path ∧ missed (Path.segments path) reason

theorem lays_report {reached : List String → Prop} {missed : List String → String → Prop} {chains : List (List String)}
    {skips : List (List String × String)} (h : Tells reached missed chains skips) (hreached : ∀ names, reached names → Path.Named names)
    (hmissed : ∀ names reason, missed names reason → Path.Named names) :
    Lays reached missed (report (fun _ => true) chains skips) := by
  have hchain {names : List String} (hn : names ∈ chains) : Path.Named names := hreached _ ((h.mem_chains _).mp hn)
  have hskip {skip : List String × String} (hn : skip ∈ skips) : Path.Named skip.1 := hmissed _ skip.2 ((h.mem_skips _ _).mp hn)
  have hpaths : (report (fun _ => true) chains skips).paths = chains.map Path.ofSegments := by simp [report]
  refine ⟨?_,fun path => ?_,?_,fun path reason => ?_⟩
  · have hsame : chains.map (Path.segments ∘ Path.ofSegments) = chains.map id :=
      List.map_congr_left fun names hn => Path.segments_ofSegments (hchain hn)
    rw [hpaths, List.map_map, hsame, List.map_id]
    exact h.rising
  · rw [hpaths, List.mem_map]
    constructor
    · rintro ⟨names,hn,rfl⟩
      rw [Path.normalize_ofSegments (hchain hn), Path.segments_ofSegments (hchain hn)]
      exact ⟨rfl,(h.mem_chains _).mp hn⟩
    · rintro ⟨hnormal,hreach⟩
      exact ⟨_,(h.mem_chains _).mpr hreach,by rw [← Path.normalize_eq, hnormal]⟩
  · have hsame : skips.map (fun skip => Path.segments (Path.ofSegments skip.1)) = skips.map Prod.fst :=
      List.map_congr_left fun skip hn => Path.segments_ofSegments (hskip hn)
    rw [report, List.map_map]
    exact hsame ▸ h.skips_rising
  · rw [report, List.mem_map]
    constructor
    · rintro ⟨⟨names,why⟩,hn,heq⟩
      obtain ⟨rfl,rfl⟩ := Prod.mk.inj heq
      rw [Path.normalize_ofSegments (hskip hn), Path.segments_ofSegments (hskip hn)]
      exact ⟨rfl,(h.mem_skips _ _).mp hn⟩
    · rintro ⟨hnormal,hmiss⟩
      exact ⟨_,(h.mem_skips _ _).mpr hmiss,by rw [← Path.normalize_eq, hnormal]⟩

/-- A walk that wants only some names tells those of the paths that have them, and skips the same. -/
theorem report_eq_filter {chains : List (List String)} (hnamed : ∀ names ∈ chains, Path.Named names) (wanted : String → Bool)
    (skips : List (List String × String)) :
    report wanted chains skips =
      ⟨(report (fun _ => true) chains skips).paths.filter fun path => wanted (Path.basename path),
        (report (fun _ => true) chains skips).skipped⟩ := by
  have hpaths : (report (fun _ => true) chains skips).paths = chains.map Path.ofSegments := by simp [report]
  rw [hpaths, List.filter_map, report, report]
  congr 2
  refine List.filter_congr fun names hn => ?_
  rw [Function.comp_apply, Path.basename_ofSegments (hnamed names hn)]

end Storage
end VirtualShell
