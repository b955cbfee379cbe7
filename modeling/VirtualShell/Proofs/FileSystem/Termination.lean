import Mathlib.Order.Lattice.Nat
import VirtualShell.Proofs.FileSystem.Moving
import VirtualShell.Proofs.FileSystem.Searching
import VirtualShell.Proofs.Storage.Recursion

/-!
Recursions through a tree of a file system over a store that does not fail. None of them goes deeper than the tree is high in
which it starts: removing and copying change it at places of its own height only, also where a copy goes to above the tree and
adds to it while it is being read.
-/
namespace VirtualShell.FileSystem
open Storing Legible

section
variable {σ : Type} [Storage σ]

/-! ### One level of a recursion -/

/-- Removing a node, where what is in a directory is removed in some way. -/
def removeStep (again : String → Filing σ Bool) (path : String) : Filing σ Bool := do
  let fs ← get
  let full := fs.resolve path
  if full == "/" || fs.holdsCwd full then return false
  match ← call (Storage.info full) with
  | none => return false
  | some node =>
    if node.isDir then
      let names ← call (Storage.list full)
      if !(← whileTrue (fun name => again (Path.join full name)) names) then return false
    call (Storage.delete full)

/-- Copying a file to where something else may stand. -/
def copyFile (src dst : String) : Filing σ Bool := do
  match ← call (Storage.read src) with
  | none => return false
  | some content => write dst content

/-- Copying what is in a directory in some way. -/
def fillStep (again : String × String × Bool → Filing σ Bool) (src dst : String) : Filing σ Bool := do
  let names ← call (Storage.list src)
  whileTrue (fun name => do
    match ← call (Storage.info (Path.join src name)) with
    | none => return true
    | some node => again (Path.join src name,Path.join dst name,node.isDir)) names

/-- Copying a node, where what is in a directory is copied in some way. -/
def copyStep (again : String × String × Bool → Filing σ Bool) : String × String × Bool → Filing σ Bool
  | (src,dst,false) => copyFile src dst
  | (src,dst,true) => do
    if !(← isDir dst) then
      if !(← mkdir dst) then return false
    fillStep again src dst

theorem removeTree_eq (fuel : Nat) : removeTree (σ := σ) fuel = removeStep^[fuel] fun _ => return false := by
  induction fuel with
  | zero => rfl
  | succ fuel ih =>
    rw [Function.iterate_succ_apply', ← ih]
    rfl

theorem copyTree_eq (fuel : Nat) (src dst : String) (dir : Bool) :
    copyTree (σ := σ) fuel src dst dir = (copyStep^[fuel] fun _ => return false) (src,dst,dir) := by
  induction fuel generalizing src dst dir with
  | zero => rfl
  | succ fuel ih =>
    have hsame : (fun args : String × String × Bool => copyTree (σ := σ) fuel args.1 args.2.1 args.2.2) =
        copyStep^[fuel] fun _ => return false := funext fun args => ih args.1 args.2.1 args.2.2
    rw [Function.iterate_succ_apply', ← hsame]
    cases dir <;> rfl

/-- Copying to where a copy goes, unless it is refused, in some way. -/
def cpBy (copy : String × String × Bool → Filing σ Bool) (src dst : String) : Filing σ Bool := do
  let src := (← get).resolve src
  match ← call (Storage.info src) with
  | none => return false
  | some node =>
    let dst ← destination src dst
    if dst == src || (node.isDir && Path.isWithin dst src) then return false
    copy (src,dst,node.isDir)

/-- Copying and then removing in some ways. -/
def mvBy (copy : String × String × Bool → Filing σ Bool) (remove : String → Filing σ Bool) (src dst : String) : Filing σ Bool := do
  let fs ← get
  let src := fs.resolve src
  if src == "/" || fs.holdsCwd src then return false
  if !(← cpBy copy src dst) then return false
  remove src

/-- Walking from a path in some way. -/
def walkBy (walk : String → Storing (Mount σ) Traversal) (path : String) : Filing σ Traversal := do
  call (walk ((← get).resolve path))

theorem cp_eq (src dst : String) : cp (σ := σ) src dst =
    cpBy (fun copied => do copyTree (← get).capacity copied.1 copied.2.1 copied.2.2) src dst := rfl

omit [Storage σ] in
theorem same_whileTrue {inv : FileSystem σ → Prop} {act act' : String → Filing σ Bool} {names : List String}
    (h : ∀ name ∈ names, Same inv (act name) (act' name)) : Same inv (whileTrue act names) (whileTrue act' names) := by
  induction names with
  | nil => exact .pure _
  | cons name names ih =>
    refine .bind (h name List.mem_cons_self) fun done => ?_
    split
    · exact ih fun other ho => h other (List.mem_cons_of_mem _ ho)
    · exact .pure _

end

/-! ### Trees that do not grow higher -/

/-- A file system in the middle of a recursion: the tree at a chain of names is no higher than it may be. -/
structure Bounded {σ : Type} [Legible σ] (cwd : String) (source : List String) (levels : Nat) (t : FileSystem σ) : Prop where
  intact : Intact t
  cwd_eq : t.cwd = cwd
  shallow : (shown t).Shallow source levels

section
variable {σ α : Type} {cwd : String} {source dest rest more : List String} {levels : Nat} {places : Set (List String)}

/-- What is altered at no more than its height leaves the tree as high as it may be. -/
theorem Bounded.of_altered [Legible σ] {t u : FileSystem σ} (h : Bounded cwd source levels t) (halt : Altered places t u)
    (hplaces : ∀ more, source ++ more ∈ places → (shown u (source ++ more)).isSome → more.length ≤ levels) :
    Bounded cwd source levels u where
  intact := halt.intact
  cwd_eq := (congrArg Setting.cwd halt.setting_eq).trans h.cwd_eq
  shallow more hm := by
    by_cases hmem : source ++ more ∈ places
    · exact hplaces more hmem hm
    · rw [halt.shown_eq h.intact hmem] at hm
      exact h.shallow more hm

theorem preserves_bounded [Legible σ] {act : Filing σ α} {wanted : FileSystem σ → α → View → Prop}
    (h : ∀ t, Bounded cwd source levels t → act.Tries places t (wanted t))
    (hplaces : ∀ more, source ++ more ∈ places → more.length ≤ levels) : Preserves (Bounded cwd source levels) act :=
  fun t ht => ht.of_altered (h t ht).altered fun more hm _ => hplaces more hm

/-- A look leaves the tree as it is. -/
theorem preserves_look [Legible σ] {act : Filing σ α} {wanted : FileSystem σ → α → View → Prop}
    (h : ∀ t, Bounded cwd source levels t → act.Tries ∅ t (wanted t)) : Preserves (Bounded cwd source levels) act :=
  preserves_bounded h fun _ hm => absurd hm (Set.notMem_empty _)

/-- What goes to a place outside of the tree, goes no deeper into it than it goes from there. -/
theorem length_le_of_landing (hnot : ¬ source <+: dest) (h : source ++ more = dest ++ rest) : more.length ≤ rest.length := by
  have hprefix : dest <+: source :=
    (List.prefix_or_prefix_of_prefix ⟨more,h⟩ (List.prefix_append dest rest)).resolve_left hnot
  have hle := hprefix.length_le
  have hlength := congrArg List.length h
  rw [List.length_append, List.length_append] at hlength
  omega

variable [Storage σ] [FallibleNodes σ]

/-- The names in a directory of the tree are one level further down. -/
private theorem list_bounded (hno : ¬ MayFail σ) (hnamed : Path.Named (source ++ rest)) {t : FileSystem σ}
    (ht : Bounded cwd source levels t) : (call (Storage.list (Path.ofSegments (source ++ rest)))).Yields t fun names u =>
      Bounded cwd source levels u ∧ ∀ name ∈ names, rest.length < levels ∧ Path.Named (source ++ rest ++ [name]) := by
  refine ((list_tries ht.intact _).yields hno).mono fun names u hlooked => ?_
  obtain ⟨halt,_,hlists⟩ := hlooked
  refine ⟨ht.of_altered halt fun _ hm => absurd hm (Set.notMem_empty _),fun name hname => ?_⟩
  rw [Path.segments_ofSegments hnamed] at hlists
  have hsome := (hlists.2 name).mp hname
  have hlevel := ht.shallow (rest ++ [name]) (by rwa [← List.append_assoc])
  rw [List.length_append, List.length_singleton] at hlevel
  exact ⟨hlevel,(wellFormed ht.intact).named _ hsome⟩

/-! ### Removing -/

private theorem removeStep_same (hno : ¬ MayFail σ) (hnamed : Path.Named (source ++ rest)) (hrest : rest.length ≤ levels)
    {path : String} (hpath : Path.resolve cwd path = Path.ofSegments (source ++ rest)) {again again' : String → Filing σ Bool}
    (hagain : ∀ name, rest.length < levels → Path.Named (source ++ rest ++ [name]) → Same (Bounded cwd source levels)
      (again (Path.ofSegments (source ++ rest ++ [name]))) (again' (Path.ofSegments (source ++ rest ++ [name])))) :
    Same (Bounded cwd source levels) (removeStep again path) (removeStep again' path) := by
  have hdelete : Preserves (Bounded cwd source levels) (call (σ := σ) (Storage.delete (Path.ofSegments (source ++ rest)))) := by
    refine preserves_bounded (fun t ht => delete_tries ht.intact _) fun more hm => ?_
    rw [Path.segments_ofSegments hnamed, Set.mem_singleton_iff, List.append_cancel_left_eq] at hm
    rwa [hm]
  refine .get_bind fun t ht => ?_
  rw [resolve, ht.cwd_eq, hpath]
  dsimp only
  split
  · exact .pure _
  refine .bind (.of_preserves (preserves_look fun t ht => info_tries ht.intact _)) fun found => ?_
  cases found with
  | none => exact .pure _
  | some node =>
    dsimp only
    split
    · refine .bind_yields (fun t ht => list_bounded hno hnamed ht) fun names hnames => ?_
      refine .bind (same_whileTrue fun name hname => ?_) fun all => ?_
      · obtain ⟨hlevel,hchild⟩ := hnames name hname
        rw [Path.join_ofSegments hnamed (Path.named_concat.mp hchild).2]
        exact hagain name hlevel hchild
      · split
        · exact .pure _
        · exact .of_preserves hdelete
    · exact .of_preserves hdelete

private theorem remove_same (hno : ¬ MayFail σ) {path : String} (hpath : Path.segments (Path.resolve cwd path) = source)
    {last last' : String → Filing σ Bool} {n m : Nat} (hn : levels < n) (hm : levels < m) :
    Same (Bounded cwd source levels) (removeStep^[n] last path) (removeStep^[m] last' path) := by
  let stands (depth : Nat) (path : String) : Prop := ∃ rest : List String, rest.length = depth ∧ rest.length ≤ levels ∧
    Path.Named (source ++ rest) ∧ Path.resolve cwd path = Path.ofSegments (source ++ rest)
  have hstart : stands 0 path := by
    refine ⟨[],rfl,Nat.zero_le _,?_,?_⟩
    · rw [List.append_nil, ← hpath]
      exact Path.named_segments _
    · rw [List.append_nil, ← hpath, ← Path.normalize_eq, Path.normalize_resolve]
  refine iterate_related stands ?_ hstart hn hm
  rintro again again' depth path ⟨rest,rfl,hrest,hnamed,hpath⟩ hagain
  refine removeStep_same hno hnamed hrest hpath fun name hlevel hchild => hagain _ hlevel ⟨rest ++ [name],by simp,by simpa,?_,?_⟩
  · rwa [← List.append_assoc]
  · rw [Path.resolve_ofSegments _ hchild, List.append_assoc]

/-! ### Copying -/

/-- A place where a copy may come to stand. -/
private theorem at_copy (hnot : ¬ source <+: dest) (hrest : rest.length ≤ levels) :
    ∀ more, source ++ more ∈ ({dest ++ rest} : Set (List String)) → more.length ≤ levels :=
  fun _ hm => (length_le_of_landing hnot hm).trans hrest

private theorem preserves_copyFile (hnot : ¬ source <+: dest) (hrest : rest.length ≤ levels) (hdest : Path.Named (dest ++ rest))
    (src : String) : Preserves (Bounded cwd source levels) (copyFile (σ := σ) src (Path.ofSegments (dest ++ rest))) := by
  refine .bind (preserves_look fun t ht => read_tries ht.intact src) fun found => ?_
  cases found with
  | none => exact .pure _
  | some content =>
    exact preserves_bounded (fun t ht => write_tries ht.intact (t.segments_resolve_ofSegments hdest)) (at_copy hnot hrest)

/-- The two ways to go on copying do the same one level further down. -/
private def CopiesAlike (cwd : String) (source dest rest : List String) (levels : Nat)
    (again again' : String × String × Bool → Filing σ Bool) : Prop :=
  ∀ name dir, rest.length < levels → Path.Named (source ++ rest ++ [name]) →
    let child := (Path.ofSegments (source ++ rest ++ [name]),Path.ofSegments (dest ++ rest ++ [name]),dir)
    Same (Bounded cwd source levels) (again child) (again' child)

private theorem fillStep_same (hno : ¬ MayFail σ) (hnamed : Path.Named (source ++ rest)) (hdest : Path.Named (dest ++ rest))
    {again again' : String × String × Bool → Filing σ Bool} (hagain : CopiesAlike cwd source dest rest levels again again') :
    Same (Bounded cwd source levels) (fillStep again (Path.ofSegments (source ++ rest)) (Path.ofSegments (dest ++ rest)))
      (fillStep again' (Path.ofSegments (source ++ rest)) (Path.ofSegments (dest ++ rest))) := by
  refine .bind_yields (fun t ht => list_bounded hno hnamed ht) fun names hnames => same_whileTrue fun name hname => ?_
  obtain ⟨hlevel,hchild⟩ := hnames name hname
  have hlast := (Path.named_concat.mp hchild).2
  refine .bind (.of_preserves (preserves_look fun t ht => info_tries ht.intact _)) fun found => ?_
  cases found with
  | none => exact .pure _
  | some node =>
    dsimp only
    rw [Path.join_ofSegments hnamed hlast, Path.join_ofSegments hdest hlast]
    exact hagain name node.isDir hlevel hchild

private theorem copyStep_same (hno : ¬ MayFail σ) (hnot : ¬ source <+: dest) (hnamed : Path.Named (source ++ rest))
    (hdest : Path.Named (dest ++ rest)) (hrest : rest.length ≤ levels) (dir : Bool)
    {again again' : String × String × Bool → Filing σ Bool} (hagain : CopiesAlike cwd source dest rest levels again again') :
    Same (Bounded cwd source levels) (copyStep again (Path.ofSegments (source ++ rest),Path.ofSegments (dest ++ rest),dir))
      (copyStep again' (Path.ofSegments (source ++ rest),Path.ofSegments (dest ++ rest),dir)) := by
  have hfill := fillStep_same hno hnamed hdest hagain
  cases dir with
  | false => exact .of_preserves (preserves_copyFile hnot hrest hdest _)
  | true =>
    refine .bind (.of_preserves (preserves_look fun t ht => isDir_tries ht.intact _)) fun there => ?_
    have hmkdir : Preserves (Bounded cwd source levels) (mkdir (σ := σ) (Path.ofSegments (dest ++ rest))) :=
      preserves_bounded (fun t ht => mkdir_tries ht.intact (t.segments_resolve_ofSegments hdest)) (at_copy hnot hrest)
    split
    · refine .bind (.of_preserves hmkdir) fun made => ?_
      split
      · exact .pure _
      · exact hfill
    · exact hfill

private theorem copy_same (hno : ¬ MayFail σ) (hnot : ¬ source <+: dest) (hsource : Path.Named source) (hdest : Path.Named dest)
    (dir : Bool) {last last' : String × String × Bool → Filing σ Bool} {n m : Nat} (hn : levels < n) (hm : levels < m) :
    Same (Bounded cwd source levels) (copyStep^[n] last (Path.ofSegments source,Path.ofSegments dest,dir))
      (copyStep^[m] last' (Path.ofSegments source,Path.ofSegments dest,dir)) := by
  let stands (depth : Nat) (copied : String × String × Bool) : Prop := ∃ rest : List String, rest.length = depth ∧
    rest.length ≤ levels ∧ Path.Named (source ++ rest) ∧ Path.Named (dest ++ rest) ∧
      copied = (Path.ofSegments (source ++ rest),Path.ofSegments (dest ++ rest),copied.2.2)
  have hstart : stands 0 (Path.ofSegments source,Path.ofSegments dest,dir) :=
    ⟨[],rfl,Nat.zero_le _,by simpa using hsource,by simpa using hdest,by simp⟩
  refine iterate_related stands ?_ hstart hn hm
  rintro again again' depth ⟨_,_,dir⟩ ⟨rest,rfl,hrest,hnamed,hnamed',hcopied⟩ hagain
  rw [hcopied]
  refine copyStep_same hno hnot hnamed hnamed' hrest dir fun name dir hlevel hchild => hagain _ hlevel ?_
  refine ⟨rest ++ [name],by simp,by simpa,?_,?_,?_⟩
  · rwa [← List.append_assoc]
  · rw [← List.append_assoc]
    exact Path.named_concat.mpr ⟨hnamed',(Path.named_concat.mp hchild).2⟩
  · simp

/-! ### From the start -/

variable {fs t : FileSystem σ} {n : Nat}

omit [Storage σ] [FallibleNodes σ] in
theorem Bounded.mono [Legible σ] {fewer : Nat} (h : Bounded cwd source fewer t) (hle : fewer ≤ levels) :
    Bounded cwd source levels t := ⟨h.intact,h.cwd_eq,fun more hm => (h.shallow more hm).trans hle⟩

/-- No tree is higher than what is held of the capacity of the file system. -/
private theorem Bounded.lower (h : Bounded cwd source levels t) : Bounded cwd source (min levels (t.capacity - 1)) t := by
  refine ⟨h.intact,h.cwd_eq,fun more hm => le_min (h.shallow more hm) ?_⟩
  have hlt := length_lt_capacity h.intact hm
  omega

omit [FallibleNodes σ] in
private theorem lower_lt (t : FileSystem σ) : min levels (t.capacity - 1) < t.capacity :=
  (min_le_right _ _).trans_lt (Nat.sub_lt (Nat.succ_pos _) Nat.one_pos)

omit [FallibleNodes σ] in
private theorem on_capacity (f : Nat → Filing σ Bool) (t : FileSystem σ) :
    (do f (← get).capacity : Filing σ Bool).on t = (f t.capacity).on t := on_bind_ok (on_get t)

private theorem rmRecursive_same (hno : ¬ MayFail σ) (ht : Bounded cwd source levels t) {path : String}
    (hpath : Path.segments (Path.resolve cwd path) = source) (hn : levels < n) (last : String → Filing σ Bool) :
    SameAt (Bounded cwd source levels) t (removeStep^[n] last path) (rmRecursive path) := by
  have hsame : SameAt (Bounded cwd source _) t (removeStep^[n] last path) ((removeStep^[t.capacity] fun _ => return false) path) :=
    remove_same hno hpath ((min_le_left _ _).trans_lt hn) (lower_lt t) t ht.lower
  rw [← removeTree_eq] at hsame
  exact ⟨hsame.1.trans (on_capacity (removeTree · path) t).symm,hsame.2.mono (min_le_left _ _)⟩

/-- A file is not copied to below itself, since nothing is there. -/
private theorem copyFile_below (ht : Bounded cwd source levels t) (hdest : Path.Named dest) (hbelow : source <+: dest)
    (hne : dest ≠ source) (hfile : shown t source ≠ some .dir) (src : String) :
    Bounded cwd source levels ((copyFile src (Path.ofSegments dest)).on t).2 := by
  obtain ⟨rest,rfl⟩ := hbelow
  have hrest : rest ≠ [] := by simpa using hne
  have htries : (copyFile src (Path.ofSegments (source ++ rest))).Tries {source ++ rest} t fun _ _ => True := by
    refine .look (read_tries ht.intact src) ht.intact fun found u halt _ _ => ?_
    cases found with
    | none => exact .pure halt.intact trivial
    | some content => exact (write_tries halt.intact (u.segments_resolve_ofSegments hdest)).mono fun _ _ _ => trivial
  refine ht.of_altered htries.altered fun more hm hsome => ?_
  -- What stands there stands in a directory, but the source is none and stays as it is.
  rw [Set.mem_singleton_iff.mp hm] at hsome
  have hdir := (wellFormed htries.altered.intact).ancestor hrest hsome
  rw [htries.altered.shown_eq ht.intact (by simpa using hrest)] at hdir
  exact absurd hdir hfile

private theorem cpBy_same (hno : ¬ MayFail σ) (ht : Bounded cwd source levels t) {src dst : String}
    (hsource : Path.segments (Path.resolve cwd src) = source) (hn : levels < n) (last : String × String × Bool → Filing σ Bool) :
    SameAt (Bounded cwd source levels) t (cpBy (copyStep^[n] last) src dst) (cp src dst) := by
  have hnamed : Path.Named source := hsource ▸ Path.named_segments _
  have hresolve : t.resolve src = Path.ofSegments source := by rw [resolve_eq, resolve, ht.cwd_eq, hsource]
  have hlook {u : FileSystem σ} (halt : Altered ∅ t u) : Bounded cwd source levels u :=
    ht.of_altered halt fun _ hm => absurd hm (Set.notMem_empty _)
  rw [cp_eq]
  refine .get_bind ?_
  dsimp only
  rw [hresolve]
  refine .bind_yields ((info_tries ht.intact _).yields hno) fun found u hlooked => ?_
  obtain ⟨hu,_,hfound⟩ := hlooked
  rw [Path.segments_ofSegments hnamed] at hfound
  cases found with
  | none => exact .pure _ (hlook hu)
  | some node =>
    have hdir := View.any_isDir_iff hfound
    refine .bind_yields ((destination_tries hu.intact hnamed dst).yields hno) fun goal v haimed => ?_
    obtain ⟨hv,_,hgoal⟩ := haimed
    have halt := hu.trans hv
    have hbounded := hlook halt
    have hdest : Path.Named ((shown u).landing source (Path.segments (u.resolve dst))) :=
      View.named_landing hnamed (Path.named_segments _)
    generalize (shown u).landing source (Path.segments (u.resolve dst)) = dest at hgoal hdest
    subst hgoal
    split
    · exact .pure _ hbounded
    rename_i hgo
    rw [refuses_iff hnamed hdest, not_or, not_and] at hgo
    by_cases hbelow : source <+: dest
    · have hfile : node.isDir = false := eq_false_of_ne_true fun hd => hgo.2 hd hbelow
      obtain ⟨n,rfl⟩ := Nat.exists_eq_add_one_of_ne_zero (Nat.ne_zero_of_lt hn)
      rw [hfile, Function.iterate_succ_apply']
      refine ⟨rfl,copyFile_below hbounded hdest hbelow hgo.1 ?_ _⟩
      rw [halt.shown_eq_of_empty ht.intact, ne_eq, ← hdir, Option.any_some, hfile]
      exact Bool.false_ne_true
    · have hsame : SameAt (Bounded cwd source _) v (copyStep^[n] last (Path.ofSegments source,Path.ofSegments dest,node.isDir))
          ((copyStep^[v.capacity] fun _ => return false) (Path.ofSegments source,Path.ofSegments dest,node.isDir)) :=
        copy_same hno hbelow hnamed hdest node.isDir ((min_le_left _ _).trans_lt hn) (lower_lt v) v hbounded.lower
      rw [← copyTree_eq] at hsame
      exact ⟨hsame.1.trans (on_capacity (copyTree · _ _ _) v).symm,hsame.2.mono (min_le_left _ _)⟩

private theorem mvBy_same (hno : ¬ MayFail σ) (ht : Bounded cwd source levels t) {src dst : String}
    (hsource : Path.segments (Path.resolve cwd src) = source) (hn : levels < n) (last : String × String × Bool → Filing σ Bool)
    (last' : String → Filing σ Bool) :
    SameAt (Bounded cwd source levels) t (mvBy (copyStep^[n] last) (removeStep^[n] last') src dst) (mv src dst) := by
  have hresolve : t.resolve src = Path.ofSegments source := by rw [resolve_eq, resolve, ht.cwd_eq, hsource]
  have hagain : Path.segments (Path.resolve cwd (Path.ofSegments source)) = source := by
    have hnamed : Path.Named source := hsource ▸ Path.named_segments _
    rw [Path.resolve_ofSegments _ hnamed, Path.segments_ofSegments hnamed]
  refine .get_bind ?_
  dsimp only
  rw [hresolve]
  split
  · exact .pure _ ht
  · refine .bind (cpBy_same hno ht hagain hn last) fun done u hu => ?_
    split
    · exact .pure _ hu
    · exact rmRecursive_same hno hu hagain hn last'

/-- A store that does not fail can be looked at wherever it is intact. -/
theorem looks_shown (hno : ¬ MayFail σ) (view : View) :
    Storage.Looks (fun s : σ => Intact s ∧ shown s = view) view ⟨fun _ => false,fun _ => false⟩ where
  list path h := by
    refine ((FallibleNodes.list path h.1).yields hno).caught.mono ?_
    rintro _ u ⟨names,rfl,halt,hview,hlists⟩
    exact ⟨⟨halt.intact,hview.trans h.2⟩,names,rfl,h.2 ▸ hlists⟩
  info path h := by
    refine ((FallibleNodes.info path h.1).yields hno).caught.mono ?_
    rintro _ u ⟨node,rfl,halt,hview,hnode⟩
    exact ⟨⟨halt.intact,hview.trans h.2⟩,node,rfl,h.2 ▸ hnode⟩

private theorem walk_same (hno : ¬ MayFail σ) (hs : Intact fs) (path : String)
    (hshallow : (shown fs).Shallow (Path.segments (fs.resolve path)) levels) (hn : levels < n) (deep : Bool) (wanted : String → Bool)
    (last : String → Storing (Mount σ) Traversal) : (walkBy ((Storage.walkStep deep wanted)^[n] last) path).on fs =
      (call (Storage.walk deep wanted fs.capacity (fs.resolve path))).on fs := by
  have hlower : (shown fs).Shallow (Path.segments (fs.resolve path)) (min levels (fs.capacity - 1)) :=
    (Bounded.lower ⟨hs,rfl,hshallow⟩).shallow
  have hsame : ((Storage.walkStep deep wanted)^[n] last (fs.resolve path)).on fs.mount =
      (((Storage.walkStep deep wanted)^[fs.capacity] fun _ => return .empty) (fs.resolve path)).on fs.mount := by
    rw [fs.resolve_eq path]
    exact (Storage.walk_same (Mount.looks_store (looks_shown hno (shown fs))) (wellFormed hs) (Path.named_segments _) hlower deep
      wanted ((min_le_left _ _).trans_lt hn) (lower_lt fs) fs.mount ⟨hs,rfl⟩).1
  rw [← Storage.walk_eq] at hsame
  rw [walkBy, call, on_bind_ok (on_get fs), call, on_within, on_within, hsame]

end

/-! ### Heights -/

/-- How far down from a path nodes are found. -/
def depths (fs : FileSystem Provider) (path : String) : Set Nat :=
  {n | ∃ names node, Path.Named names ∧ names.length = n ∧ (fs.sight (Path.descend path names)).1 = .ok (some node)}

theorem shallow_iff {fs : FileSystem Provider} (hs : Intact fs) (path : String) (levels : Nat) :
    (shown fs).Shallow (Path.segments path) levels ↔ levels ∈ upperBounds (fs.depths path) := by
  constructor
  · rintro hshallow _ ⟨names,node,hnamed,rfl,hnode⟩
    have hsome := (exists_node_iff hs).mp ⟨node,hnode⟩
    rw [Path.segments_descend _ hnamed] at hsome
    exact hshallow names hsome
  · intro hupper more hsome
    have hnamed := (Path.named_append.mp ((wellFormed hs).named _ hsome)).2
    rw [← Path.segments_descend _ hnamed] at hsome
    obtain ⟨node,hnode⟩ := (exists_node_iff hs).mpr hsome
    exact hupper ⟨more,node,hnamed,rfl,hnode⟩

/-- A tree has a height. -/
theorem exists_height {fs : FileSystem Provider} (hs : Intact fs) (path : String) : ∃ height, IsLUB (fs.depths path) height :=
  ⟨_,isLUB_csSup' ⟨fs.capacity,(shallow_iff hs path _).mp fun _ hm => (length_lt_capacity hs hm).le⟩⟩

/--
No recursion through a tree goes deeper than the tree is high, wherever a copy goes to: cut off anywhere below that, whatever is
done there instead, removing, copying, moving, finding and searching come to the same. The search for all that is temporary ends
once every directory that it finds has had its turn.
-/
theorem recursions_end {fs : FileSystem Provider} (hfs : Reached Provider.Ready fs) :
    (∀ path, ∃ height, IsLUB (fs.depths (fs.resolve path)) height ∧ ∀ n, height < n →
      (∀ last, (removeStep^[n] last path).on fs = (rmRecursive path).on fs) ∧
      (∀ dst last, (cpBy (copyStep^[n] last) path dst).on fs = (cp path dst).on fs) ∧
      (∀ dst last last', (mvBy (copyStep^[n] last) (removeStep^[n] last') path dst).on fs = (mv path dst).on fs) ∧
      (∀ deep last, (walkBy ((Storage.walkStep deep fun _ => true)^[n] last) path).on fs = (find path deep).on fs) ∧
      ∀ pattern glob deep last, Glob.compile pattern = .ok glob →
        (walkBy ((Storage.walkStep deep glob.isMatch)^[n] last) path).on fs = (search path pattern deep).on fs) ∧
    ∃ nodes, (Storage.tempDescendants.on fs.mount.store).1 = .ok nodes ∧ ∀ n, nodes.length + 1 < n → ∀ last,
      (Storage.deepestFirst (Storage.searchStep^[n] last)).on fs.mount.store = Storage.tempDescendants.on fs.mount.store := by
  have hs := hfs.intact
  refine ⟨fun path => ?_,Storage.tempDescendants_same hs⟩
  obtain ⟨height,hheight⟩ := exists_height hs (fs.resolve path)
  have hshallow := (shallow_iff hs _ _).mpr hheight.1
  have hbounded : Bounded fs.cwd (Path.segments (fs.resolve path)) height fs := ⟨hs,rfl,hshallow⟩
  refine ⟨height,hheight,fun n hn => ⟨fun last => ?_,fun dst last => ?_,fun dst last last' => ?_,fun deep last => ?_,?_⟩⟩
  · exact (rmRecursive_same id hbounded rfl hn last).1
  · exact (cpBy_same id hbounded rfl hn last).1
  · exact (mvBy_same id hbounded rfl hn last last').1
  · rw [find, on_seek]
    exact walk_same id hs path hshallow hn deep _ last
  · intro pattern glob deep last hglob
    rw [search_eq hglob, on_seek]
    exact walk_same id hs path hshallow hn deep _ last

/-- A copy to above its source adds to the directory that is being read, and ends. -/
theorem recursions_end_above :
    let events : List (Timestamp × Action) := [(1,.mkdir "/a"),(2,.mkdir "/a/a"),(3,.mkdir "/a/a/a"),(4,.write "/a/a/a/f" "x")]
    let fs := (opening (Provider.tree Tree.empty)).after events
    ∃ height, IsLUB (fs.depths "/a/a") height ∧ ∀ last,
      let after := ((cpBy (copyStep^[height + 1] last) "/a/a" "/").on fs).2
      (fs.sight "/a/a/f").2 = .ok none ∧ (after.sight "/a/a/f").2 = .ok (some "x") := by
  intro events fs
  have hopens : (open_ 0 (Provider.tree Tree.empty)).isOk = true := by decide +kernel
  have hready : Reached Provider.Ready fs := .after (.opening Provider.Ready.tree hopens)
  have hresolve : fs.resolve "/a/a" = "/a/a" := by decide +kernel
  obtain ⟨hpaths,-⟩ := recursions_end hready
  obtain ⟨height,hheight,hends⟩ := hpaths "/a/a"
  rw [hresolve] at hheight
  refine ⟨height,hheight,fun last => ?_⟩
  obtain ⟨-,hcp,-⟩ := hends (height + 1) (Nat.lt_succ_self _)
  rw [hcp]
  decide +kernel

end VirtualShell.FileSystem
