import VirtualShell.Proofs.FileSystem.Edits

/-!
Copying a whole tree. The copy is made at the counterparts of what is copied and nowhere else, so that a source apart
from them stays as it is all the while; whatever fails or is denied on the way, nothing else is changed.
-/
namespace VirtualShell
open Storing Legible

/-- The tree that hangs at a chain of names. -/
def View.below (view : View) (names : List String) : View := fun more => view (names ++ more)

theorem View.below_below (view : View) (names more : List String) : (view.below names).below more = view.below (names ++ more) := by
  funext rest
  simp [below]

/-- The counterparts of a tree at another place. -/
def copies (dest : List String) (tree : View) : Set (List String) :=
  {place | ∃ more, (tree more).isSome ∧ place = dest ++ more}

theorem copies_below_subset (dest : List String) (tree : View) (names : List String) :
    copies (dest ++ names) (tree.below names) ⊆ copies dest tree :=
  fun _ ⟨more,hm,hp⟩ => ⟨names ++ more,hm,by rw [hp, List.append_assoc]⟩

theorem copies_subset_treeAt (dest : List String) (tree : View) : copies dest tree ⊆ treeAt dest :=
  fun _ ⟨more,_,hp⟩ => ⟨more,hp.symm⟩

namespace View
variable {view other tree : View} {dest : List String} {depth : Nat}

/-- Nothing is in the way of a copy of a tree of less than a given depth. -/
structure Room (view : View) (depth : Nat) (tree : View) (dest : List String) : Prop where
  start : (view dest).isSome ∨ view.Vacant dest
  kinds : ∀ more item there, tree more = some item → view (dest ++ more) = some there → there.isDir = item.isDir
  shallow : ∀ more, (tree more).isSome → more.length < depth

/-- A tree stands at its copy. -/
def CopiedTo (tree : View) (dest : List String) (view : View) : Prop :=
  ∀ more item, tree more = some item → view (dest ++ more) = some item

/-- A copy goes into a directory that is there, under its own name. -/
def landing (view : View) (source dest : List String) : List String :=
  if view dest = some .dir then dest ++ source.getLast?.toList else dest

theorem named_landing {source : List String} (hsource : Path.Named source) (hdest : Path.Named dest) :
    Path.Named (view.landing source dest) := by
  unfold landing
  split
  · exact Path.named_append.mpr ⟨hdest,fun name hn => hsource name (List.mem_of_getLast? (Option.mem_toList.mp hn))⟩
  · exact hdest

/-- In a directory a copy can start. -/
private theorem starts_in (hinto : view dest = some .dir) (name : String) :
    (view (dest ++ [name])).isSome ∨ view.Vacant (dest ++ [name]) := by
  by_cases hthere : (view (dest ++ [name])).isSome
  · exact .inl hthere
  · exact .inr ⟨by simp,Option.not_isSome_iff_eq_none.mp hthere,by rw [List.dropLast_concat, hinto]⟩

/-- The room for a tree is room for the trees in it, once its directory is there. -/
private theorem Room.child (h : view.Room (depth + 1) tree dest) (hinto : other dest = some .dir)
    (hsame : ∀ more, more ≠ [] → other (dest ++ more) = view (dest ++ more)) (name : String) :
    other.Room depth (tree.below [name]) (dest ++ [name]) where
  start := starts_in hinto name
  kinds more item there hitem hthere := by
    rw [List.append_assoc, hsame _ (by simp)] at hthere
    exact h.kinds ([name] ++ more) item there hitem hthere
  shallow more hm := by
    have hlength := h.shallow ([name] ++ more) hm
    simpa [Nat.add_comm] using hlength

end View

namespace FileSystem
variable {σ : Type} [Storage σ] [FallibleNodes σ] {fs : FileSystem σ} {source dest : List String} {tree : View} {fuel : Nat}

/-- The action makes a copy of a tree if it succeeds, and nothing beside it; without a policy it succeeds if there is room. -/
def Copies (act : Filing σ Bool) (fs : FileSystem σ) (depth : Nat) (tree : View) (dest : List String) : Prop :=
  act.Tries (copies dest tree) fs fun done after =>
    (done = true → tree.CopiedTo dest after) ∧ ((setting fs).free = true → (shown fs).Room depth tree dest → done = true)

/-- A file system in the middle of copying: the source is as it was, and its copies go into a directory. -/
private structure Copying (start : FileSystem σ) (source dest : List String) (tree : View) (t : FileSystem σ) : Prop where
  intact : Intact t
  setting_eq : setting t = setting start
  source_eq : (shown t).below source = tree
  into : shown t dest = some .dir

/-! ### Files -/

private theorem below_file (hs : Intact fs) (htree : (shown fs).below source = tree) {content : String}
    (hfile : tree [] = some (.file content)) {more : List String} (hm : (tree more).isSome) : more = [] := by
  by_contra hne
  rw [← htree] at hfile hm
  rw [View.below, List.append_nil] at hfile
  rw [(wellFormed hs).ancestor hne hm] at hfile
  simp at hfile

private theorem copies_file (hs : Intact fs) (htree : (shown fs).below source = tree) {content : String}
    (hfile : tree [] = some (.file content)) : copies dest tree = {dest} := by
  ext place
  constructor
  · rintro ⟨more,hm,rfl⟩
    simp [below_file hs htree hfile hm]
  · rintro rfl
    exact ⟨[],by simp [hfile],by simp⟩

private theorem file_copies (hs : Intact fs) (hsource : Path.Named source) (hdest : Path.Named dest)
    (htree : (shown fs).below source = tree) {content : String} (hfile : tree [] = some (.file content)) :
    Copies (copyTree (fuel + 1) (Path.ofSegments source) (Path.ofSegments dest) false) fs (fuel + 1) tree dest := by
  have hstands : shown fs source = some (.file content) := by
    rw [← hfile, ← htree, View.below, List.append_nil]
  refine .look (read_tries hs _) hs fun found t halt hview hfound => ?_
  rw [Path.segments_ofSegments hsource, View.content?, hstands] at hfound
  rw [hfound]
  have hwrite : (write (Path.ofSegments dest) content).Tries _ t _ :=
    write_tries halt.intact (t.segments_resolve_ofSegments hdest)
  rw [hview, halt.setting_eq] at hwrite
  rw [copies_file hs htree hfile]
  refine hwrite.mono fun done after h => ⟨fun hd more item hm => ?_,fun hf hroom => h.done_of_can hf ?_⟩
  · obtain rfl := below_file hs htree hfile (by rw [hm]; rfl)
    obtain rfl := Option.some.inj (hfile.symm.trans hm)
    rw [h.after_eq, if_pos hd, List.append_nil, View.set_self]
  · refine hroom.start.imp_left fun hthere => ?_
    obtain ⟨there,hthere⟩ := Option.isSome_iff_exists.mp hthere
    have hkind := hroom.kinds [] _ there hfile (by rwa [List.append_nil])
    cases there with
    | dir => simp [Item.isDir] at hkind
    | file old => exact ⟨old,hthere⟩

/-! ### Directories -/

private theorem disjoint_copies_child (hdisjoint : Disjoint (copies dest tree) (treeAt source)) (name : String) :
    Disjoint (copies (dest ++ [name]) (tree.below [name])) (treeAt (source ++ [name])) := by
  refine hdisjoint.mono (copies_below_subset dest tree [name]) fun place hp => ?_
  exact (List.prefix_append source [name]).trans hp

private theorem Copying.of_altered {start t u : FileSystem σ} {places : Set (List String)} (h : Copying start source dest tree t)
    (halt : Altered places t u) (hsource : Disjoint places (treeAt source)) (hdest : dest ∉ places) :
    Copying start source dest tree u where
  intact := halt.intact
  setting_eq := halt.setting_eq.trans h.setting_eq
  source_eq := by
    rw [← h.source_eq]
    funext more
    exact halt.shown_eq h.intact (Set.disjoint_right.mp hsource (List.prefix_append source more))
  into := by rw [halt.shown_eq h.intact hdest, h.into]

private theorem not_mem_copies_child (name : String) : dest ∉ copies (dest ++ [name]) (tree.below [name]) :=
  fun ⟨more,_,hp⟩ => by simpa using congrArg List.length hp

/-- Changes apart from a copy leave the room for it. -/
private theorem room_of_altered {t u : FileSystem σ} {places : Set (List String)} {depth : Nat} {name : String}
    (h : (shown t).Room depth tree (dest ++ [name])) (ht : Intact t) (halt : Altered places t u)
    (hinto : shown u dest = some .dir) (hapart : Disjoint (copies (dest ++ [name]) tree) places) :
    (shown u).Room depth tree (dest ++ [name]) where
  start := View.starts_in hinto name
  kinds more item there hitem hthere := by
    rw [halt.shown_eq ht (Set.disjoint_left.mp hapart ⟨more,by rw [hitem]; rfl,rfl⟩)] at hthere
    exact h.kinds more item there hitem hthere
  shallow := h.shallow

private theorem each_copies {names : List String} {act : String → Filing σ Bool}
    (hact : ∀ name ∈ names, ∀ t, Copying fs source dest tree t → Copies (act name) t fuel (tree.below [name]) (dest ++ [name]))
    (hsource : Disjoint (copies dest tree) (treeAt source)) :
    Each names act (fun name => copies (dest ++ [name]) (tree.below [name])) (Copying fs source dest tree)
      (fun name t => (setting fs).free = true ∧ (shown t).Room fuel (tree.below [name]) (dest ++ [name]))
      fun name => (tree.below [name]).CopiedTo (dest ++ [name]) where
  intact h := h.intact
  tries name hn t h := (hact name hn t h).mono fun done after hd =>
    ⟨hd.1,fun hc => hd.2 (by rw [h.setting_eq]; exact hc.1) hc.2⟩
  keeps name _ t u h halt :=
    h.of_altered halt (hsource.mono_left (copies_below_subset dest tree [name])) (not_mem_copies_child name)
  disjoint name _ other _ h := (disjoint_treeAt h).mono (copies_subset_treeAt _ _) (copies_subset_treeAt _ _)
  gets_apart name _ places t u hapart ht halt hgets more item hitem := by
    rw [halt.shown_eq ht (Set.disjoint_left.mp hapart ⟨more,by rw [hitem]; rfl,rfl⟩)]
    exact hgets more item hitem
  can_apart name _ places t u hapart ht hu halt hcan := ⟨hcan.1,room_of_altered hcan.2 ht.intact halt hu.into hapart⟩

/-- Copying into a directory that is there: the names of the source one after the other. -/
private theorem fill_copies {t : FileSystem σ} (hsource : Path.Named source) (ht : Copying fs source dest tree t)
    (hapart : Disjoint (copies dest tree) (treeAt source)) (hdir : tree [] = some .dir) {act : String → Filing σ Bool}
    (hact : ∀ name, (tree [name]).isSome → ∀ u, Copying fs source dest tree u →
      Copies (act name) u fuel (tree.below [name]) (dest ++ [name])) :
    (do
      let names ← call (Storage.list (Path.ofSegments source))
      whileTrue act names).Tries (copies dest tree) t fun done after => (done = true → tree.CopiedTo dest after) ∧
        ((setting fs).free = true → (∀ name, (shown t).Room fuel (tree.below [name]) (dest ++ [name])) → done = true) := by
  refine .look (list_tries ht.intact _) ht.intact fun names u hu hview hlists => ?_
  rw [Path.segments_ofSegments hsource] at hlists
  have hnames (name : String) : name ∈ names ↔ (tree [name]).isSome := by
    rw [hlists.2, ← ht.source_eq, View.below]
  have hcopying : Copying fs source dest tree u := ht.of_altered hu (Set.empty_disjoint _) (Set.notMem_empty _)
  have heach := each_copies (fun name hn => hact name ((hnames name).mp hn)) hapart
  refine .widen (.imp (heach.whileTrue hlists.nodup hcopying) fun done v hv ⟨hgets,hcan⟩ =>
    ⟨fun hd more item hitem => ?_,fun hf hroom => hcan fun name _ => ⟨hf,?_⟩⟩) ?_
  · cases more with
    | nil =>
      rw [hdir, Option.some.injEq] at hitem
      have hstays : dest ∉ {place | ∃ name ∈ names, place ∈ copies (dest ++ [name]) (tree.below [name])} :=
        fun ⟨name,_,hp⟩ => not_mem_copies_child name hp
      rw [List.append_nil, hv.shown_eq hu.intact hstays, hcopying.into, hitem]
    | cons name rest =>
      have hname : (tree [name]).isSome := by
        rw [← ht.source_eq, View.below] at hitem ⊢
        by_contra hno
        have hnone := (wellFormed ht.intact).none_under (Option.not_isSome_iff_eq_none.mp hno) rest
        simp [hitem] at hnone
      rw [← List.singleton_append, ← List.append_assoc]
      exact hgets hd name ((hnames name).mpr hname) rest item hitem
  · exact room_of_altered (hroom name) ht.intact hu hcopying.into (Set.disjoint_empty _)
  · rintro _ ⟨name,_,hp⟩
    exact copies_below_subset dest tree [name] hp

/-- Copying what has a name in one directory to that name in another. -/
private def copyNamed (fuel : Nat) (source dest : List String) (name : String) : Filing σ Bool := do
  match ← call (Storage.info (Path.join (Path.ofSegments source) name)) with
  | none => return true
  | some node =>
    copyTree fuel (Path.join (Path.ofSegments source) name) (Path.join (Path.ofSegments dest) name) node.isDir

/-- Filling the directory of a copy. -/
private def copyInto (fuel : Nat) (source dest : List String) : Filing σ Bool := do
  let names ← call (Storage.list (Path.ofSegments source))
  whileTrue (copyNamed fuel source dest) names

omit [FallibleNodes σ] in
private theorem copyTree_dir (fuel : Nat) (source dest : List String) :
    copyTree (σ := σ) (fuel + 1) (Path.ofSegments source) (Path.ofSegments dest) true = (do
      if !(← isDir (Path.ofSegments dest)) then
        if !(← mkdir (Path.ofSegments dest)) then return false
      copyInto fuel source dest) :=
  rfl

/-- What copying with some fuel does to a tree apart from its copy. -/
private def CopiesTrees (σ : Type) [Storage σ] [FallibleNodes σ] (fuel : Nat) : Prop :=
  ∀ (fs : FileSystem σ) (source dest : List String) (item : Item), Intact fs → Path.Named source → Path.Named dest →
    shown fs source = some item → Disjoint (copies dest ((shown fs).below source)) (treeAt source) →
    Copies (copyTree fuel (Path.ofSegments source) (Path.ofSegments dest) item.isDir) fs fuel ((shown fs).below source) dest

private theorem copyNamed_copies (h : CopiesTrees σ fuel) (hs : Intact fs) {name : String} (hsource : Path.Named (source ++ [name]))
    (hdest : Path.Named (dest ++ [name])) (hname : (shown fs (source ++ [name])).isSome)
    (hapart : Disjoint (copies (dest ++ [name]) ((shown fs).below (source ++ [name]))) (treeAt (source ++ [name]))) :
    Copies (copyNamed fuel source dest name) fs fuel ((shown fs).below (source ++ [name])) (dest ++ [name]) := by
  obtain ⟨hsources,hlast⟩ := Path.named_concat.mp hsource
  rw [Copies, copyNamed, Path.join_ofSegments hsources hlast, Path.join_ofSegments (Path.named_concat.mp hdest).1 hlast]
  refine .look (info_tries hs _) hs fun found t halt hview hfound => ?_
  obtain ⟨item,hitem⟩ := Option.isSome_iff_exists.mp hname
  rw [Path.segments_ofSegments hsource, View.node?, hitem] at hfound
  obtain ⟨node,rfl,hnode⟩ := Option.map_eq_some_iff.mp hfound
  have hkind : node.isDir = item.isDir := congrArg Node.isDir hnode
  have hcopies := h t _ _ item halt.intact hsource hdest (by rw [hview, hitem]) (by rwa [hview])
  rw [Copies, hview, halt.setting_eq, ← hkind] at hcopies
  exact hcopies

private theorem copyInto_copies (h : CopiesTrees σ fuel) (hs : Intact fs) (hsource : Path.Named source) (hdest : Path.Named dest)
    (hdir : shown fs source = some .dir) (hapart : Disjoint (copies dest ((shown fs).below source)) (treeAt source))
    {t : FileSystem σ} (halt : Altered {dest} fs t) (hinto : shown t dest = some .dir) :
    (copyInto fuel source dest).Tries (copies dest ((shown fs).below source)) t fun done after =>
      (done = true → ((shown fs).below source).CopiedTo dest after) ∧
      ((setting fs).free = true → (shown fs).Room (fuel + 1) ((shown fs).below source) dest → done = true) := by
  have hroot : (shown fs).below source [] = some .dir := by rwa [View.below, List.append_nil]
  have hstart : dest ∉ treeAt source := Set.disjoint_left.mp hapart ⟨[],by rw [hroot]; rfl,by simp⟩
  have hcopying : Copying fs source dest ((shown fs).below source) t := {
    intact := halt.intact
    setting_eq := halt.setting_eq
    source_eq := funext fun more => halt.shown_eq hs fun hp => hstart (hp ▸ List.prefix_append source more)
    into := hinto }
  refine .mono (fill_copies hsource hcopying hapart hroot fun name hname u hu => ?_) fun done after h =>
    ⟨h.1,fun hf hroom => h.2 hf fun name => hroom.child hinto (fun more hm => halt.shown_eq hs (by simpa using hm)) name⟩
  have hnamed : Path.Named (source ++ [name]) := (wellFormed hs).named _ hname
  have hbelow : (shown u).below (source ++ [name]) = ((shown fs).below source).below [name] := by
    rw [← View.below_below, hu.source_eq]
  have hthere : shown u (source ++ [name]) = shown fs (source ++ [name]) := congrFun hu.source_eq [name]
  rw [← hbelow]
  refine copyNamed_copies h hu.intact hnamed (Path.named_concat.mpr ⟨hdest,(Path.named_concat.mp hnamed).2⟩)
    (by rwa [hthere]) ?_
  rw [hbelow]
  exact disjoint_copies_child hapart name

private theorem dir_copies (h : CopiesTrees σ fuel) (hs : Intact fs) (hsource : Path.Named source) (hdest : Path.Named dest)
    (hdir : shown fs source = some .dir) (hapart : Disjoint (copies dest ((shown fs).below source)) (treeAt source)) :
    Copies (copyTree (fuel + 1) (Path.ofSegments source) (Path.ofSegments dest) true) fs (fuel + 1) ((shown fs).below source) dest := by
  have hroot : (shown fs).below source [] = some .dir := by rwa [View.below, List.append_nil]
  rw [copyTree_dir]
  refine .look (isDir_tries hs _) hs fun there t halt hview hthere => ?_
  rw [fs.segments_resolve_ofSegments hdest] at hthere
  cases there with
  | true =>
    exact copyInto_copies h hs hsource hdest hdir hapart (halt.mono (Set.empty_subset _)) (by rw [hview, hthere.mp rfl])
  | false =>
    have hmkdir := mkdir_tries halt.intact (t.segments_resolve_ofSegments hdest)
    rw [hview, halt.setting_eq] at hmkdir
    have hplace : {dest} ⊆ copies dest ((shown fs).below source) := by
      rintro _ rfl
      exact ⟨[],by rw [hroot]; rfl,by simp⟩
    refine .seq hmkdir (fun made u hu hchanges => ?_) hplace subset_rfl
    cases made with
    | true =>
      refine copyInto_copies h hs hsource hdest hdir hapart ((halt.mono (Set.empty_subset _)).trans hu) ?_
      rw [hchanges.after_eq, if_pos rfl, View.set_self]
    | false =>
      refine .pure hu.intact ⟨nofun,fun hf hroom => hchanges.done_of_can hf (hroom.start.resolve_left fun hsome => ?_)⟩
      obtain ⟨item,hi⟩ := Option.isSome_iff_exists.mp hsome
      have hkind := hroom.kinds [] _ item hroot (by rwa [List.append_nil])
      exact absurd (hthere.mpr ((item.isDir_iff.mp hkind) ▸ hi)) (by simp)

/-- A tree is copied by its files and directories. -/
private theorem copiesTrees (fuel : Nat) : CopiesTrees σ fuel := by
  induction fuel with
  | zero =>
    intro fs source dest item hs _ _ hitem _
    refine .pure hs ⟨nofun,fun _ hroom => ?_⟩
    have hdeep := hroom.shallow [] (by rw [View.below, List.append_nil, hitem]; rfl)
    simp at hdeep
  | succ fuel ih =>
    intro fs source dest item hs hsource hdest hitem hapart
    cases item with
    | file content => exact file_copies hs hsource hdest rfl (by rwa [View.below, List.append_nil])
    | dir => exact dir_copies ih hs hsource hdest hitem hapart

/-! ### Where a copy goes -/

theorem destination_tries (hs : Intact fs) (hsource : Path.Named source) (dst : String) :
    (destination (Path.ofSegments source) dst).Tries ∅ fs fun goal after => after = shown fs ∧
      goal = Path.ofSegments ((shown fs).landing source (Path.segments (fs.resolve dst))) := by
  refine .get_bind (.look (info_tries hs _) hs fun there t halt hview hthere => ?_)
  have hdir := View.any_isDir_iff hthere
  split
  · rename_i hd
    refine .pure halt.intact ⟨hview,?_⟩
    rw [View.landing, if_pos (hdir.mp hd), resolve_eq, Path.join_basename (Path.named_segments _) hsource,
      ← resolve_eq]
  · rename_i hd
    refine .pure halt.intact ⟨hview,?_⟩
    rw [View.landing, if_neg fun h => hd (hdir.mpr h), ← resolve_eq]

omit [Storage σ] [FallibleNodes σ] in
/-- A tree is apart from its copy, unless the copy goes into the tree or comes from above onto something in it. -/
theorem copies_apart {view : View} (hw : view.WellFormed) (hnot : ¬ source <+: dest)
    (hclear : ∀ rest, rest ≠ [] → source = dest ++ rest → view (source ++ rest) = none) :
    Disjoint (copies dest (view.below source)) (treeAt source) := by
  refine Set.disjoint_left.mpr ?_
  rintro _ ⟨more,hm,rfl⟩ hp
  obtain ⟨rest,hrest⟩ := (List.prefix_or_prefix_of_prefix hp (List.prefix_append dest more)).resolve_left hnot
  have hne : rest ≠ [] := by
    rintro rfl
    rw [List.append_nil] at hrest
    exact hnot (hrest ▸ List.prefix_rfl)
  obtain ⟨further,rfl⟩ : rest <+: more := by
    rw [← hrest] at hp
    exact (List.prefix_append_right_inj dest).mp hp
  rw [View.below, ← List.append_assoc, hw.none_under (hclear rest hne hrest.symm)] at hm
  simp at hm

/-- Nothing is copied below a file. -/
private theorem copy_below_file (hs : Intact fs) (hsource : Path.Named source) (hdest : Path.Named dest) {content : String}
    (hfile : shown fs source = some (.file content)) (hbelow : source <+: dest) (hne : source ≠ dest) :
    (copyTree (fuel + 1) (Path.ofSegments source) (Path.ofSegments dest) false).Tries ∅ fs fun done _ => done = false := by
  have htree : (shown fs).below source [] = some (.file content) := by rwa [View.below, List.append_nil]
  obtain ⟨rest,rfl⟩ := hbelow
  have hrest : rest ≠ [] := by simpa using hne
  have hno {t : FileSystem σ} (halt : Altered {source ++ rest} fs t) : shown t (source ++ rest) = none := by
    by_contra hsome
    have hdir := (wellFormed halt.intact).ancestor hrest (Option.isSome_iff_ne_none.mpr hsome)
    rw [halt.shown_eq hs (by simpa using hrest), hfile] at hdir
    simp at hdir
  have hcopies : Copies (copyTree (fuel + 1) (Path.ofSegments source) (Path.ofSegments (source ++ rest)) false) fs _ _ _ :=
    file_copies hs hsource hdest rfl htree
  rw [Copies, copies_file hs rfl htree] at hcopies
  refine .confine (.imp hcopies fun done t halt hdone => ?_) fun t halt => halt.of_none hs ?_
  · rw [← Bool.not_eq_true]
    intro hd
    have hthere := hdone.1 hd [] _ htree
    rw [List.append_nil, hno halt] at hthere
    simp at hthere
  · rintro _ rfl _
    exact ⟨hno (.refl hs),hno halt⟩

/-- What copying refuses without a look: onto itself, and of a directory, into itself. -/
theorem refuses_iff (hsource : Path.Named source) (hdest : Path.Named dest) (dir : Bool) :
    (Path.ofSegments dest == Path.ofSegments source ||
      (dir && Path.isWithin (Path.ofSegments dest) (Path.ofSegments source))) = true ↔
      dest = source ∨ dir = true ∧ source <+: dest := by
  rw [Bool.or_eq_true, Bool.and_eq_true, beq_iff_eq, Path.ofSegments_inj hdest hsource,
    Path.isWithin_iff (Path.normalize_ofSegments hdest), Path.AtOrBelow, Path.segments_ofSegments hsource,
    Path.segments_ofSegments hdest]

theorem cp_tries (hs : Intact fs) {src dst : String} (hsource : Path.segments (fs.resolve src) = source)
    (hdest : (shown fs).landing source (Path.segments (fs.resolve dst)) = dest)
    (hclear : ∀ rest, rest ≠ [] → source = dest ++ rest → shown fs (source ++ rest) = none) :
    (cp src dst).Tries (copies dest ((shown fs).below source) \ treeAt source) fs fun done after =>
      (done = true → (shown fs source).isSome ∧ ¬ source <+: dest ∧ ((shown fs).below source).CopiedTo dest after) ∧
      ((setting fs).free = true → (shown fs source).isSome → ¬ source <+: dest →
        (shown fs).Room fs.capacity ((shown fs).below source) dest → done = true) := by
  have hsources : Path.Named source := hsource ▸ Path.named_segments _
  have hresolve : fs.resolve src = Path.ofSegments source := by rw [resolve_eq, hsource]
  have hdests : Path.Named dest := hdest ▸ View.named_landing hsources (Path.named_segments _)
  refine .get_bind ?_
  dsimp only
  rw [hresolve]
  refine .look (info_tries hs _) hs fun there t halt hview hthere => ?_
  rw [Path.segments_ofSegments hsources] at hthere
  cases there with
  | none =>
    refine .pure halt.intact ⟨nofun,fun _ hsome => ?_⟩
    rw [Option.map_eq_none_iff.mp hthere.symm] at hsome
    simp at hsome
  | some node =>
    obtain ⟨item,hitem,hnode⟩ := Option.map_eq_some_iff.mp hthere.symm
    have hkind : node.isDir = item.isDir := congrArg Node.isDir hnode.symm
    have hsame : t.resolve dst = fs.resolve dst := by
      rw [resolve, resolve, show t.cwd = fs.cwd from congrArg Setting.cwd halt.setting_eq]
    refine .look (destination_tries halt.intact hsources dst) halt.intact fun goal u hu hview' hgoal => ?_
    rw [hsame, hview, hdest] at hgoal
    rw [hview] at hview'
    have halt' := halt.trans hu
    rw [hgoal]
    split
    · rename_i hstop
      refine .pure hu.intact ⟨nofun,fun _ _ hnot => ?_⟩
      rcases (refuses_iff hsources hdests _).mp hstop with rfl | ⟨_,hp⟩
      · exact absurd List.prefix_rfl hnot
      · exact absurd hp hnot
    · rename_i hgo
      rw [refuses_iff hsources hdests, not_or, not_and] at hgo
      refine .get_bind ?_
      -- A directory was refused a place in itself, a file was not.
      by_cases hbelow : source <+: dest
      · obtain ⟨content,rfl⟩ : ∃ content, item = .file content := by
          cases item with
          | dir => exact absurd hbelow (hgo.2 hkind)
          | file content => exact ⟨content,rfl⟩
        rw [hkind]
        refine .widen (.mono (copy_below_file hu.intact hsources hdests (by rw [hview', hitem]) hbelow (Ne.symm hgo.1)) ?_)
          (Set.empty_subset _)
        rintro _ _ rfl
        exact ⟨nofun,fun _ _ hnot => absurd hbelow hnot⟩
      · have hapart := copies_apart (wellFormed hs) hbelow hclear
        have hcopies := copiesTrees u.capacity u source dest item hu.intact hsources hdests (by rw [hview', hitem])
          (by rwa [hview'])
        rw [Copies, hview', halt'.setting_eq, ← hkind] at hcopies
        rw [hapart.sdiff_eq_left]
        refine hcopies.mono fun done after h => ⟨fun hd => ⟨by rw [hitem]; rfl,hbelow,h.1 hd⟩,fun hf _ _ hroom => h.2 hf ?_⟩
        refine ⟨hroom.start,hroom.kinds,fun more hm => ?_⟩
        have hthere : (shown u (source ++ more)).isSome := by rwa [hview']
        exact length_lt_capacity hu.intact hthere

omit [FallibleNodes σ] in
private theorem landing_eq [Sighted σ] [Legible σ] (hs : Intact fs) (hsight : ∀ path, fs.sight path = sights path fs)
    (src dst : String) : fs.landing src dst =
      Path.ofSegments ((shown fs).landing (Path.segments (fs.resolve src)) (Path.segments (fs.resolve dst))) := by
  obtain ⟨node,hnode,hfound⟩ := sights_eq (fs.resolve dst) hs
  have hdir := View.any_isDir_iff hnode
  rw [landing, hsight, hfound, View.landing]
  cases node with
  | none => rw [if_neg fun h => by simpa using hdir.mpr h, ← resolve_eq]
  | some node =>
    by_cases hd : node.isDir = true
    · rw [if_pos (hdir.mp hd)]
      dsimp only
      rw [if_pos hd, fs.resolve_eq dst, fs.resolve_eq src, Path.join_basename (Path.named_segments _) (Path.named_segments _),
        ← resolve_eq, ← resolve_eq]
    · rw [if_neg fun h => hd (hdir.mpr h), ← resolve_eq]
      dsimp only
      rw [if_neg hd]

omit [FallibleNodes σ] in
theorem segments_landing [Sighted σ] [Legible σ] (hs : Intact fs) (hsight : ∀ path, fs.sight path = sights path fs)
    (src dst : String) : Path.segments (fs.landing src dst) =
      (shown fs).landing (Path.segments (fs.resolve src)) (Path.segments (fs.resolve dst)) := by
  rw [landing_eq hs hsight, Path.segments_ofSegments (View.named_landing (Path.named_segments _) (Path.named_segments _))]

/--
Unless a tree goes onto a directory above it, all of it stands at its copy after copying, in kind and content, and is as it
was; and so is, even if copying stops half way, all that is no counterpart of something in the tree. Calls that do not fail
make copying answer.
-/
theorem cp_exact {fs : FileSystem Provider} (hfs : Reached Provider.Ready fs) (src dst : String)
    (hup : Path.AtOrBelow (fs.landing src dst) (fs.resolve src) → fs.landing src dst = fs.resolve src) :
    ∃ done after, (cp src dst).on fs = (.ok done, after) ∧
      (done = true → ∀ names node, Path.Named names →
        (fs.sight (Path.descend (fs.resolve src) names)).1 = .ok (some node) →
          (∃ copy, (after.sight (Path.descend (fs.landing src dst) names)).1 = .ok (some copy) ∧ copy.isDir = node.isDir) ∧
            (after.sight (Path.descend (fs.landing src dst) names)).2 = (fs.sight (Path.descend (fs.resolve src) names)).2) ∧
      (∀ path, Path.AtOrBelow (fs.resolve src) path → after.sight path = fs.sight path) ∧
      (∀ path, (∀ names node, Path.Named names → (fs.sight (Path.descend (fs.resolve src) names)).1 = .ok (some node) →
          Path.segments path ≠ Path.segments (Path.descend (fs.landing src dst) names)) →
        after.sight path = fs.sight path) ∧
      ∀ path, ¬ Path.AtOrBelow (fs.landing src dst) path → after.sight path = fs.sight path := by
  have hs := hfs.intact
  have hlanding := segments_landing hs (fun _ => rfl) src dst
  have hclear : ∀ rest, rest ≠ [] → Path.segments (fs.resolve src) = Path.segments (fs.landing src dst) ++ rest →
      shown fs (Path.segments (fs.resolve src) ++ rest) = none := by
    intro rest hrest he
    rw [hup ⟨rest,he.symm⟩] at he
    exact absurd he (by simpa using hrest)
  obtain ⟨done,after,he,halt,hdone,_⟩ := (cp_tries hs rfl hlanding.symm hclear).yields id
  refine ⟨done,after,he,fun hd names node hnamed hnode => ?_,fun path hp => ?_,fun path hno => ?_,fun path hp => ?_⟩
  · obtain ⟨item,hitem,hkind⟩ := shown_of_node hs hnode
    rw [Path.segments_descend _ hnamed] at hitem
    have hcopy : shown after (Path.segments (Path.descend (fs.landing src dst) names)) = some item := by
      rw [Path.segments_descend _ hnamed]
      exact (hdone hd).2.2 names item hitem
    obtain ⟨copy,hfound,hkind'⟩ := node_of_shown halt.intact hcopy
    refine ⟨⟨copy,hfound,hkind'.trans hkind.symm⟩,?_⟩
    rw [show (after.sight _).2 = _ from content_eq halt.intact _, show (fs.sight _).2 = _ from content_eq hs _,
      View.content?, View.content?, hcopy, Path.segments_descend _ hnamed, hitem]
  · exact halt.elsewhere path fun hmem => hmem.2 hp
  · refine halt.elsewhere path ?_
    rintro ⟨⟨more,hm,hp⟩,_⟩
    have hnamed : Path.Named more := (Path.named_append.mp ((wellFormed hs).named _ hm)).2
    have hthere : (shown fs (Path.segments (Path.descend (fs.resolve src) more))).isSome := by
      rwa [Path.segments_descend _ hnamed]
    obtain ⟨node,hnode⟩ := (exists_node_iff hs).mpr hthere
    exact hno more node hnamed hnode (by rw [hp, Path.segments_descend _ hnamed])
  · exact halt.elsewhere path fun hmem => hp (copies_subset_treeAt _ _ hmem.1)

/-- A directory is merged into one of its name, of which it leaves what it does not hold itself. -/
theorem cp_merges_directory :
    let fs := (opening (Provider.tree Tree.empty)).after
      [(1,.mkdir "/s"),(2,.write "/s/f" "x"),(3,.mkdir "/tmp/s"),(4,.write "/tmp/s/old" "y")]
    Reached Provider.Ready fs ∧ ∃ after, (cp "/s" "/tmp").on fs = (.ok true, after) ∧
      (after.sight "/tmp/s/f").2 = .ok (some "x") ∧ after.sight "/s/f" = fs.sight "/s/f" ∧
      after.sight "/tmp/s/old" = fs.sight "/tmp/s/old" := by
  intro fs
  have hfs : Reached Provider.Ready fs := Reached.after (.opening .tree (by decide +kernel))
  have hsrc : fs.resolve "/s" = "/s" := by decide +kernel
  have hlanding : fs.landing "/s" "/tmp" = "/tmp/s" := by decide +kernel
  have hexact := cp_exact hfs "/s" "/tmp"
  rw [hsrc, hlanding] at hexact
  obtain ⟨done,after,he,hcopied,hsource,hother,_⟩ := hexact fun habove => absurd habove (by decide +kernel)
  have hdone : ((cp "/s" "/tmp").on fs).1 = .ok true := by decide +kernel
  obtain rfl := Except.ok.inj ((congrArg Prod.fst he).symm.trans hdone)
  have hcontent : (fs.sight "/s/f").2 = .ok (some "x") := by decide +kernel
  have hnone : (fs.sight "/s/old").1 = .ok none := by decide +kernel
  refine ⟨hfs,after,he,?_,hsource _ (by decide +kernel),hother _ fun names node hnamed hnode hsame => ?_⟩
  · have hfile : (fs.sight "/s/f").1 = .ok (some ⟨"f",false,"/s",2,2,some 1⟩) := by decide +kernel
    exact (hcopied rfl ["f"] _ (by decide) hfile).2.trans hcontent
  · rw [Path.segments_descend _ hnamed] at hsame
    have hsame : ["tmp", "s"] ++ ["old"] = ["tmp", "s"] ++ names := hsame
    obtain rfl := List.append_cancel_left hsame
    exact absurd (hnone.symm.trans hnode) (by simp)

/-- Without a policy a tree is copied if it has a place to go to, apart from it, and meets only its own kinds there. -/
theorem cp_succeeds {fs : FileSystem Provider} (hfs : Reached Provider.Ready fs) (hfree : fs.mount.guard? = none) (src dst : String)
    (hstands : ∃ node, (fs.sight (fs.resolve src)).1 = .ok (some node))
    (hapart : ¬ Path.AtOrBelow (fs.resolve src) (fs.landing src dst) ∧ ¬ Path.AtOrBelow (fs.landing src dst) (fs.resolve src))
    (hstart : (∃ there, (fs.sight (fs.landing src dst)).1 = .ok (some there)) ∨
      ∃ parent, (fs.sight (Path.split (fs.landing src dst)).1).1 = .ok (some parent) ∧ parent.isDir = true)
    (hkinds : ∀ names node there, Path.Named names → (fs.sight (Path.descend (fs.resolve src) names)).1 = .ok (some node) →
      (fs.sight (Path.descend (fs.landing src dst) names)).1 = .ok (some there) → there.isDir = node.isDir) :
    ((cp src dst).on fs).1 = .ok true := by
  have hs := hfs.intact
  have hfree : (setting fs).free = true := by simp [setting, hfree]
  have hlanding := segments_landing hs (fun _ => rfl) src dst
  have hstands := (exists_node_iff hs).mp hstands
  obtain ⟨done,after,he,_,_,hdone⟩ := (cp_tries hs rfl hlanding.symm
    fun rest _ he => absurd ⟨rest,he.symm⟩ hapart.2).yields id
  rw [he, hdone hfree hstands hapart.1 ⟨?_,fun more item there hitem hthere => ?_,fun more hm => length_lt_capacity hs hm⟩]
  · by_cases hthere : (shown fs (Path.segments (fs.landing src dst))).isSome
    · exact .inl hthere
    · have hnone := Option.not_isSome_iff_eq_none.mp hthere
      obtain ⟨parent,hparent,hdir⟩ := hstart.resolve_left fun h => hthere ((exists_node_iff hs).mp h)
      obtain ⟨item,hitem,hkind⟩ := shown_of_node hs hparent
      rw [Path.segments_split_fst, item.isDir_iff.mp (hkind.symm.trans hdir)] at hitem
      exact .inr ⟨fun h => by simp [h, (wellFormed hs).root] at hnone,hnone,hitem⟩
  · have hnamed : Path.Named more := (Path.named_append.mp ((wellFormed hs).named _ (Option.isSome_of_eq_some hitem))).2
    rw [View.below, ← Path.segments_descend _ hnamed] at hitem
    rw [← Path.segments_descend _ hnamed] at hthere
    obtain ⟨node,hnode,hkind⟩ := node_of_shown hs hitem
    obtain ⟨other,hother,hkind'⟩ := node_of_shown hs hthere
    rw [← hkind, ← hkind', hkinds more node other hnamed hnode hother]

end FileSystem
end VirtualShell
