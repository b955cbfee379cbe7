import VirtualShell.Proofs.Storage.Contract
import VirtualShell.Proofs.Storage.Faces

/-!
The tree in memory keeps the contract of stores.
-/
namespace VirtualShell.Tree
open Entry

/-! ### What a tree shows -/

/-- The roots of stores that are set up. -/
structure SoundRoot (root : Entry) : Prop where
  rising : root.Rising
  placed : root.Placed
  wellFormed : root.view.WellFormed

instance : Viewed Tree where
  Sound tree := ∃ root, tree.root = some root ∧ SoundRoot root
  view tree names := tree.root.bind fun root => root.view names

theorem view_eq (root : Entry) : Viewed.view (Tree.mk (some root)) = root.view := rfl

private theorem placed_update {root altered : Entry} {names : List String} {face : Option (Node × Option String)}
    (hp : root.Placed) (h : altered.faces = Function.update root.faces names face)
    (hface : ∀ f, face = some f → Path.Named names ∧ f.1.untimed = View.node names (.ofContent f.2)) :
    altered.Placed := by
  intro other f ho
  rw [h, Function.update_apply] at ho
  split at ho
  · subst other; exact hface f ho
  · exact hp other f ho

/-! ### Changing a tree -/

/-- What altering comes to, if it changes one face at most. -/
private theorem alter_meets {f : Entry → Option Entry} {path : String} {root : Entry} {wanted : Bool → View → Prop}
    (h : SoundRoot root) (hstay : (root.find? (Path.segments path)).bind f = none → wanted false root.view)
    (hdone : ∀ found replaced, root.find? (Path.segments path) = some found → f found = some replaced →
      ∃ at_ face, (∀ rest, replaced.faces rest = if rest = at_ then face else found.faces rest) ∧ replaced.Rising ∧
        (∀ f, face = some f → Path.Named (Path.segments path ++ at_) ∧
          f.1.untimed = View.node (Path.segments path ++ at_) (.ofContent f.2)) ∧
        let after := root.view.set (Path.segments path ++ at_) (face.map fun face => .ofContent face.2)
        after.WellFormed ∧ wanted true after) :
    (alter f path).Meets ⟨some root⟩ wanted := by
  cases hb : (root.find? (Path.segments path)).bind f with
  | none =>
    refine .of_on (a := false) (t := ⟨some root⟩) ?_ ⟨⟨root,rfl,h⟩,hstay hb⟩
    simp [alter, Storing.on_bind, alter_of_none hb]
  | some replaced =>
    obtain ⟨found,hf,hr⟩ := Option.bind_eq_some_iff.mp hb
    obtain ⟨at_,face,hone,hrise,hface,hwf,hwanted⟩ := hdone found replaced hf hr
    obtain ⟨altered,ha,hfaces,hrising⟩ := faces_alter_at hf hr hone
    have hview := view_update hfaces
    refine .of_on (a := true) (t := ⟨some altered⟩) (by simp [alter, Storing.on_bind, ha, Except.map]) ⟨⟨altered,rfl,?_⟩,?_⟩
    · exact ⟨hrising h.rising hrise,placed_update h.placed hfaces hface,hview ▸ hwf⟩
    · rw [view_eq, hview]; exact hwanted

private theorem untimed_newEntry (node : Node) (hs : node.Sized) :
    (newEntry node).face.1.untimed = View.node node.target (.new node.isDir) ∧
      Item.ofContent (newEntry node).face.2 = .new node.isDir := by
  unfold newEntry
  dsimp only
  split
  · rename_i hd
    exact ⟨View.untimed_created rfl rfl rfl (by rw [hd]; exact hs hd),by rw [hd]; rfl⟩
  · rename_i hd
    rw [Bool.not_eq_true] at hd
    exact ⟨View.untimed_created rfl rfl rfl (by rw [hd]; rfl),by rw [hd]; rfl⟩

theorem create_meets {root : Entry} (node : Node) (h : SoundRoot root) (hs : node.Sized) :
    (Storage.create node : Storing Tree Bool).Meets ⟨some root⟩ (root.view.Creates node) := by
  change Storing.Meets (if !Path.isName node.name then pure false else alter (adding node) node.parentPath) _ _
  by_cases hname : Path.isName node.name = true
  · simp only [hname, Bool.not_true, Bool.false_eq_true, if_false]
    refine alter_meets h (fun hno => ⟨?_,rfl⟩) fun found replaced hf hr => ?_
    · simp only [Bool.false_eq_true, false_iff]
      rintro ⟨_,hparent,hfree⟩
      obtain ⟨face,hface,hdir⟩ := Option.map_eq_some_iff.mp hparent
      obtain ⟨entry,he,rfl⟩ := Option.map_eq_some_iff.mp hface
      rw [he, Option.bind_some] at hno
      rw [Node.target, view_append he] at hfree
      cases entry with
      | file parent content => simp [face, Item.ofContent] at hdir
      | dir parent below =>
        have hbelow : below.find? node.name = none := by
          cases hb : below.find? node.name with
          | none => rfl
          | some child => simp [view, faces, Entry.find?, hb] at hfree
        simp [adding, hbelow] at hno
    · obtain ⟨parent,below,rfl,hfree,hone,hrise⟩ := adding_eq_some hr
      have hnew := untimed_newEntry node hs
      have hcan : root.view.CanCreate node := by
        refine ⟨hname,by simp [view_of_find? hf, item, face, Item.ofContent],?_⟩
        rw [Node.target, view_append hf]
        simp [view, faces, Entry.find?, hfree]
      refine ⟨[node.name],_,hone,hrise (Entry.Rising.find? h.rising hf),?_,?_⟩
      · intro f hf
        obtain rfl := Option.some.inj hf
        exact ⟨Path.named_concat.mpr ⟨Path.named_segments _,hname⟩,by rw [hnew.1, hnew.2]; rfl⟩
      · simp only [Option.map_some, hnew.2]
        exact ⟨h.wellFormed.create hcan,by simpa using hcan,rfl⟩
  · simp only [hname, Bool.not_false, if_true]
    exact .of_on rfl ⟨⟨root,rfl,h⟩,by simpa using fun hc => hname hc.1,rfl⟩

theorem write_meets {root : Entry} (now : Timestamp) (path content : String) (h : SoundRoot root) :
    (Storage.write now path content : Storing Tree Bool).Meets ⟨some root⟩
      (root.view.Writes (Path.segments path) content) := by
  refine alter_meets h (fun hno => ⟨?_,rfl⟩) fun found replaced hf hr => ?_
  · simp only [Bool.false_eq_true, false_iff]
    rintro ⟨old,hold⟩
    obtain ⟨face,hface,hfile⟩ := Option.map_eq_some_iff.mp hold
    obtain ⟨entry,he,rfl⟩ := Option.map_eq_some_iff.mp hface
    rw [he, Option.bind_some] at hno
    cases entry with
    | file node content => simp [rewriting] at hno
    | dir node below => simp [face, Item.ofContent] at hfile
  · cases found with
    | dir node below => simp [rewriting] at hr
    | file node old =>
      obtain rfl := Option.some.inj hr
      have hold : root.view (Path.segments path) = some (.file old) := view_of_find? hf
      have hplace := h.placed _ _ (faces_of_find? hf [] |>.trans rfl)
      simp only [List.append_nil] at hplace
      refine ⟨[],some ({ node with size := some content.utf8ByteSize.toUInt64, modifiedAt := now },some content),?_,trivial,?_,?_⟩
      · intro rest
        cases rest <;> rfl
      · intro f hf
        obtain rfl := Option.some.inj hf
        simp only [List.append_nil]
        exact ⟨hplace.1,View.untimed_rewritten hplace.2 now content⟩
      · simp only [Option.map_some, List.append_nil]
        exact ⟨h.wellFormed.write ⟨old,hold⟩ content,by simpa using ⟨old,hold⟩,rfl⟩

theorem touch_meets {root : Entry} (now : Timestamp) (path : String) (h : SoundRoot root) :
    (Storage.touch now path : Storing Tree Bool).Meets ⟨some root⟩ (root.view.Touches (Path.segments path)) := by
  refine alter_meets h (fun hno => ⟨?_,rfl⟩) fun found replaced hf hr => ?_
  · cases hf : root.find? (Path.segments path) with
    | none => simp [view_isSome, hf]
    | some found => simp [hf, touching] at hno
  · obtain rfl := Option.some.inj hr
    have hplace := h.placed _ _ (faces_of_find? hf [] |>.trans rfl)
    simp only [List.append_nil] at hplace
    have hsame := view_of_find? hf
    refine ⟨[],some ({ found.node with modifiedAt := now },found.face.2),?_,?_,?_,?_⟩
    · intro rest
      cases found <;> cases rest <;> rfl
    · have hrise := Entry.Rising.find? h.rising hf
      cases found with
      | file node content => trivial
      | dir node below => exact hrise
    · intro f hf
      obtain rfl := Option.some.inj hf
      simp only [List.append_nil]
      exact ⟨hplace.1,by rw [node_eq_face]; exact hplace.2⟩
    · have hset : root.view.set (Path.segments path) (some found.item) = root.view := by
        rw [← hsame]; exact Function.update_eq_self _ _
      simp only [Option.map_some, List.append_nil]
      change (View.set _ _ (some found.item)).WellFormed ∧ View.Touches _ _ _ (View.set _ _ (some found.item))
      rw [hset]
      exact ⟨h.wellFormed,by simp [hsame],rfl⟩

theorem delete_meets {root : Entry} (path : String) (h : SoundRoot root) :
    (Storage.delete path : Storing Tree Bool).Meets ⟨some root⟩ (root.view.Deletes (Path.segments path)) := by
  change Storing.Meets
    (if (Path.split path).2.isEmpty then pure false else alter (removing (Path.split path).2) (Path.split path).1) _ _
  have hnamed := Path.named_segments path
  have hempty := Path.split_name_isEmpty_iff path
  rcases List.eq_nil_or_concat (Path.segments path) with hs | ⟨dir,name,hs⟩
  · rw [if_pos (hempty.mpr hs), hs]
    exact .of_on rfl ⟨⟨root,rfl,h⟩,by simp [View.CanDelete],rfl⟩
  · rw [List.concat_eq_append] at hs
    have hsplit : Path.split path = (Path.ofSegments dir, name) := by rw [Path.split_eq, hs]; simp
    rw [if_neg (by rw [hempty, hs]; simp), hsplit, hs]
    rw [hs] at hnamed
    have hdir : Path.segments (Path.ofSegments dir) = dir := Path.segments_ofSegments (Path.named_concat.mp hnamed).1
    refine alter_meets h (fun hno => ⟨?_,rfl⟩) fun found replaced hf hr => ?_
    · simp only [Bool.false_eq_true, false_iff]
      rintro ⟨_,hsome,hleaf⟩
      rw [view_isSome] at hsome
      obtain ⟨entry,he⟩ := Option.isSome_iff_exists.mp hsome
      have hl : Loose entry := loose_iff.mpr fun n => by
        have hn := hleaf n
        rw [view, faces, Entry.find?_append (dir ++ [name]), he] at hn
        simpa using hn
      rw [Entry.find?_append] at he
      obtain ⟨parent,hp,hn⟩ := Option.bind_eq_some_iff.mp he
      rw [hdir, hp] at hno
      cases parent with
      | file node content => simp [Entry.find?] at hn
      | dir node below =>
        have hfind : below.find? name = some entry := by
          cases hb : below.find? name <;> simp_all [Entry.find?]
        have hdone := removing_isSome node hfind hl
        rw [Option.bind_some] at hno
        simp [hno] at hdone
    · rw [hdir] at hf ⊢
      have hrising := Entry.Rising.find? h.rising hf
      obtain ⟨parent,below,entry,rfl,he,hl,hone,hrise⟩ := removing_eq_some hrising hr
      have hcan : root.view.CanDelete (dir ++ [name]) := by
        refine ⟨by simp,?_,?_⟩
        · rw [view_isSome, Entry.find?_append, hf]
          simp [Entry.find?, he]
        · intro n
          rw [view, faces, Entry.find?_append, Entry.find?_append, hf]
          simp [Entry.find?, he, loose_iff.mp hl n]
      refine ⟨[name],none,hone,hrise,by simp,?_⟩
      exact ⟨h.wellFormed.delete hcan,by simpa using hcan,rfl⟩

/-! ### The contract -/

private theorem segments_tempDir : Path.segments tempDir = ["tmp"] :=
  @Path.segments_ofSegments ["tmp"] (by simp only [Path.Named, List.mem_singleton, forall_eq]; decide)

theorem info_meets {root : Entry} (path : String) (h : SoundRoot root) :
    (Storage.info path : Storing Tree (Option Node)).Meets ⟨some root⟩ fun node after =>
      after = root.view ∧ node.map Node.untimed = root.view.node? (Path.segments path) := by
  refine .of_on rfl ⟨⟨root,rfl,h⟩,rfl,?_⟩
  simp only [Tree.find?, View.node?]
  cases hf : root.find? (Path.segments path) with
  | none => simp [Entry.view, faces, hf]
  | some found =>
    have hplace := (h.placed _ _ (by rw [faces, hf]; rfl)).2
    simp [view_of_find? hf, node_eq_face, hplace, item]

theorem read_meets {root : Entry} (path : String) (h : SoundRoot root) :
    (Storage.read path : Storing Tree (Option String)).Meets ⟨some root⟩ fun content after =>
      after = root.view ∧ content = root.view.content? (Path.segments path) := by
  refine .of_on (Tree.on_read path ⟨some root⟩) ⟨⟨root,rfl,h⟩,rfl,?_⟩
  change (root.find? (Path.segments path)).bind _ = _
  cases hf : root.find? (Path.segments path) with
  | none => simp [View.content?, Entry.view, faces, hf]
  | some found => cases found <;> simp [View.content?, view_of_find? hf, item, face, Item.ofContent, Item.content?]

theorem list_meets {root : Entry} (path : String) (h : SoundRoot root) :
    (Storage.list path : Storing Tree (List String)).Meets ⟨some root⟩ fun names after =>
      after = root.view ∧ root.view.Lists (Path.segments path) names := by
  refine .of_on rfl ⟨⟨root,rfl,h⟩,rfl,?_⟩
  simp only [Tree.find?, View.Lists, view_isSome, Entry.find?_append]
  cases hf : root.find? (Path.segments path) with
  | none => simp [contents, Forest.names]
  | some found =>
    cases found with
    | file node content => simp [contents, Forest.names, Entry.find?]
    | dir node below =>
      refine ⟨Forest.Rising.names_pairwise (Entry.Rising.find? h.rising hf),fun name => ?_⟩
      simp only [contents, Forest.mem_names_iff, Option.bind_some, Entry.find?]
      cases below.find? name <;> rfl

/-- The root of a store that is set up, as a directory. -/
private theorem root_eq_dir {root : Entry} (h : SoundRoot root) : ∃ node below, root = .dir node below := by
  have hroot := h.wellFormed.root
  cases root with
  | file node content => simp [Entry.view, faces, Entry.find?, face, Item.ofContent] at hroot
  | dir node below => exact ⟨node,below,rfl⟩

theorem stats_meets {root : Entry} (h : SoundRoot root) :
    (Storage.stats : Storing Tree StorageStats).Meets ⟨some root⟩ root.view.Measures := by
  obtain ⟨node,below,rfl⟩ := root_eq_dir h
  refine .of_on rfl ⟨⟨_,rfl,h⟩,rfl,_,enumerates_dir h.rising,?_⟩
  have hlength := View.fileCount_add_dirCount below.chains
  rw [Forest.length_chains] at hlength
  rw [View.fileCount_cons, View.dirCount_cons]
  simp only [contents, Forest.counts_chains, View.Counts, View.byteCount_cons, Item.isDir, Item.bytes,
    Option.isSome_some, if_true]
  omega

theorem length_le_capacity {root : Entry} (h : SoundRoot root) {names : List (List String)} (hnodup : names.Nodup)
    (hmem : ∀ n ∈ names, (root.view n).isSome) : names.length ≤ Storage.capacity (Tree.mk (some root)) := by
  obtain ⟨node,below,rfl⟩ := root_eq_dir h
  have hle := (enumerates_dir h.rising).length_le hnodup hmem
  rwa [List.length_cons, Forest.length_chains] at hle

private theorem view_contents (root : Entry) (more : List String) :
    (contents (root.find? ["tmp"])).view more = if more = [] then none else root.view ("tmp" :: more) := by
  cases more with
  | nil => rfl
  | cons name rest =>
    rw [if_neg (by simp), show "tmp" :: name :: rest = ["tmp"] ++ name :: rest from rfl]
    cases hf : root.find? ["tmp"] with
    | none =>
      rw [Entry.view, faces, Entry.find?_append, hf]
      rfl
    | some found =>
      rw [view_append hf]
      cases found with
      | file node content => rfl
      | dir node below => rw [Forest.view_dir]; rfl

/-- Emptying the directory for temporary data takes what lies below it, if it is one. -/
private theorem emptied {root : Entry} (h : SoundRoot root) :
    ∃ done altered, (alter emptying tempDir).on ⟨some root⟩ = (.ok done, ⟨some altered⟩) ∧ altered.Rising ∧
      (∀ names, View.Temporary names → altered.faces names = none) ∧
      ∀ names, ¬ View.Temporary names → altered.faces names = root.faces names := by
  cases hb : (root.find? ["tmp"]).bind emptying with
  | none =>
    refine ⟨false,root,by simp [alter, Storing.on_bind, segments_tempDir, alter_of_none hb],h.rising,?_,fun _ _ => rfl⟩
    rintro _ ⟨more,hm,rfl⟩
    rw [show "tmp" :: more = ["tmp"] ++ more from rfl, faces, Entry.find?_append]
    cases hf : root.find? ["tmp"] with
    | none => rfl
    | some found =>
      cases found with
      | file node content =>
        obtain ⟨name,rest,rfl⟩ := List.exists_cons_of_ne_nil hm
        rfl
      | dir node below => simp [hf, emptying] at hb
  | some replaced =>
    obtain ⟨found,hf,hr⟩ := Option.bind_eq_some_iff.mp hb
    cases found with
    | file node content => simp [emptying] at hr
    | dir node below =>
      obtain rfl := Option.some.inj hr
      obtain ⟨altered,ha,hbelow,hother,hrising⟩ := faces_alter (f := emptying) hf rfl
      refine ⟨true,altered,by simp [alter, Storing.on_bind, segments_tempDir, ha, Except.map],hrising h.rising trivial,?_,?_⟩
      · rintro _ ⟨more,hm,rfl⟩
        obtain ⟨name,rest,rfl⟩ := List.exists_cons_of_ne_nil hm
        exact hbelow (name :: rest)
      · intro names ht
        by_cases hp : ["tmp"] <+: names
        · obtain ⟨more,rfl⟩ := hp
          by_cases hm : more = []
          · subst hm
            rw [hbelow, faces_of_find? hf]
            rfl
          · exact absurd ⟨more,hm,rfl⟩ ht
        · exact hother names hp

theorem cleanup_meets {root : Entry} (h : SoundRoot root) :
    (Storage.cleanup : Storing Tree CleanupStats).Meets ⟨some root⟩ root.view.CleansUp := by
  obtain ⟨done,altered,ha,hrise,hgone,hkept⟩ := emptied h
  have hview : altered.view = root.view.cleared := by
    funext names
    by_cases ht : View.Temporary names
    · rw [View.cleared_of_temporary _ ht, Entry.view, hgone names ht]
      rfl
    · rw [View.cleared_of_not_temporary _ ht, Entry.view, hkept names ht]
      rfl
  have hplaced : altered.Placed := by
    intro names face hf
    by_cases ht : View.Temporary names
    · rw [hgone names ht] at hf
      exact absurd hf (by simp)
    · exact h.placed names face (hkept names ht ▸ hf)
  have hon : (Storage.cleanup : Storing Tree CleanupStats).on ⟨some root⟩ =
      (.ok ⟨(contents (root.find? ["tmp"])).files.1, (contents (root.find? ["tmp"])).files.2⟩, ⟨some altered⟩) := by
    change (get >>= fun tree => alter emptying tempDir >>= fun _ =>
      pure (CleanupStats.mk (contents (Tree.find? tempDir tree)).files.1 (contents (Tree.find? tempDir tree)).files.2)).on _ = _
    rw [Storing.on_bind_ok (Storing.on_get _), Storing.on_bind_ok ha, Storing.on_pure]
    simp only [Tree.find?, segments_tempDir]
  have hrising : (contents (root.find? ["tmp"])).Rising := by
    cases hf : root.find? ["tmp"] with
    | none => trivial
    | some found =>
      have hfound := Entry.Rising.find? h.rising hf
      cases found with
      | file node content => trivial
      | dir node below => exact hfound
  have hgoing : root.view.temporary.Enumerates _ := View.enumerates_temporary (Forest.nodup_chains hrising) fun more item => by
    rw [Forest.mem_chains hrising, view_contents]
    split <;> simp [*]
  refine .of_on hon ⟨⟨altered,rfl,hrise,hplaced,hview ▸ h.wellFormed.cleared⟩,hview,_,hgoing,?_,.of_eq ?_⟩
  · simp [Forest.counts_chains, View.fileCount, Function.comp_def]
  · simp [Forest.counts_chains, View.byteCount, Function.comp_def]

private theorem sound_iff {tree : Tree} (h : Viewed.Sound tree) : ∃ root, tree = ⟨some root⟩ ∧ SoundRoot root := by
  obtain ⟨root,hr,hs⟩ := h
  exact ⟨root,by rw [← hr],hs⟩

instance : LawfulStorage Tree where
  wellFormed h := by obtain ⟨root,rfl,hr⟩ := sound_iff h; exact hr.wellFormed
  length_le_capacity h _ := by obtain ⟨root,rfl,hr⟩ := sound_iff h; exact length_le_capacity hr
  setUp now h := by obtain ⟨root,rfl,hr⟩ := sound_iff h; exact .of_on rfl ⟨⟨root,rfl,hr⟩,rfl,rfl⟩
  info path h := by obtain ⟨root,rfl,hr⟩ := sound_iff h; exact info_meets path hr
  create node h hs := by obtain ⟨root,rfl,hr⟩ := sound_iff h; exact create_meets node hr hs
  list path h := by obtain ⟨root,rfl,hr⟩ := sound_iff h; exact list_meets path hr
  write now path content h := by obtain ⟨root,rfl,hr⟩ := sound_iff h; exact write_meets now path content hr
  read path h := by obtain ⟨root,rfl,hr⟩ := sound_iff h; exact read_meets path hr
  delete path h := by obtain ⟨root,rfl,hr⟩ := sound_iff h; exact delete_meets path hr
  touch now path h := by obtain ⟨root,rfl,hr⟩ := sound_iff h; exact touch_meets now path hr
  stats h := by obtain ⟨root,rfl,hr⟩ := sound_iff h; exact stats_meets hr
  cleanup h := by obtain ⟨root,rfl,hr⟩ := sound_iff h; exact cleanup_meets hr

/-- A tree that was empty shows a bare root when it is set up. -/
theorem setUp_empty (now : Timestamp) :
    (Storage.setUp now).Meets empty fun done after => done = true ∧ after = View.bare := by
  have hview : (Entry.dir (Node.root now) .nil).view = View.bare := by
    funext names
    rw [Forest.view_dir, View.bare]
    split
    · rfl
    · cases names <;> simp [Forest.view, Forest.find?]
  refine .of_on (a := true) (t := ⟨some (.dir (Node.root now) .nil)⟩) rfl ⟨⟨_,rfl,trivial,?_,?_⟩,rfl,hview⟩
  · intro names face hf
    cases names with
    | nil =>
      obtain rfl := Option.some.inj hf
      exact ⟨Path.named_nil,rfl⟩
    | cons name rest => simp [faces, Entry.find?, Forest.find?] at hf
  · rw [hview]
    exact View.wellFormed_bare

end VirtualShell.Tree
