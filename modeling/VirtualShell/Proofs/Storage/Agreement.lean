import VirtualShell.Proofs.Storage.Objects
import VirtualShell.Proofs.Storage.Table
import VirtualShell.Proofs.Storage.Tree

/-!
All stores answer alike. A call, an action on any store, answers what every store can tell; on stores that are
sound and show the same, every sequence of calls gives the same answers, whatever their clocks.
-/
namespace VirtualShell.Storage

/-- How a node to be created is made. -/
inductive Making where
  | file (name parent : String)
  | directory (name parent : String)
  | forPath (path : String) (isDir : Bool)

def Making.node (now : Timestamp) : Making → Node
  | file name parent => Node.file now name parent
  | directory name parent => Node.directory now name parent
  | forPath path isDir => Node.forPath now path isDir

theorem Making.sized_node (making : Making) (now : Timestamp) : (making.node now).Sized := by
  cases making with
  | file | directory => exact Node.sized_new _ _ _ _
  | forPath => exact Node.sized_forPath _ _ _

inductive Action where
  | setUp
  | info (path : String)
  | create (making : Making)
  | list (path : String)
  | write (path content : String)
  | read (path : String)
  | delete (path : String)
  | touch (path : String)
  | stats
  | cleanup

/-- What a call answers, without times and without what a store tells of itself. Bytes are counted in 64 bits. -/
inductive Answer where
  | done (done : Bool)
  | node (node : Option Node)
  | names (names : List String)
  | content (content : Option String)
  | numbers (files directories : Nat) (bytes : UInt64)
  | removed (files : Nat) (bytes : UInt64)
  deriving DecidableEq

namespace Action
variable {σ τ : Type}

section run
variable [Storage σ]

def run (now : Timestamp) : Action → Storing σ Answer
  | setUp => .done <$> Storage.setUp now
  | info path => (fun node => .node (node.map Node.untimed)) <$> Storage.info path
  | create making => .done <$> Storage.create (making.node now)
  | list path => .names <$> Storage.list path
  | write path content => .done <$> Storage.write now path content
  | read path => .content <$> Storage.read path
  | delete path => .done <$> Storage.delete path
  | touch path => .done <$> Storage.touch now path
  | stats => (fun s => .numbers s.files s.directories s.bytes.toUInt64) <$> Storage.stats
  | cleanup => (fun s => .removed s.filesRemoved s.bytesFreed.toUInt64) <$> Storage.cleanup

/-- Plays calls one after the other, each at its own time, and tells what each of them returns. -/
def play (clock : Nat → Timestamp) : Nat → List Action → σ → List (Except StorageError Answer)
  | _, [], _ => []
  | n, call :: calls, store =>
    let (result, after) := (call.run (clock n)).on store
    result :: play clock (n + 1) calls after

end run

/-! ### What a view says of an answer -/

/-- What a call may answer on a store that shows a view, and what the store shows then. -/
def Answers (view : View) : Action → Answer → View → Prop
  | setUp, answer, after => answer = .done true ∧ after = view
  | info path, answer, after => answer = .node (view.node? (Path.segments path)) ∧ after = view
  | create making, answer, after => ∃ done, answer = .done done ∧ view.Creates (making.node 0) done after
  | list path, answer, after => ∃ names, answer = .names names ∧ view.Lists (Path.segments path) names ∧ after = view
  | write path content, answer, after =>
    ∃ done, answer = .done done ∧ view.Writes (Path.segments path) content done after
  | read path, answer, after => answer = .content (view.content? (Path.segments path)) ∧ after = view
  | delete path, answer, after => ∃ done, answer = .done done ∧ view.Deletes (Path.segments path) done after
  | touch path, answer, after => ∃ done, answer = .done done ∧ view.Touches (Path.segments path) done after
  | stats, answer, after => ∃ s, answer = .numbers s.files s.directories s.bytes.toUInt64 ∧ view.Measures s after
  | cleanup, answer, after => ∃ s, answer = .removed s.filesRemoved s.bytesFreed.toUInt64 ∧ view.CleansUp s after

/-- The time at which a node is made says nothing about whether it can be created. -/
private theorem creates_node (view : View) (making : Making) (now : Timestamp) :
    view.Creates (making.node now) = view.Creates (making.node 0) := by
  cases making with
  | file | directory => rfl
  | forPath path isDir =>
    simp only [Making.node, Node.forPath]
    split <;> rfl

private theorem toUInt64_eq {m n : Nat} {a b : List (List String × Item)} (hm : View.Counts m a) (hn : View.Counts n b)
    (h : View.byteCount a = View.byteCount b) : m.toUInt64 = n.toUInt64 := by
  apply UInt64.toNat_inj.mp
  simp only [Nat.toUInt64_eq, UInt64.toNat_ofNat']
  rw [hm.2, hn.2, h]

private theorem counts_perm {a b : List (List String × Item)} (h : a.Perm b) :
    View.fileCount a = View.fileCount b ∧ View.dirCount a = View.dirCount b ∧ View.byteCount a = View.byteCount b :=
  ⟨h.countP_eq _,h.countP_eq _,(h.map _).sum_eq⟩

/-- A call that is asked for something succeeds or not, as the view decides. -/
private theorem done_unique {can : Prop} {a b : Bool} {kept changed after after' : View}
    (ha : (a = true ↔ can) ∧ after = if a then changed else kept)
    (hb : (b = true ↔ can) ∧ after' = if b then changed else kept) : a = b ∧ after = after' := by
  obtain ⟨ha,rfl⟩ := ha
  obtain ⟨hb,rfl⟩ := hb
  have hab : a = b := Bool.eq_iff_iff.mpr (ha.trans hb.symm)
  exact ⟨hab,by rw [hab]⟩

/-- A view leaves no choice. -/
theorem Answers.unique {view : View} {call : Action} {answer answer' : Answer} {after after' : View}
    (h : Answers view call answer after) (h' : Answers view call answer' after') :
    answer = answer' ∧ after = after' := by
  cases call with
  | setUp | info | read =>
    obtain ⟨rfl,rfl⟩ := h
    obtain ⟨rfl,rfl⟩ := h'
    exact ⟨rfl,rfl⟩
  | create | write | delete =>
    obtain ⟨done,rfl,h⟩ := h
    obtain ⟨done',rfl,h'⟩ := h'
    obtain ⟨rfl,rfl⟩ := done_unique h h'
    exact ⟨rfl,rfl⟩
  | touch =>
    obtain ⟨done,rfl,h,rfl⟩ := h
    obtain ⟨done',rfl,h',rfl⟩ := h'
    exact ⟨by rw [Bool.eq_iff_iff.mpr (h.trans h'.symm)],rfl⟩
  | list =>
    obtain ⟨names,rfl,h,rfl⟩ := h
    obtain ⟨names',rfl,h',rfl⟩ := h'
    exact ⟨by rw [h.unique h'],rfl⟩
  | stats =>
    obtain ⟨s,rfl,rfl,entries,he,hf,hd,hb⟩ := h
    obtain ⟨s',rfl,rfl,entries',he',hf',hd',hb'⟩ := h'
    obtain ⟨hfiles,hdirs,hbytes⟩ := counts_perm (he.perm he')
    exact ⟨by rw [hf, hd, hf', hd', hfiles, hdirs, toUInt64_eq hb hb' hbytes],rfl⟩
  | cleanup =>
    obtain ⟨s,rfl,rfl,entries,he,hf,hb⟩ := h
    obtain ⟨s',rfl,rfl,entries',he',hf',hb'⟩ := h'
    obtain ⟨hfiles,_,hbytes⟩ := counts_perm (he.perm he')
    exact ⟨by rw [hf, hf', hfiles, toUInt64_eq hb hb' hbytes],rfl⟩

/-! ### Playing calls -/

private theorem meets_map {α β : Type} [Viewed σ] {act : Storing σ α} {f : α → β} {s : σ} {P : α → View → Prop}
    {Q : β → View → Prop} (h : act.Meets s P) (hpq : ∀ a after, P a after → Q (f a) after) : (f <$> act).Meets s Q := by
  obtain ⟨a,s',he,hsound,hp⟩ := h
  exact ⟨f a,s',by rw [Storing.on_map, he]; rfl,hsound,hpq a _ hp⟩

/-- Every call of a sound store is answered as its view says. -/
theorem run_meets [Storage σ] [LawfulStorage σ] {s : σ} (h : Viewed.Sound s) (now : Timestamp) (call : Action) :
    (call.run now).Meets s (Answers (Viewed.view s) call) := by
  cases call with
  | setUp => exact meets_map (LawfulNodes.setUp now h) fun _ _ ⟨hd,ha⟩ => ⟨by rw [hd],ha⟩
  | info path => exact meets_map (LawfulNodes.info path h) fun _ _ ⟨ha,hn⟩ => ⟨by rw [hn],ha⟩
  | create making =>
    refine meets_map (LawfulNodes.create (making.node now) h (making.sized_node now)) fun done _ hc => ⟨done,rfl,?_⟩
    rwa [← creates_node _ _ now]
  | list path => exact meets_map (LawfulNodes.list path h) fun names _ ⟨ha,hl⟩ => ⟨names,rfl,hl,ha⟩
  | write path content => exact meets_map (LawfulNodes.write now path content h) fun done _ hw => ⟨done,rfl,hw⟩
  | read path => exact meets_map (LawfulNodes.read path h) fun _ _ ⟨ha,hc⟩ => ⟨by rw [hc],ha⟩
  | delete path => exact meets_map (LawfulNodes.delete path h) fun done _ hd => ⟨done,rfl,hd⟩
  | touch path => exact meets_map (LawfulNodes.touch now path h) fun done _ ht => ⟨done,rfl,ht⟩
  | stats => exact meets_map (LawfulNodes.stats h) fun s _ hm => ⟨s,rfl,hm⟩
  | cleanup => exact meets_map (LawfulStorage.cleanup h) fun s _ hc => ⟨s,rfl,hc⟩

/-- Stores that are sound and show the same view. -/
def Alike [Viewed σ] [Viewed τ] (s : σ) (t : τ) : Prop :=
  Viewed.Sound s ∧ Viewed.Sound t ∧ Viewed.view s = Viewed.view t

variable [Storage σ] [LawfulStorage σ] [Storage τ] [LawfulStorage τ] {s : σ} {t : τ}

/-- A call is answered alike by stores that are alike, and leaves them alike. -/
theorem run_alike (h : Alike s t) (call : Action) (now now' : Timestamp) :
    ∃ answer s' t', (call.run now).on s = (.ok answer, s') ∧ (call.run now').on t = (.ok answer, t') ∧ Alike s' t' := by
  obtain ⟨hs,ht,hview⟩ := h
  obtain ⟨answer,s',he,hs',ha⟩ := run_meets hs now call
  obtain ⟨answer',t',he',ht',ha'⟩ := run_meets ht now' call
  rw [hview] at ha
  obtain ⟨rfl,hafter⟩ := ha.unique ha'
  exact ⟨answer,s',t',he,he',hs',ht',hafter⟩

theorem play_alike (clock clock' : Nat → Timestamp) (calls : List Action) (n : Nat) (h : Alike s t) :
    play clock n calls s = play clock' n calls t := by
  induction calls generalizing n s t with
  | nil => rfl
  | cons call calls ih =>
    obtain ⟨answer,s',t',he,he',halike⟩ := run_alike h call (clock n) (clock' n)
    simp only [play, he, he']
    rw [ih (n + 1) halike]

/-- Stores that are alike once they are set up answer alike from then on. -/
private theorem play_setUp (clock clock' : Nat → Timestamp) (calls : List Action)
    (hs : ∀ now, (Storage.setUp now).Meets s fun done after => done = true ∧ after = View.bare)
    (ht : ∀ now, (Storage.setUp now).Meets t fun done after => done = true ∧ after = View.bare) :
    play clock 0 (.setUp :: calls) s = play clock' 0 (.setUp :: calls) t := by
  obtain ⟨_,s',he,hsound,rfl,hv⟩ := hs (clock 0)
  obtain ⟨_,t',he',hsound',rfl,hv'⟩ := ht (clock' 0)
  simp only [play, run, Storing.on_map, he, he']
  rw [play_alike clock clock' calls 1 ⟨hsound,hsound',hv.trans hv'.symm⟩]

/--
A tree in memory, a table and a bucket whose requests go through, all new and set up first, answer every sequence
of calls alike.
-/
theorem play_backends (database : DatabaseName) (bucket keyPrefix : String) (calls : List Action)
    (clock clock' clock'' : Nat → Timestamp) :
    play clock 0 (.setUp :: calls) Tree.empty = play clock' 0 (.setUp :: calls) (Table.mk database false none) ∧
    play clock 0 (.setUp :: calls) Tree.empty =
      play clock'' 0 (.setUp :: calls) (Objects.new Client.new bucket keyPrefix) :=
  ⟨play_setUp clock clock' calls Tree.setUp_empty (Table.setUp_fresh database),
    play_setUp clock clock'' calls Tree.setUp_empty (Objects.setUp_fresh bucket keyPrefix)⟩

end Action
end VirtualShell.Storage
