import VirtualShell.Proofs.FileSystem.Reached
import VirtualShell.Proofs.Storage.Provider
import VirtualShell.Proofs.Storage.Total

/-!
The limits of a policy on stores that do not fail. The guard decides about a write as the exact rule over the
integers would, though it counts in 64 bits and only when it must; so the limits hold at every point of a run.
-/
namespace VirtualShell
open Storing Viewed Provider

/-- The size rule over the integers: what forbids putting `new` bytes in place of `existing` ones of a `total`. -/
def Policy.exactDenial (policy : Policy) (new existing total : Nat) : Option Denial :=
  if new > policy.maxFileSize.toNat then some .fileTooLarge
  else if (total : Int) - existing + new > policy.maxTotalSize.toNat then some .quota
  else none

theorem Policy.exactDenial_eq_none_iff {policy : Policy} {new existing total : Nat} :
    policy.exactDenial new existing total = none ↔
      new ≤ policy.maxFileSize.toNat ∧ (total : Int) - existing + new ≤ policy.maxTotalSize.toNat := by
  rw [exactDenial]
  split
  · simp
    omega
  · split
    · simp
      omega
    · simp
      omega

/-- The total is measured only if it can matter, and sums stop at the largest number of 64 bits. Neither shows. -/
theorem Checker.checkSize_eq_exactDenial (checker : Checker) (hlimit : checker.policy.maxTotalSize ≠ unlimited)
    (new : Nat) {existing total : Nat} (hle : existing ≤ total) :
    checker.checkSize new existing (if new ≤ checker.policy.maxFileSize.toNat && checker.limitsTotal then total else 0) =
      checker.policy.exactDenial new existing total := by
  have hlimits : checker.limitsTotal = true := by simpa [limitsTotal] using hlimit
  have hmax : checker.policy.maxTotalSize.toNat < 2 ^ 64 - 1 := by
    have hlt := checker.policy.maxTotalSize.toNat_lt
    have hne : checker.policy.maxTotalSize.toNat ≠ unlimited.toNat := fun he => hlimit (UInt64.toNat_inj.mp he)
    have hunlimited : unlimited.toNat = 2 ^ 64 - 1 := by decide
    omega
  rw [checkSize, Policy.exactDenial]
  by_cases hnew : new > checker.policy.maxFileSize.toNat
  · rw [if_pos hnew, if_pos hnew]
  · have hscan : (decide (new ≤ checker.policy.maxFileSize.toNat) && checker.limitsTotal) = true := by simp [hlimits]; omega
    have hiff : min (total - existing + new) (UInt64.size - 1) > checker.policy.maxTotalSize.toNat ↔
        (total : Int) - existing + new > checker.policy.maxTotalSize.toNat := by
      simp only [UInt64.size]
      omega
    rw [if_neg hnew, if_neg hnew, if_pos hscan]
    simp only [hiff]

namespace Guard
variable {σ : Type} [Storage σ] [LawfulStorage σ] {guard : Guard σ}

/-- The denials of a write, noted. -/
def noted (violations : List Violation) (path : String) (denial : Option Denial) : List Violation :=
  violations ++ denial.toList.map fun denial => ⟨.write, path, denial⟩

omit [Storage σ] [LawfulStorage σ] in
private theorem settle_yields (path : String) (denial : Option Denial) (guard : Guard σ) :
    (settle .write path denial).Yields guard fun settled after =>
      settled = denial.isNone ∧ after = { guard with violations := noted guard.violations path denial } := by
  cases denial with
  | none => exact .pure ⟨rfl,by simp [noted]⟩
  | some denial => exact .of_on rfl ⟨rfl,rfl⟩

/-- What a checker decides about a write to a store that shows a view, and what the guard is then. -/
def Decides (checker : Checker) (view : View) (violations : List Violation) (path content : String) (done : Bool)
    (after : Guard σ) : Prop :=
  let names := Path.segments path
  let denial := (checker.checkPath path).or
    (checker.policy.exactDenial content.utf8ByteSize (view.bytesAt names) view.total)
  after.checker = checker ∧ Sound after.store ∧ (done = true ↔ denial = none ∧ view.IsFile names) ∧
    Viewed.view after.store = (if done then view.set names (some (.file content)) else view) ∧
    after.violations = noted violations (Path.normalize path) denial

/-- The end of a write that the path rules allow: the size rule, then the store's own write. -/
private theorem rest_decides (hallowed : guard.checker.checkPath path = none) {after : Guard σ} (hc : after.checker = guard.checker)
    (hv : after.violations = guard.violations) (hs : Sound after.store) (hview : view after.store = view guard.store)
    {denial : Option Denial} (hdenial : denial = guard.checker.policy.exactDenial content.utf8ByteSize
      ((view guard.store).bytesAt (Path.segments path)) (view guard.store).total) (now : Timestamp) :
    (do
      if !(← settle .write (Path.normalize path) denial) then return false
      beneath (Storage.write now (Path.normalize path) content)).Yields after
      (Decides guard.checker (view guard.store) guard.violations path content) := by
  refine (settle_yields _ _ _).bind fun settled asked ⟨hsettled,hasked⟩ => ?_
  have hchecker : asked.checker = guard.checker := by rw [hasked, hc]
  have hviolations : asked.violations = noted guard.violations (Path.normalize path) denial := by rw [hasked, hv]
  have hstore : asked.store = after.store := by rw [hasked]
  rw [← hstore] at hs hview
  rw [hsettled]
  cases denial with
  | some reason =>
    refine .pure ⟨hchecker,hs,?_,hview,?_⟩
    · simp [hallowed, ← hdenial]
    · simp [hallowed, ← hdenial, hviolations]
  | none =>
    rw [if_neg (by simp)]
    have hwrite := LawfulNodes.write now (Path.normalize path) content hs
    rw [Path.segments_normalize, hview] at hwrite
    refine (beneath_yields hwrite).mono fun done last ⟨hc',hv',hs',hdone,hview'⟩ => ⟨hc'.trans hchecker,hs',?_,hview',?_⟩
    · simpa [hallowed, ← hdenial] using hdone
    · simp [hallowed, ← hdenial, hv', hviolations]

/-- A guard decides about a write by the path rules and the exact size rule. -/
theorem write_decides (hs : Sound guard.store) (hlimit : guard.checker.policy.maxTotalSize ≠ unlimited)
    (hfits : (view guard.store).total < 2 ^ 64) (now : Timestamp) (path content : String) :
    (Guard.write now path content).Yields guard
      (Decides guard.checker (view guard.store) guard.violations path content) := by
  have hpath : guard.checker.checkPath (Path.normalize path) = guard.checker.checkPath path :=
    guard.checker.checkPath_congr (Path.segments_normalize path)
  have hasked : (allows .write (Path.normalize path)).Yields guard fun allowed after =>
      allowed = (guard.checker.checkPath path).isNone ∧
        after = { guard with violations := noted guard.violations (Path.normalize path) (guard.checker.checkPath path) } := by
    rw [← hpath]
    exact (Yields.get (R := fun found after => found = guard ∧ after = guard) ⟨rfl,rfl⟩).bind fun found after ⟨hf,ha⟩ => by
      subst hf ha
      exact settle_yields _ _ _
  refine hasked.bind fun allowed after ⟨hallowed,hafter⟩ => ?_
  cases hdenial : guard.checker.checkPath path with
  | some denial =>
    rw [hallowed, hafter, hdenial]
    refine .pure ⟨rfl,hs,?_,rfl,?_⟩
    · simp [hdenial]
    · simp [hdenial]
  | none =>
    have hsame : after = guard := by rw [hafter, hdenial]; simp [noted]
    rw [hallowed, hdenial, hsame, if_neg (by simp)]
    refine (beneath_yields (LawfulNodes.info (Path.normalize path) hs)).bind fun node found ⟨hc,hv,hs1,hview,hnode⟩ => ?_
    refine (Yields.get (R := fun seen after => seen = found ∧ after = found) ⟨rfl,rfl⟩).bind fun seen after ⟨hseen,hafter⟩ => ?_
    subst hseen hafter
    rw [Path.segments_normalize] at hnode
    have hle := (LawfulNodes.wellFormed hs).bytesAt_le_total (Path.segments path)
    have hexisting : ((node.bind Node.size).getD 0).toNat = (view guard.store).bytesAt (Path.segments path) :=
      (View.sizeAt_eq hnode).trans (Nat.mod_eq_of_lt (hle.trans_lt hfits))
    have hexact := guard.checker.checkSize_eq_exactDenial hlimit content.utf8ByteSize hle
    simp only [hexisting, hc]
    split
    · rename_i hscan
      rw [if_pos hscan] at hexact
      refine (beneath_yields (LawfulNodes.stats hs1)).bind fun stats measured ⟨hc2,hv2,hs2,hview2,entries,he,_,_,hcounts⟩ => ?_
      refine Yields.bind (P := fun n after => n = stats.bytes ∧ after = measured) (.pure ⟨rfl,rfl⟩) fun n after ⟨hn,ha⟩ => ?_
      rw [hview] at he hview2
      rw [hn, ha, hcounts.eq_total he hfits]
      exact rest_decides hdenial (hc2.trans hc) (hv2.trans hv) hs2 hview2 hexact now
    · rename_i hscan
      rw [if_neg hscan] at hexact
      exact rest_decides hdenial hc hv hs1 hview hexact now

end Guard
/-! ### The limits over a run -/

/-- A view within limits: of all bytes, and of each file that is not the one it was at the start. -/
structure View.Within (bound fileBound : Nat) (view start : View) : Prop where
  total_le : view.total ≤ bound
  file_le : ∀ names content, view names = some (.file content) →
    content.utf8ByteSize ≤ fileBound ∨ start names = some (.file content)

namespace View.Within
variable {bound fileBound : Nat} {start view after : View}

/-- The files of a view are within limits if all but one are as they were. -/
private theorem set_file (h : view.Within bound fileBound start) {names : List String} {item : Option Item}
    (hitem : ∀ content, item = some (.file content) → content.utf8ByteSize ≤ fileBound) (other : List String) (content : String)
    (hother : view.set names item other = some (.file content)) :
    content.utf8ByteSize ≤ fileBound ∨ start other = some (.file content) := by
  by_cases he : other = names
  · subst he
    rw [set_self] at hother
    exact .inl (hitem content hother)
  · rw [set_ne _ _ he] at hother
    exact h.file_le other content hother

theorem of_creates (h : view.Within bound fileBound start) (hw : view.WellFormed) {node : Node} {done : Bool}
    (hc : view.Creates node done after) : after.Within bound fileBound start := by
  obtain ⟨_,rfl⟩ := hc
  split
  · refine ⟨?_,h.set_file fun content hitem => ?_⟩
    · have htotal := hw.total_set node.target (some (.new node.isDir))
      have hle := h.total_le
      have hnew : ((some (Item.new node.isDir)).map Item.bytes).getD 0 = 0 := by cases node.isDir <;> rfl
      omega
    · cases hd : node.isDir with
      | true => simp [hd, Item.new] at hitem
      | false =>
        have hempty : content = "" := by simpa [hd, Item.new, eq_comm] using hitem
        simp [hempty]
  · exact h

theorem of_deletes (h : view.Within bound fileBound start) (hw : view.WellFormed) {names : List String} {done : Bool}
    (hd : view.Deletes names done after) : after.Within bound fileBound start := by
  obtain ⟨_,rfl⟩ := hd
  split
  · refine ⟨?_,h.set_file (by simp)⟩
    have htotal := hw.total_set names none
    have hle := h.total_le
    simp only [Option.map_none, Option.getD_none] at htotal
    omega
  · exact h

theorem of_cleansUp (h : view.Within bound fileBound start) (hw : view.WellFormed) {stats : CleanupStats}
    (hc : view.CleansUp stats after) : after.Within bound fileBound start := by
  obtain ⟨rfl,_⟩ := hc
  refine ⟨hw.total_cleared_le.trans h.total_le,fun names content hf => ?_⟩
  by_cases ht : Temporary names
  · simp [cleared_of_temporary _ ht] at hf
  · rw [cleared_of_not_temporary _ ht] at hf
    exact h.file_le names content hf

/-- Writing what the exact size rule lets through. -/
theorem write {policy : Policy} (h : view.Within bound policy.maxFileSize.toNat start) (hw : view.WellFormed)
    (hbound : policy.maxTotalSize.toNat ≤ bound) {names : List String} {content : String}
    (hrule : policy.exactDenial content.utf8ByteSize (view.bytesAt names) view.total = none) :
    (view.set names (some (.file content))).Within bound policy.maxFileSize.toNat start := by
  obtain ⟨hfile,htotal⟩ := Policy.exactDenial_eq_none_iff.mp hrule
  refine ⟨?_,h.set_file fun c hc => ?_⟩
  · have hset := hw.total_set names (some (.file content))
    simp only [Option.map_some, Option.getD_some, Item.bytes] at hset
    omega
  · obtain rfl := Item.file.inj (Option.some.inj hc)
    exact hfile

end View.Within

namespace FileSystem
variable {σ : Type} [Storage σ] [LawfulStorage σ] {bound : Nat} {start : View} {checker : Checker}

/-- A sound store that is within limits. -/
private abbrev Limited (bound fileBound : Nat) (start : View) : σ → Prop := Shows fun view => view.Within bound fileBound start

private theorem guard_keeps_limits (hlimit : checker.policy.maxTotalSize ≠ unlimited)
    (hbound : checker.policy.maxTotalSize.toNat ≤ bound) (hfits : bound < 2 ^ 64) :
    Guard.Keeps checker (Limited bound checker.policy.maxFileSize.toNat start : σ → Prop) where
  info path := preserves_of_meets (LawfulNodes.info path) fun _ h hi => hi.1 ▸ h
  create node hsized _ := preserves_of_meets (LawfulNodes.create node · hsized) fun hw h hc => h.of_creates hw hc
  list path := preserves_of_meets (LawfulNodes.list path) fun _ h hl => hl.1 ▸ h
  write now path content := by
    rintro guard ⟨rfl,hs,hlimits⟩
    obtain ⟨done,after,he,hc,hsound,hdone,hview,_⟩ :=
      Guard.write_decides hs hlimit (hlimits.total_le.trans_lt hfits) now path content
    rw [he]
    refine ⟨hc,hsound,?_⟩
    rw [hview]
    split
    · have hrule := (hdone.mp ‹_›).1
      rw [Option.or_eq_none_iff] at hrule
      exact hlimits.write (LawfulNodes.wellFormed hs) hbound hrule.2
    · exact hlimits
  read path := preserves_of_meets (LawfulNodes.read path) fun _ h hr => hr.1 ▸ h
  delete path _ := preserves_of_meets (LawfulNodes.delete path) fun hw h hd => h.of_deletes hw hd
  touch now path _ := preserves_of_meets (LawfulNodes.touch now path) fun _ h ht => ht.2 ▸ h
  stats := preserves_of_meets LawfulNodes.stats fun _ h hm => hm.1 ▸ h

/-- A run under a policy stays within its limits. -/
private theorem after_limited {fs : FileSystem σ} (hlimit : checker.policy.maxTotalSize ≠ unlimited)
    (hbound : checker.policy.maxTotalSize.toNat ≤ bound) (hfits : bound < 2 ^ 64) (events : List (Timestamp × Action))
    (hmount : Mount.Under checker (Limited bound checker.policy.maxFileSize.toNat start) fs.mount) :
    Mount.Under checker (Limited bound checker.policy.maxFileSize.toNat start) (fs.after events).mount :=
  after_under (guard_keeps_limits hlimit hbound hfits) events
    (fun _ _ _ _ => preserves_of_meets LawfulStorage.cleanup fun hw h hc => h.of_cleansUp hw hc) hmount

omit [Storage σ] [LawfulStorage σ] in
private theorem violations_of_mount {fs : FileSystem σ} {guard : Guard σ} (h : fs.mount = .guarded guard) :
    fs.violations = guard.violations := by
  rw [violations, h]
  rfl

/-- Writing over a file comes to what the guard decides. -/
private theorem write_yields {fs : FileSystem σ} {guard : Guard σ} (hmount : fs.mount = .guarded guard) (hs : Sound guard.store)
    (hlimit : guard.checker.policy.maxTotalSize ≠ unlimited) (hfits : (view guard.store).total < 2 ^ 64) (content : String) {path old : String}
    (hfile : view guard.store (Path.segments (fs.resolve path)) = some (.file old)) :
    (write path content).Yields fs fun done after => ∃ guard', after = { fs with mount := .guarded guard' } ∧
      Guard.Decides guard.checker (view guard.store) guard.violations (fs.resolve path) content done guard' := by
  refine (Yields.get (R := fun seen after => seen = fs ∧ after = fs) ⟨rfl,rfl⟩).bind fun seen after h => ?_
  rw [h.1, h.2]
  have hinfo := Guard.beneath_yields (LawfulNodes.info (fs.resolve path) hs)
  refine (call_yields_guarded hmount hinfo).bind fun node after h => ?_
  obtain ⟨found,rfl,hc,hv,hs1,hview,hnode⟩ := h
  obtain ⟨node,rfl,hdir⟩ : ∃ n, node = some n ∧ n.isDir = false := by
    rw [View.node?, hfile] at hnode
    obtain ⟨n,hn,huntimed⟩ := Option.map_eq_some_iff.mp hnode
    exact ⟨n,hn,congrArg Node.isDir huntimed⟩
  simp only [hdir, Bool.false_eq_true, if_false]
  refine (Yields.get (R := fun now after => now = { fs with mount := .guarded found } ∧ after = { fs with mount := .guarded found })
    ⟨rfl,rfl⟩).bind fun now after h => ?_
  rw [h.1, h.2]
  have hwrite := Guard.write_decides hs1 (hc ▸ hlimit) (hview ▸ hfits) fs.clock (fs.resolve path) content
  rw [hc, hv, hview] at hwrite
  refine (call_yields_guarded rfl hwrite).caught.bind ?_
  rintro _ _ ⟨done,rfl,guard',rfl,hdecides⟩
  cases done with
  | true => exact .pure ⟨guard',rfl,hdecides⟩
  | false => exact .pure ⟨guard',rfl,hdecides⟩

variable {fs guarded : FileSystem Provider} {policy : Policy}

/--
Once a policy with a total limit has been put over a store that does not fail, the bytes of all files stay within
that limit, or within what was there; and a file larger than the file limit has had its content at every point
since. To replace the content of a file at an allowed path succeeds just when both limits allow it over the
integers, and is otherwise noted with the rule that forbids it.
-/
theorem limits_hold (hreached : Reached Provider.Ready fs) (hcompile : Checker.compile policy = .ok checker)
    (happlied : (applyPolicy policy).on fs = (.ok (), guarded)) (hlimit : policy.maxTotalSize ≠ unlimited)
    (hfits : (view guarded.mount.store).total < 2 ^ 64) (earlier events : List (Timestamp × Action)) :
    let start := view guarded.mount.store
    let middle := view (guarded.after earlier).mount.store
    let reached := (guarded.after earlier).after events
    let last := view reached.mount.store
    last.total ≤ max start.total policy.maxTotalSize.toNat ∧
    (∀ names content, last names = some (.file content) →
      content.utf8ByteSize ≤ policy.maxFileSize.toNat ∨ middle names = some (.file content)) ∧
    ∀ path content old, checker.checkPath (reached.resolve path) = none →
      last (Path.segments (reached.resolve path)) = some (.file old) →
      ∃ done after, (write path content).on reached = (.ok done, after) ∧
        (done = true ↔ content.utf8ByteSize ≤ policy.maxFileSize.toNat ∧
          (last.total : Int) - old.utf8ByteSize + content.utf8ByteSize ≤ policy.maxTotalSize.toNat) ∧
        view after.mount.store =
          (if done then last.set (Path.segments (reached.resolve path)) (some (.file content)) else last) ∧
        after.violations = Guard.noted reached.violations (reached.resolve path)
          (policy.exactDenial content.utf8ByteSize old.utf8ByteSize last.total) := by
  intro start middle reached last
  obtain rfl := Checker.policy_of_compile hcompile
  have hsound : Sound guarded.mount.store := by
    have hpoliced := hreached.policed checker.policy
    rw [happlied] at hpoliced
    exact hpoliced.holds keeps_sound (fun now _ hk => hk.sound_setUp now) (preserves_sound LawfulStorage.cleanup)
  have hbound : max start.total checker.policy.maxTotalSize.toNat < 2 ^ 64 :=
    max_lt hfits checker.policy.maxTotalSize.toNat_lt
  have hstart : Mount.Under checker (Limited (max start.total checker.policy.maxTotalSize.toNat)
      checker.policy.maxFileSize.toNat start) guarded.mount :=
    under_of_applyPolicy hcompile happlied ⟨hsound,le_max_left _ _,fun _ _ hf => .inr hf⟩
  obtain ⟨guard,hguard,hchecker,hs,hlimits⟩ := after_limited hlimit (le_max_right _ _) hbound earlier hstart
  have hmiddle : Mount.Under checker (Limited (max start.total checker.policy.maxTotalSize.toNat)
      checker.policy.maxFileSize.toNat middle) (guarded.after earlier).mount := by
    refine ⟨guard,hguard,hchecker,hs,?_⟩
    have hview : middle = view guard.store := congrArg (fun mount : Mount Provider => view mount.store) hguard
    rw [hview]
    exact ⟨hlimits.total_le,fun _ _ hf => .inr hf⟩
  obtain ⟨guard',hguard',hchecker',hs',hlimits'⟩ := after_limited hlimit (le_max_right _ _) hbound events hmiddle
  have hlast : last = view guard'.store := congrArg (fun mount : Mount Provider => view mount.store) hguard'
  rw [hlast]
  refine ⟨hlimits'.total_le,hlimits'.file_le,fun path content old hallowed hfile => ?_⟩
  obtain rfl := hchecker'
  obtain ⟨done,after,he,guard'',rfl,hchecker'',hs'',hdone,hview,hnoted⟩ :=
    write_yields hguard' hs' hlimit (hlimits'.total_le.trans_lt hbound) content hfile
  rw [hallowed, Option.none_or, View.bytesAt_of_file hfile] at hdone hnoted
  refine ⟨done,_,he,hdone.trans ?_,hview,?_⟩
  · rw [Policy.exactDenial_eq_none_iff]
    exact and_iff_left ⟨old,hfile⟩
  · rw [resolve, Path.normalize_resolve, ← violations_of_mount hguard'] at hnoted
    exact hnoted

private theorem total_baseStore : (view baseStore).total = 0 := by
  have hrising : baseDirs.Rising := by
    simp only [baseDirs, List.foldr, Forest.Rising, Forest.names]
    decide +kernel
  have he : (view baseStore).Enumerates (([], .dir) :: baseDirs.chains) := Entry.enumerates_dir hrising
  rw [← he.byteCount_eq]
  rfl

/-- A file system over a new tree that may hold four bytes. -/
theorem four_bytes_at_most :
    let policy : Policy := { Policy.unrestricted with maxFileSize := 3, maxTotalSize := 4 }
    let events := [(1, Action.write "/tmp/a" "abc"), (2, .append "/tmp/a" "d"), (3, .cp "/tmp/a" "/tmp/b")]
    ∃ (fs guarded : FileSystem Provider) (checker : Checker),
      open_ 0 (.tree Tree.empty) = .ok fs ∧ Checker.compile policy = .ok checker ∧
      (applyPolicy policy).on fs = (.ok (), guarded) ∧ policy.maxTotalSize ≠ unlimited ∧
      (view guarded.mount.store).total < 2 ^ 64 ∧ (view ((guarded.after []).after events).mount.store).total ≤ 4 := by
  intro policy events
  have hopen : open_ 0 (Provider.tree Tree.empty) = .ok ⟨.plain baseStore,"/",0⟩ := rfl
  have happlied : (applyPolicy policy).on (⟨.plain baseStore,"/",0⟩ : FileSystem Provider) =
    (.ok (), ⟨.guarded ⟨baseStore,⟨policy,[]⟩,[]⟩,"/",0⟩) := rfl
  have hlimit : policy.maxTotalSize ≠ unlimited := by decide
  have hfits : (view baseStore).total < 2 ^ 64 := by
    rw [total_baseStore]
    decide
  have hlast := (limits_hold (.opened .tree hopen) rfl happlied hlimit hfits [] events).1
  refine ⟨_,_,_,hopen,rfl,happlied,hlimit,hfits,hlast.trans ?_⟩
  change max (view baseStore).total 4 ≤ 4
  rw [total_baseStore]
  decide

end FileSystem
end VirtualShell
