import VirtualShell.Proofs.FileSystem.Edits
import VirtualShell.Proofs.Policy.Verdict

/-!
Writing over a store that does not fail. A write answers whether it was done; if it was, its content is read back, and if it
was not, nothing that a reader finds has changed, under a policy or not.
-/
namespace VirtualShell
open Storing Legible

theorem Storing.Yields.get_bind {σ α : Type} {f : σ → Storing σ α} {s : σ} {wanted : α → σ → Prop} (h : (f s).Yields s wanted) :
    (MonadState.get >>= f).Yields s wanted := h

variable {σ : Type} [Storage σ] [FallibleNodes σ]

/-! ### What a policy refuses -/

/-- A verdict only looks at the store. -/
theorem Checker.verdict_tries (checker : Checker) {store : σ} (hs : Intact store) (path : String) (new : Nat) :
    (checker.verdict path new).Tries ∅ store fun _ after => after = shown store := by
  rw [verdict]
  split
  · exact .pure hs rfl
  · refine .look (P := fun _ => True) ((FallibleNodes.info path hs).mono fun _ _ h => ⟨h.1,trivial⟩) hs fun node found hfound hview _ => ?_
    dsimp only
    split
    · refine .bind ((FallibleNodes.stats hfound.intact).mono fun _ _ h => h.trans hview) fun stats last hlast hstats => ?_
      exact .bind (P := fun _ after => after = shown store) (.pure hlast.intact hstats) fun total final hfinal hpure => .pure hfinal.intact hpure
    · exact .bind (P := fun _ after => after = shown store) (.pure hfound.intact hview) fun total final hfinal hpure => .pure hfinal.intact hpure

/-- A file is overwritten unless the policy is against it, and then nothing is altered. -/
theorem Guard.write_keeps (hno : ¬ MayFail σ) {guard : Guard σ} (hs : Intact guard) (now : Timestamp) {path : String} (content : String)
    (hfile : (shown guard).IsFile (Path.segments path)) :
    (Storage.write now path content).Yields guard fun done after => done = false → Altered ∅ guard after := by
  obtain ⟨denial,store,hverdict,halt,hview⟩ :=
    (guard.checker.verdict_tries hs (Path.normalize path) content.utf8ByteSize).yields hno
  have hwrite := Guard.on_write now path content guard
  cases denial with
  | some denial =>
    rw [Guard.on_ruled_denied hverdict] at hwrite
    exact .of_on hwrite fun _ => ⟨halt.intact,rfl,halt.elsewhere⟩
  | none =>
    rw [Guard.on_ruled_allowed hverdict] at hwrite
    obtain ⟨done,after,hact,_,hdone,_⟩ := (FallibleNodes.write now (Path.normalize path) content halt.intact).yields hno
    rw [hact] at hwrite
    have htrue : done = true := hdone.mpr (by rwa [hview, Path.segments_normalize])
    exact .of_on hwrite fun hfalse => absurd hfalse (by simp [htrue])

namespace FileSystem
variable {fs : FileSystem σ}

theorem rewrite_keeps (hno : ¬ MayFail σ) (hs : Intact fs) (now : Timestamp) {path : String} (content : String)
    (hfile : (shown fs).IsFile (Path.segments path)) :
    (call (Storage.write now path content)).Yields fs fun done after => done = false → Altered ∅ fs after := by
  obtain ⟨mount,cwd,clock⟩ := fs
  cases mount with
  | plain store =>
    have hstore : Intact store := hs
    obtain ⟨done,after,hact,_,hdone,_⟩ := (FallibleNodes.write now path content hstore).yields hno
    have hon : (call (Storage.write now path content)).on (⟨.plain store,cwd,clock⟩ : FileSystem σ) =
        (((Storage.write now path content).on store).1,⟨.plain ((Storage.write now path content).on store).2,cwd,clock⟩) := rfl
    rw [hact] at hon
    have htrue : done = true := hdone.mpr hfile
    exact .of_on hon fun hfalse => absurd hfalse (by simp [htrue])
  | guarded guard =>
    obtain ⟨done,after,hact,hkeeps⟩ := Guard.write_keeps hno hs now content hfile
    have hon : (call (Storage.write now path content)).on (⟨.guarded guard,cwd,clock⟩ : FileSystem σ) =
        (((Storage.write now path content).on guard).1,⟨.guarded ((Storage.write now path content).on guard).2,cwd,clock⟩) := rfl
    rw [hact] at hon
    exact .of_on hon fun hfalse => ⟨(hkeeps hfalse).intact,rfl,(hkeeps hfalse).elsewhere⟩

/-! ### Writing a file -/

/-- What became of a write: the content is there, or nothing is altered. -/
structure Written (fs : FileSystem σ) (path content : String) (done : Bool) (after : FileSystem σ) : Prop where
  intact : Intact after
  setting_eq : setting after = setting fs
  content_eq : done = true → (shown after).content? (Path.segments (fs.resolve path)) = some content
  kept : done = false → Altered ∅ fs after

/-- A write that is refused where something stands alters nothing. -/
private theorem write_keeps (hno : ¬ MayFail σ) (hs : Intact fs) (path content : String)
    (hsome : shown fs (Path.segments (fs.resolve path)) ≠ none) :
    (write path content).Yields fs fun done after => done = false → Altered ∅ fs after := by
  refine .get_bind ?_
  refine ((info_tries hs _).yields hno).bind fun found t ⟨halt,hview,hfound⟩ => ?_
  cases found with
  | none => exact absurd (Option.map_eq_none_iff.mp hfound.symm) hsome
  | some node =>
    obtain ⟨item,hitem,_⟩ := Option.map_eq_some_iff.mp hfound.symm
    have hdir := View.any_isDir_iff hfound
    dsimp only
    split
    · exact .pure fun _ => halt
    · rename_i hd
      have hfile : (shown t).IsFile (Path.segments (fs.resolve path)) := by
        rw [hview]
        cases item with
        | dir => exact absurd (hdir.mpr hitem) hd
        | file old => exact ⟨old,hitem⟩
      refine .get_bind ?_
      refine ((rewrite_keeps hno halt.intact _ content hfile).caught).bind ?_
      rintro _ u ⟨done,rfl,hkeeps⟩
      cases done with
      | true => exact .pure nofun
      | false => exact .pure fun _ => halt.trans (hkeeps rfl)

theorem write_written (hno : ¬ MayFail σ) (hs : Intact fs) (path content : String) :
    (write path content).Yields fs (Written fs path content) := by
  have htries : (write path content).Tries _ fs _ := write_tries hs rfl
  obtain ⟨done,t,hwrite,halt,hchanges⟩ := htries.yields hno
  refine .of_on hwrite ⟨halt.intact,halt.setting_eq,?_,?_⟩
  · rintro rfl
    rw [hchanges.after_eq, if_pos rfl, View.content?, View.set_self]
    rfl
  · rintro rfl
    by_cases hnone : shown fs (Path.segments (fs.resolve path)) = none
    · refine halt.of_none hs ?_
      rintro _ rfl _
      exact ⟨hnone,by rw [hchanges.after_eq]; exact hnone⟩
    · obtain ⟨done,u,hon,hkeeps⟩ := write_keeps hno hs path content hnone
      rw [hwrite, Prod.mk.injEq, Except.ok.injEq] at hon
      obtain ⟨rfl,rfl⟩ := hon
      exact hkeeps rfl

/-- Text is added to what is there already, or to nothing. -/
theorem append_written (hno : ¬ MayFail σ) (hs : Intact fs) (path content : String) : (append path content).Yields fs
    (Written fs path (((shown fs).content? (Path.segments (fs.resolve path))).getD "" ++ content)) := by
  have hread : (read path).Tries ∅ fs fun old after =>
      after = shown fs ∧ old = (shown fs).content? (Path.segments (fs.resolve path)) := .get_bind (read_tries hs _)
  refine (hread.yields hno).bind fun old t ⟨halt,_,hold⟩ => ?_
  subst hold
  have hresolve : t.resolve path = fs.resolve path :=
    congrArg (fun cwd => Path.resolve cwd path) (congrArg Setting.cwd halt.setting_eq)
  refine (write_written hno halt.intact path _).mono fun done u h => ⟨h.intact,h.setting_eq.trans halt.setting_eq,?_,?_⟩
  · intro hdone
    rw [← hresolve, h.content_eq hdone, hresolve]
  · exact fun hfalse => halt.trans (h.kept hfalse)

/-- What stands at a path is read. -/
theorem read_content (hno : ¬ MayFail σ) (hs : Intact fs) (path : String) : (read path).Yields fs fun content after =>
    Altered ∅ fs after ∧ content = (shown fs).content? (Path.segments (fs.resolve path)) := by
  have hread : (read path).Tries ∅ fs fun content after =>
      after = shown fs ∧ content = (shown fs).content? (Path.segments (fs.resolve path)) := .get_bind (read_tries hs _)
  exact (hread.yields hno).mono fun content after h => ⟨h.1,h.2.2⟩

end FileSystem
end VirtualShell
