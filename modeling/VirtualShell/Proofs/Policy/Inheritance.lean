import VirtualShell.Proofs.Path.Segments
import VirtualShell.Policy.Basic

/-!
What the denial of a directory says about the paths in it. The denied paths are closed under going down, and so are the
components of a path; a pattern that matches a directory only as a whole is about that one path.
-/
namespace VirtualShell.Checker
variable {checker : Checker} {path inner : String}

/-- The path is one of the denied paths or lies below one. -/
def DeniesPath (checker : Checker) (path : String) : Prop :=
  ∃ denied ∈ checker.policy.deniedPaths, Path.AtOrBelow denied path

/-- Some pattern matches a component of the path. -/
def MatchesComponent (checker : Checker) (path : String) : Prop :=
  ∃ pattern ∈ checker.patterns, ∃ part ∈ Path.segments path, pattern part = true

theorem DeniesPath.further (h : checker.DeniesPath path) (hinner : Path.AtOrBelow path inner) : checker.DeniesPath inner := by
  obtain ⟨denied,hmem,hat⟩ := h
  exact ⟨denied,hmem,hat.trans hinner⟩

theorem MatchesComponent.further (h : checker.MatchesComponent path) (hinner : Path.AtOrBelow path inner) :
    checker.MatchesComponent inner := by
  obtain ⟨pattern,hmem,part,hpart,hmatch⟩ := h
  exact ⟨pattern,hmem,part,hinner.subset hpart,hmatch⟩

theorem MatchesComponent.matchesPattern (h : checker.MatchesComponent path) :
    checker.matchesPattern (Path.normalize path) = true := by
  obtain ⟨pattern,hmem,part,hpart,hmatch⟩ := h
  refine List.any_eq_true.mpr ⟨pattern,hmem,?_⟩
  rw [Path.segments_normalize, Bool.or_eq_true, List.any_eq_true]
  exact .inr ⟨part,hpart,hmatch⟩

/-! ### The first three rules -/

private theorem any_isWithin_iff :
    checker.policy.deniedPaths.any (Path.isWithin (Path.normalize path)) = true ↔ checker.DeniesPath path := by
  simp [DeniesPath, Path.isWithin_iff (Path.normalize_normalize path), Path.AtOrBelow]

theorem checkPath_eq_readOnly_iff : checker.checkPath path = some .readOnly ↔ checker.policy.readOnly = true := by
  simp only [checkPath]
  split_ifs <;> simp_all

theorem checkPath_eq_deniedPath_iff :
    checker.checkPath path = some .deniedPath ↔ checker.policy.readOnly = false ∧ checker.DeniesPath path := by
  rw [← any_isWithin_iff]
  simp only [checkPath]
  split_ifs <;> simp_all

theorem checkPath_eq_deniedPattern_iff :
    checker.checkPath path = some .deniedPattern ↔
      checker.policy.readOnly = false ∧ ¬ checker.DeniesPath path ∧ checker.matchesPattern (Path.normalize path) = true := by
  rw [← any_isWithin_iff]
  simp only [checkPath]
  split_ifs <;> simp_all

/--
What is denied to a directory because nothing may change, for a denied path, or for a component that a pattern matches
is denied to everything in it. The reason is the same, unless a denied path comes first further down.
-/
theorem checkPath_inherited (checker : Checker) {denial : Denial} (hinner : Path.AtOrBelow path inner)
    (hdenied : checker.checkPath path = some denial)
    (hrule : denial = .readOnly ∨ denial = .deniedPath ∨ denial = .deniedPattern ∧ checker.MatchesComponent path) :
    checker.checkPath inner = some denial ∨ denial = .deniedPattern ∧ checker.checkPath inner = some .deniedPath := by
  rcases hrule with rfl | rfl | ⟨rfl,hmatch⟩
  · exact .inl (checkPath_eq_readOnly_iff.mpr (checkPath_eq_readOnly_iff.mp hdenied))
  · obtain ⟨hwritable,hpath⟩ := checkPath_eq_deniedPath_iff.mp hdenied
    exact .inl (checkPath_eq_deniedPath_iff.mpr ⟨hwritable,hpath.further hinner⟩)
  · obtain ⟨hwritable,_⟩ := checkPath_eq_deniedPattern_iff.mp hdenied
    by_cases hpath : checker.DeniesPath inner
    · exact .inr ⟨rfl,checkPath_eq_deniedPath_iff.mpr ⟨hwritable,hpath⟩⟩
    · exact .inl (checkPath_eq_deniedPattern_iff.mpr ⟨hwritable,hpath,(hmatch.further hinner).matchesPattern⟩)

/-- The policy that denies what one pattern matches, and nothing else. -/
def denying (pattern : String) : Policy := { Policy.unrestricted with deniedPatterns := [pattern] }

/-- What lies in a hidden directory is denied with it. -/
theorem hidden_inherited :
    let checker : Checker := ⟨denying "^\\.",[fun part => part.toList.head? == some '.']⟩
    checker.checkPath "/home/.config" = some .deniedPattern ∧
      (checker.checkPath "/home/.config/app" = some .deniedPattern ∨
        Denial.deniedPattern = .deniedPattern ∧ checker.checkPath "/home/.config/app" = some .deniedPath) := by
  intro checker
  have hdenied : checker.checkPath "/home/.config" = some .deniedPattern := by decide +kernel
  refine ⟨hdenied,checker.checkPath_inherited ⟨["app"],by decide +kernel⟩ hdenied (.inr (.inr ⟨rfl,?_⟩))⟩
  exact ⟨_,List.mem_singleton_self _,".config",by decide +kernel,by decide +kernel⟩

/-- A pattern that matches a directory as a whole and none of its components denies nothing in it. -/
theorem anchored_not_inherited : ∃ checker, compile (denying "^/secret$") = .ok checker ∧
    Path.AtOrBelow "/secret" "/secret/x" ∧ checker.checkPath "/secret" = some .deniedPattern ∧
    checker.checkPath "/secret/x" = none := by
  have hanswers : ((compile (denying "^/secret$")).toOption.map fun checker =>
      (checker.checkPath "/secret", checker.checkPath "/secret/x")) = some (some .deniedPattern, none) := by decide +kernel
  cases hc : compile (denying "^/secret$") with
  | error e => simp [hc, Except.toOption] at hanswers
  | ok checker =>
    rw [hc] at hanswers
    obtain ⟨hdir,hin⟩ := Prod.mk.inj (Option.some.inj hanswers)
    exact ⟨checker,rfl,⟨["x"],by decide +kernel⟩,hdir,hin⟩

end VirtualShell.Checker
