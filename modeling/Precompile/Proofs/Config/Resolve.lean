import Precompile.Config.Resolve
import Precompile.Proofs.OrderedMap
import Precompile.Proofs.Path.Names

/-!
Where a build is set up.

The configuration is found where valid options name it (`ConfigLocation.find_eq_ok_iff`). Seen from an
absolute working directory, the base path of a build is absolute and normal, unless it is that very
directory and this is not normal (`ConfigLocation.anchored_basePath_of_find`). So its directory of
generated files is absolute and normal (`BuildOptions.anchored_genDirOf`), and so is what is joined
with it (`Path.anchored_lexicalJoin`). The paths that overrides take the place of are normal from
wherever they are seen (`BuildOptions.isNormal_of_mem_overrides`).
-/

namespace Precompile

/-- What is found of a result that can be computed. -/
theorem exists_of_any {α : Type} {e : Except ConfigError α} {Q : α → Prop} [DecidablePred Q]
    (seen : e.toOption.any (fun a => decide (Q a)) = true) : ∃ a, e = .ok a ∧ Q a := by
  cases e with
  | error e => cases seen
  | ok a => exact ⟨a, rfl, of_decide_eq_true seen⟩

/-! ### Absolute and normal paths -/

namespace Path

theorem isAbsolute_lexicalJoin {p : Path} (h : p.isAbsolute = true) (relative : String) :
    (p.lexicalJoin relative).isAbsolute = true := by
  unfold lexicalJoin
  exact isAbsolute_normalize (isAbsolute_join h _)

theorem isNormal_lexicalJoin (p : Path) (relative : String) :
    (p.lexicalJoin relative).IsNormal := by
  unfold lexicalJoin
  exact isNormal_normalize (p.join ⟨relative⟩)

/-- The path is absolute and its own normal form. -/
structure Anchored (p : Path) : Prop where
  absolute : p.isAbsolute = true
  normal : p.IsNormal

theorem IsAt.anchored {p : Path} {names : List String} (h : p.IsAt names) : p.Anchored :=
  ⟨h.absolute, h.normal⟩

namespace Anchored

variable {p : Path}

theorem exists_isAt (h : p.Anchored) : ∃ names, p.IsAt names := h.normal.exists_isAt h.absolute

/-- All but the root lie in a directory. -/
theorem exists_parent (h : p.Anchored) (apart : p ≠ ⟨"/"⟩) : ∃ d, p.parent? = some d := by
  obtain ⟨names, hp⟩ := h.exists_isAt
  rcases List.eq_nil_or_concat' names with rfl | ⟨front, s, rfl⟩
  · have root : IsAt ⟨"/"⟩ [] := ⟨by decide, by decide⟩
    exact absurd (hp.path_eq root) apart
  · obtain ⟨d, hd, -⟩ := hp.exists_parent
    exact ⟨d, hd⟩

end Anchored

/-- Whatever is joined with an absolute path leads to an absolute normal one. -/
theorem anchored_lexicalJoin {p : Path} (h : p.isAbsolute = true) (relative : String) :
    (p.lexicalJoin relative).Anchored :=
  ⟨isAbsolute_lexicalJoin h relative, isNormal_lexicalJoin p relative⟩

end Path

/-! ### Base path and directory of generated files -/

namespace ConfigLocation

variable {o : UserOptions} {cwd : Path} {files files' : FileSystem} {l : ConfigLocation}

/-- Of options that are valid the configuration is found where they name it. The base path is named
too, or is the directory of the configuration. -/
theorem find_eq_ok_iff : find o cwd files = .ok l ↔ o.validate = .ok () ∧
    l.tsConfigPath = cwd.lexicalJoin (o.tsConfigPath.getD "") ∧
    l.basePath = match o.basePath with
      | some base => cwd.lexicalJoin base
      | none => if files.isDir l.tsConfigPath then l.tsConfigPath
        else l.tsConfigPath.parent?.getD cwd := by
  obtain ⟨config, base⟩ := l
  unfold find
  generalize cwd.lexicalJoin (o.tsConfigPath.getD "") = place
  cases o.validate with
  | error e => simp
  | ok _ =>
    simp only [Except.ok.injEq, mk.injEq, true_and]
    constructor
    · rintro ⟨rfl, rfl⟩
      exact ⟨rfl, rfl⟩
    · rintro ⟨rfl, rfl⟩
      exact ⟨rfl, rfl⟩

theorem anchored_of_find (absolute : cwd.isAbsolute = true) (h : find o cwd files = .ok l) :
    l.tsConfigPath.Anchored := by
  rw [(find_eq_ok_iff.1 h).2.1]
  exact Path.anchored_lexicalJoin absolute _

/-- Seen from an absolute working directory, the base path is absolute and normal, if that directory is
normal where it is the base path itself: there the configuration lies in no directory. -/
theorem anchored_basePath_of_find (absolute : cwd.isAbsolute = true) (h : find o cwd files = .ok l)
    (settled : l.tsConfigPath.parent? = none → cwd.IsNormal) : l.basePath.Anchored := by
  rw [(find_eq_ok_iff.1 h).2.2]
  split
  next base _ => exact Path.anchored_lexicalJoin absolute base
  next =>
    have config := anchored_of_find absolute h
    split
    · exact config
    · cases hparent : l.tsConfigPath.parent? with
      | none => exact ⟨absolute, settled hparent⟩
      | some d =>
        obtain ⟨rooted, normal⟩ := config.normal.parent config.absolute hparent
        exact ⟨rooted, normal⟩

end ConfigLocation

namespace BuildOptions

variable {given : UserOptions} {l : ConfigLocation} {parsed : ParsedConfig} {o : BuildOptions}
  {filter : ExcludeFilter}

/-- The directory of generated files is absolute and normal as the base path is. -/
theorem anchored_genDirOf {base : Path} (h : base.Anchored) (codegen : CodegenOptions) :
    (genDirOf base codegen).Anchored := by
  unfold genDirOf
  split
  next dir _ => exact Path.anchored_lexicalJoin h.absolute dir
  next =>
    have part : (Component.name "$$_gendir").IsPart :=
      Path.isPart_name (by decide +kernel) (by decide +kernel)
    exact ⟨Path.isAbsolute_join h.absolute _, h.normal.join_name part⟩

/-! ### Resolved options -/

/-- What the parts of resolved options that lead somewhere come from. -/
structure ResolvedBy (given : UserOptions) (l : ConfigLocation) (parsed : ParsedConfig)
    (filter : ExcludeFilter) (o : BuildOptions) : Prop where
  made : ExcludeFilter.make given.exclude l.basePath = .ok filter
  tsConfigPath : o.tsConfigPath = l.tsConfigPath
  basePath : o.basePath = l.basePath
  roots : o.roots = filter.keep parsed.roots
  genDir : o.genDir = genDirOf l.basePath parsed.codegen
  codegen : o.codegen.genDir = some o.genDir.text
  entryModule :
    o.entryModule = entryModuleOf l.basePath given.entryModule parsed.codegen.entryModule
  mainPath : o.mainPath = given.mainPath.map l.basePath.lexicalJoin
  overrides : o.overrides = .ofList (given.hostOverrideFileSystem.entries.map
    fun (path, content) => (l.basePath.lexicalJoin path, content))

theorem exists_resolvedBy (h : resolve given l parsed = .ok o) :
    ∃ filter, ResolvedBy given l parsed filter o := by
  unfold resolve at h
  dsimp only at h
  cases made : ExcludeFilter.make given.exclude l.basePath with
  | error e => simp [made, Except.map] at h
  | ok filter =>
    rw [made] at h
    cases h
    exact ⟨filter, made, rfl, rfl, rfl, rfl, rfl, rfl, rfl, rfl⟩

/-- Overrides take the place of what their names lead to from the base path. -/
theorem ResolvedBy.forall_mem_overrides (resolved : ResolvedBy given l parsed filter o)
    {Q : Path → Prop} (each : ∀ name, Q (l.basePath.lexicalJoin name)) :
    ∀ e ∈ o.overrides.entries, Q e.1 := by
  rw [resolved.overrides]
  refine OrderedMap.forall_mem_insertAll (m := .empty) (Q := fun p (_ : String) => Q p)
    (fun hp _ _ => hp) (fun e he => nomatch he) fun e he => ?_
  obtain ⟨⟨path, content⟩, -, rfl⟩ := List.mem_map.mp he
  exact each path

theorem isNormal_of_mem_overrides (h : resolve given l parsed = .ok o) :
    ∀ e ∈ o.overrides.entries, e.1.IsNormal := by
  obtain ⟨filter, resolved⟩ := exists_resolvedBy h
  exact resolved.forall_mem_overrides (Path.isNormal_lexicalJoin l.basePath)

end BuildOptions

end Precompile
