import Precompile.Proofs.Scanning.Configuration
import Precompile.Proofs.Sources.Listing

/-!
# The places of a build

Options and configurations name files and directories in many ways: from the working directory, from
the base path or from the root, with climbs and by default. What they are resolved to is absolute and
normal at every place (`BuildOptions.placed_of_resolve`), so it can be compared with other paths and
looked up as it is. Only a build whose base path is the working directory itself, because its
configuration is the root, takes that directory over as it is written.
-/

namespace Precompile

open Precompile.Path (Anchored)

/-! ### Roots of a configuration -/

namespace Scanning

variable {h : Host} {base p : Path} {raw : Json} {parsed : ParsedConfig} {names : List String}

theorem ScriptBelow.anchored (below : ScriptBelow h base p) (normal : h.cache.HasNormalKeys)
    (hb : base.IsAt names) : p.Anchored := by
  obtain ⟨_, _, hp, -⟩ := (scriptBelow_iff normal hb).mp below
  exact hp.anchored

/-- Listed files are joined with the base path, and scripts are found by walking down from it. -/
theorem anchored_of_readConfig (normal : h.cache.HasNormalKeys) (hb : base.Anchored)
    (read : readConfig raw base h = .ok parsed) : ∀ p ∈ parsed.roots, p.Anchored := by
  obtain ⟨files, -, selected, -, anywhere⟩ := exists_readConfig_eq read
  have roots : parsed.roots =
      (files.getD []).map base.lexicalJoin ++ (scriptsBelow h base).filter selected :=
    congrArg ParsedConfig.roots (Except.ok.inj (read.symm.trans (anywhere h)))
  intro p hp
  rw [roots] at hp
  rcases List.mem_append.mp hp with listed | found
  · obtain ⟨file, -, rfl⟩ := List.mem_map.mp listed
    exact Path.anchored_lexicalJoin hb.absolute file
  · obtain ⟨names, isAt⟩ := hb.exists_isAt
    have below := (mem_scriptsBelow_iff normal isAt).mp (List.mem_of_mem_filter found)
    exact below.anchored normal isAt

end Scanning

/-! ### Resolved options -/

namespace BuildOptions

variable {given : UserOptions} {cwd : Path} {files : FileSystem} {l : ConfigLocation} {raw : Json}
  {h : Host} {parsed : ParsedConfig} {filter : ExcludeFilter} {o : BuildOptions}

/-- An entry module of the configuration is seen from the base path. -/
theorem anchored_entryModuleOf {base : Path} (absolute : base.isAbsolute = true)
    (configured : Option String) :
    (entryModuleOf base none configured).isSome = configured.isSome ∧
      ∀ e ∈ entryModuleOf base none configured, Anchored ⟨e.module⟩ := by
  cases configured with
  | none => exact ⟨rfl, nofun⟩
  | some entry =>
    have seen := Path.anchored_lexicalJoin absolute (ModuleReference.parse entry).module
    simp only [entryModuleOf]
    generalize base.lexicalJoin (ModuleReference.parse entry).module = p at seen
    refine ⟨rfl, fun e he => ?_⟩
    cases he
    exact seen

theorem ResolvedBy.overrides_anchored (resolved : ResolvedBy given l parsed filter o)
    (absolute : l.basePath.isAbsolute = true) : ∀ p ∈ o.overrides.keys, p.Anchored := by
  intro p hp
  obtain ⟨content, hmem⟩ := OrderedMap.mem_keys.mp hp
  exact resolved.forall_mem_overrides (Q := Anchored) (Path.anchored_lexicalJoin absolute) _ hmem

/-- No override is lost. -/
theorem ResolvedBy.mem_overrides (resolved : ResolvedBy given l parsed filter o)
    (absolute : l.basePath.isAbsolute = true) {e : String × String}
    (he : e ∈ given.hostOverrideFileSystem.entries) :
    l.basePath.lexicalJoin e.1 ∈ o.overrides.keys := by
  have normal : PathMap.HasNormalKeys o.overrides := fun p hp =>
    (resolved.overrides_anchored absolute p hp).normal
  refine normal.mem_keys_iff.mpr ⟨Path.isNormal_lexicalJoin l.basePath e.1, ?_⟩
  rw [resolved.overrides, OrderedMap.ofList, OrderedMap.contains_insertAll]
  exact .inr ⟨_, List.mem_map_of_mem he, rfl⟩

/-- All places of resolved options are absolute and normal, and nothing that was given is lost. -/
structure Placed (given : UserOptions) (parsed : ParsedConfig) (o : BuildOptions) : Prop where
  tsConfigPath : o.tsConfigPath.Anchored
  basePath : o.basePath.Anchored
  genDir : o.genDir.Anchored
  -- The generator is told the same directory.
  codegen : o.codegen.genDir = some o.genDir.text
  mainPath : o.mainPath.isSome = given.mainPath.isSome ∧ ∀ p ∈ o.mainPath, p.Anchored
  roots : ∀ p ∈ o.roots, p.Anchored
  -- The roots are those of the configuration, as they come, but for the excluded ones.
  kept : ∃ keeps : Path → Bool,
    (∀ p, keeps p = true ↔ ∀ glob ∈ given.exclude.getD ExcludeFilter.defaultPatterns,
      ¬ Scanning.SelectsFrom o.basePath glob p) ∧
    o.roots = parsed.roots.filter keeps
  overrides : ∀ p ∈ o.overrides.keys, p.Anchored
  overridden : ∀ e ∈ given.hostOverrideFileSystem.entries,
    o.basePath.lexicalJoin e.1 ∈ o.overrides.keys
  -- An entry module that is set is left as it is written, and this is the one of the configuration.
  entryModule : given.entryModule = none →
    o.entryModule.isSome = parsed.codegen.entryModule.isSome ∧
      ∀ e ∈ o.entryModule, Anchored ⟨e.module⟩

theorem ResolvedBy.placed (resolved : ResolvedBy given l parsed filter o)
    (config : l.tsConfigPath.Anchored) (base : l.basePath.Anchored)
    (roots : ∀ p ∈ parsed.roots, p.Anchored) : Placed given parsed o where
  tsConfigPath := resolved.tsConfigPath ▸ config
  basePath := resolved.basePath ▸ base
  genDir := resolved.genDir ▸ anchored_genDirOf base parsed.codegen
  codegen := resolved.codegen
  mainPath := by
    rw [resolved.mainPath]
    refine ⟨Option.isSome_map, fun p hp => ?_⟩
    obtain ⟨main, -, rfl⟩ := Option.mem_map.mp hp
    exact Path.anchored_lexicalJoin base.absolute main
  roots := by
    rw [resolved.roots]
    exact fun p hp => roots p (List.mem_of_mem_filter hp)
  kept := by
    refine ⟨fun p => !filter.isExcluded p, fun p => ?_, resolved.roots⟩
    rw [Bool.not_eq_true', resolved.basePath, Scanning.isExcluded_eq_false_iff resolved.made]
  overrides := resolved.overrides_anchored base.absolute
  overridden := by
    rw [resolved.basePath]
    exact fun e he => resolved.mem_overrides base.absolute he
  entryModule := by
    intro unset
    rw [resolved.entryModule, unset]
    exact anchored_entryModuleOf base.absolute parsed.codegen.entryModule

/-- Whatever options say in an absolute directory, and whatever their configuration says over a host: if
the configuration is not the root, all places that they are resolved to are absolute and normal. (Over
files in memory each host has normal keys, whatever was asked of it: `ParseCache.hasNormalKeys_run`.) -/
theorem placed_of_resolve (absolute : cwd.isAbsolute = true)
    (found : ConfigLocation.find given cwd files = .ok l) (inside : l.tsConfigPath ≠ ⟨"/"⟩)
    (normal : h.cache.HasNormalKeys) (read : Scanning.readConfig raw l.basePath h = .ok parsed)
    (resolved : resolve given l parsed = .ok o) : Placed given parsed o := by
  have config := ConfigLocation.anchored_of_find absolute found
  have base : l.basePath.Anchored := by
    refine ConfigLocation.anchored_basePath_of_find absolute found fun top => ?_
    obtain ⟨d, above⟩ := config.exists_parent inside
    cases top.symm.trans above
  obtain ⟨filter, resolved⟩ := exists_resolvedBy resolved
  exact resolved.placed config base (Scanning.anchored_of_readConfig normal base read)

/-- The root lies in no directory. The working directory is then the base path as it is written. -/
example : (ConfigLocation.find { (default : UserOptions) with tsConfigPath := some ".." } ⟨"/a/.."⟩
    (.memory .empty)).toOption.map (·.basePath) = some ⟨"/a/.."⟩ := by
  decide +kernel

/-- Options that climb, by default and on purpose. -/
def climbing : UserOptions :=
  { (default : UserOptions) with
    tsConfigPath := some "./x/../a/tsconfig.json"
    mainPath := some "/a/../main.ts"
    hostOverrideFileSystem := .ofList [("../env/./e.ts", "")] }

/-- A configuration that climbs. -/
def climbingConfig : Json :=
  .object [("files", .array [.string "../lib/./l.ts"]), ("include", .array [.string "**/*"]),
    ("angularCompilerOptions", .object [("genDir", .string "../../out"),
      ("entryModule", .string "./m#M")])]

def climbingFiles : MemoryFiles :=
  (MemoryFiles.empty.insert ⟨"/a/m.ts"⟩ "").insert ⟨"/a/m.spec.ts"⟩ ""

/-- What a cache was asked before the configuration is read. A script was written. -/
def climbingCalls : List CacheCall :=
  [.enableCaching, .read ⟨"/a/m.ts"⟩, .write ⟨"/a/x/../g.ts"⟩ "" false]

def climbingHost : Host :=
  ⟨(ParseCache.run (.memory climbingFiles) climbingCalls).2.cache, ⟨"/a"⟩, []⟩

theorem placed_of_resolve_climbing : ∃ l parsed o,
    ConfigLocation.find climbing ⟨"/v/.."⟩ (.memory climbingFiles) = .ok l ∧
      l.tsConfigPath ≠ ⟨"/"⟩ ∧ climbingHost.cache.HasNormalKeys ∧
      Scanning.readConfig climbingConfig l.basePath climbingHost = .ok parsed ∧
      resolve climbing l parsed = .ok o ∧ Placed climbing parsed o ∧
      o.roots = [⟨"/lib/l.ts"⟩, ⟨"/a/g.ts"⟩, ⟨"/a/m.ts"⟩] ∧
      o.genDir = ⟨"/out"⟩ ∧ o.overrides.keys = [⟨"/env/e.ts"⟩] ∧
      o.entryModule = some ⟨"/a/m", "M"⟩ := by
  have seen : (ConfigLocation.find climbing ⟨"/v/.."⟩ (.memory climbingFiles) >>= fun l =>
      Scanning.readConfig climbingConfig l.basePath climbingHost >>= fun parsed =>
      resolve climbing l parsed).toOption.any (fun o => decide (o.tsConfigPath ≠ ⟨"/"⟩ ∧
        o.roots = [⟨"/lib/l.ts"⟩, ⟨"/a/g.ts"⟩, ⟨"/a/m.ts"⟩] ∧
        o.genDir = ⟨"/out"⟩ ∧ o.overrides.keys = [⟨"/env/e.ts"⟩] ∧
        o.entryModule = some ⟨"/a/m", "M"⟩)) = true := by
    decide +kernel
  have made : climbingFiles.Made := .insert _ _ (.insert _ _ .empty)
  have stays : ∀ call ∈ climbingCalls, call.StaysInMemory := by
    rintro call hcall files rfl
    simp [climbingCalls] at hcall
  have normal : climbingHost.cache.HasNormalKeys := ParseCache.hasNormalKeys_run made stays
  obtain ⟨o, resolved, inside, values⟩ := exists_of_any seen
  obtain ⟨l, found, resolved⟩ := Scanning.exists_of_bind_eq_ok resolved
  obtain ⟨parsed, read, resolved⟩ := Scanning.exists_of_bind_eq_ok resolved
  obtain ⟨filter, parts⟩ := exists_resolvedBy resolved
  rw [parts.tsConfigPath] at inside
  exact ⟨l, parsed, o, found, inside, normal, read, resolved,
    placed_of_resolve (by decide) found inside normal read resolved, values⟩

end BuildOptions

end Precompile
