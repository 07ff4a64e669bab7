import Precompile.Proofs.Build.Cycle
import Precompile.Proofs.Config.Resolve
import Precompile.Proofs.Factory.Generator
import Precompile.Proofs.Scanning.Reachable
import Precompile.Scanning.Findings

/-!
Runs of an orchestrator whose edits are reported.

Setting up gives an orchestrator if each of its steps succeeds (`setUp_eq_ok_iff`). Files are edited
between cycles, and each edited path is reported before the next cycle begins. What the host keeps
through edits, reports and cycles then holds after every run (`Run.host_induction`).
-/

namespace Precompile

/-- The scanning checker and the factory generator, with any loader of resources. -/
def Collaborators.scanning (loader : ResourceLoader) : Collaborators :=
  ⟨Scanning.checker, Factory.generator, loader⟩

theorem Collaborators.careful_scanning (loader : ResourceLoader) : (scanning loader).Careful where
  createProgram := by
    intro roots options previous h
    obtain ⟨ps, hps⟩ := Scanning.createProgram_host roots options previous h
    exact hps ▸ h.uses_retainAll ps
  generate := fun o P h => Factory.uses_generate o loader P h
  listAllRoutes := fun _ _ h => h.uses_retainAll _

namespace Orchestrator

/-- Some spelling of the path was reported and waits for the next cycle. -/
def Reported (o : Orchestrator) (p : Path) : Prop :=
  ∃ q ∈ o.queue.toList, q.normalize = p.normalize

/-- What setting up goes through when it succeeds. -/
theorem setUp_eq_ok_iff {c : Collaborators} {given : UserOptions} {cwd : Path} {files : FileSystem}
    {o : Orchestrator} : setUp c given cwd files = .ok o ↔
    ∃ location content raw parsed used options,
      ConfigLocation.find given cwd files = .ok location ∧
      configText (.ofFiles files location.basePath) location.tsConfigPath = .ok content ∧
      readTsConfig location.tsConfigPath content = .ok raw ∧
      c.checker.parseConfig raw location.basePath (.ofFiles files location.basePath) =
        (.ok parsed, used) ∧
      BuildOptions.resolve given location parsed = .ok options ∧ o = ofHost c options used := by
  constructor
  · intro ready
    unfold setUp at ready
    split at ready
    · cases ready
    next location found =>
      dsimp only at ready
      split at ready
      · cases ready
      next content text =>
        split at ready
        · cases ready
        next raw readRaw =>
          split at ready
          · cases ready
          next parsed used hparse =>
            cases hresolve : BuildOptions.resolve given location parsed with
            | error e => simp [hresolve, Except.map] at ready
            | ok options =>
              rw [hresolve] at ready
              exact ⟨location, content, raw, parsed, used, options, found, text, readRaw, hparse,
                hresolve, (Except.ok.inj ready).symm⟩
  · rintro ⟨location, content, raw, parsed, used, options, found, text, readRaw, hparse, hresolve,
      rfl⟩
    simp only [setUp, found, text, readRaw, hparse, hresolve, Except.map]

/-- Reading the configuration leaves the host as it is. -/
theorem parseConfig_scanning {loader : ResourceLoader} {raw : Json} {base : Path} {h used : Host}
    {parsed : ParsedConfig} :
    (Collaborators.scanning loader).checker.parseConfig raw base h = (.ok parsed, used) ↔
      Scanning.readConfig raw base h = .ok parsed ∧ used = h := by
  show ((Scanning.readConfig raw base h).mapError HostError.config, h) = (.ok parsed, used) ↔ _
  cases Scanning.readConfig raw base h <;> simp [Except.mapError, eq_comm]

/-- Setting up a build gives an orchestrator of a new host, at the base path of its options, whose
overrides are at normal paths. Seen from an absolute normal directory, the base path is absolute and
the directory of generated files normal. -/
theorem exists_ofHost_of_setUp {loader : ResourceLoader} {given : UserOptions} {cwd : Path}
    {files : FileSystem} {o : Orchestrator} (h : setUp (.scanning loader) given cwd files = .ok o) :
    ∃ options, o = ofHost (.scanning loader) options (.ofFiles files options.basePath) ∧
      (∀ e ∈ options.overrides.entries, e.1.IsNormal) ∧
      (cwd.isAbsolute = true → cwd.IsNormal →
        options.basePath.isAbsolute = true ∧ options.genDir.IsNormal) := by
  obtain ⟨location, -, raw, parsed, used, options, found, -, -, hparse, hresolve, rfl⟩ :=
    setUp_eq_ok_iff.mp h
  obtain ⟨-, rfl⟩ := parseConfig_scanning.mp hparse
  obtain ⟨filter, resolved⟩ := BuildOptions.exists_resolvedBy hresolve
  refine ⟨options, by rw [resolved.basePath], BuildOptions.isNormal_of_mem_overrides hresolve,
    fun absolute normal => ?_⟩
  have base := ConfigLocation.anchored_basePath_of_find absolute found fun _ => normal
  rw [resolved.basePath, resolved.genDir]
  exact ⟨base.absolute, (BuildOptions.anchored_genDirOf base parsed.codegen).normal⟩

/-- Creating a program leaves the host as the checker leaves it. -/
theorem host_create (ps : Programs) (checker : TypeChecker) (roots : List Path)
    (options : CompilerOptions) (h : Host) : (ps.create checker roots options h).2.2 =
      (checker.createProgram roots options ps.current h).2 := by
  unfold Programs.create
  rcases checker.createProgram roots options ps.current h with ⟨result, after⟩
  cases result <;> rfl

/-- Looking for the entry module reads at most the main file. -/
theorem host_findEntry (o : BuildOptions) (h : Host) :
    ∃ ps, (findEntry o h).2 = h.retainAll ps := by
  unfold findEntry
  split
  · exact ⟨[], rfl⟩
  next main _ _ => exact ⟨[main], rfl⟩
  · exact ⟨[], rfl⟩

theorem uses_writeOverrides (h : Host) (overrides : PathMap String) :
    h.Uses (writeOverrides h overrides) := by
  unfold writeOverrides
  induction overrides.entries generalizing h with
  | nil => exact .refl
  | cons e es ih => exact (Host.Uses.refl.write e.1 e.2 false).trans (ih _)

/-- The host of a new orchestrator: overrides are written, a program is created, caching is turned
on, and the entry module is looked for. -/
theorem exists_host_ofHost (c : Collaborators) (o : BuildOptions) (h : Host) :
    ∃ ps, (ofHost c o h).host = ((c.checker.createProgram o.roots o.compiler none
      (writeOverrides h o.overrides)).2.mapCache SourceCache.enableCaching).retainAll ps := by
  have created : (Programs.empty.create c.checker o.roots o.compiler
      (writeOverrides h o.overrides)).2.2 = (c.checker.createProgram o.roots o.compiler none
        (writeOverrides h o.overrides)).2 := host_create ..
  rw [← created]
  exact host_findEntry o _

theorem reported_queueAll (o : Orchestrator) {ps : List Path} {p : Path} (hp : p ∈ ps) :
    (o.queueAll ps).Reported p := by
  -- the queue may hold another spelling of the path
  have there : OrderedMap.contains (OrderedSet.insertAll o.queue.pending ps) p = true :=
    (OrderedSet.contains_insertAll _ _ _).mpr (.inr ⟨p, hp, rfl⟩)
  obtain ⟨q, hq, hsame⟩ := OrderedMap.exists_mem_keys there
  exact ⟨q, hq, Path.Same.normalize_eq hsame⟩

/-- What can become of an orchestrator, and the paths that were edited and that no cycle has taken up
yet. Cycles begin only once all of these were reported, unless they are refused at once. -/
inductive Run (c : Collaborators) (start : Orchestrator) : List Path → Orchestrator → Prop where
  | start : Run c start [] start
  | edit {edited : List Path} {o : Orchestrator} (p : Path) (files : FileSystem) :
      Run c start edited o → FileSystem.EditedAt p o.host.cache.files files →
      Run c start (p :: edited) (o.mapHost (·.mapFiles fun _ => files))
  | report {edited : List Path} {o : Orchestrator} (ps : List Path) :
      Run c start edited o → Run c start edited (o.queueAll ps)
  | attach {edited : List Path} {o : Orchestrator} (r : Registry) :
      Run c start edited o → Run c start edited (o.attach r)
  | onInvalid {edited : List Path} {o : Orchestrator} :
      Run c start edited o → Run c start edited o.onInvalid
  | diagnose {edited : List Path} {o : Orchestrator} (path : Path) (s : Session) :
      Run c start edited o → Run c start edited (o.diagnose c path s).1
  | make {edited : List Path} {o : Orchestrator} (s : Session) :
      Run c start edited o → s.bound = false → (∀ p ∈ edited, o.Reported p) →
      Run c start [] (o.make c s).orchestrator
  | refuse {edited : List Path} {o : Orchestrator} (s : Session) :
      Run c start edited o → s.bound = true → Run c start edited (o.make c s).orchestrator

variable {c : Collaborators} {start o : Orchestrator} {edited : List Path}

/-- Diagnosing marks files and does no more. -/
theorem diagnose_eq (c : Collaborators) (path : Path) (s : Session) (o : Orchestrator) :
    ∃ diagnosed, (o.diagnose c path s).1 = { o with diagnosed } := by
  unfold diagnose
  dsimp only
  split
  · exact ⟨_, rfl⟩
  · split
    · exact ⟨_, rfl⟩
    · split
      · exact ⟨_, rfl⟩
      · exact ⟨_, rfl⟩

/-- What holds of the host at the start, and is kept by edits and by taking up what was reported as
well as by the collaborators, holds after every run. -/
theorem Run.host_induction {Q : List Path → Host → Prop} (run : Run c start edited o)
    (keep : c.Keep start.options (Q [])) (clear : ∀ h, Q [] h → Q [] (h.mapCache .clearChanged))
    (first : Q [] start.host)
    (edit : ∀ edited h p files, Q edited h → FileSystem.EditedAt p h.cache.files files →
      Q (p :: edited) (h.mapFiles fun _ => files))
    (drain : ∀ edited (o : Orchestrator), Q edited o.host → (∀ p ∈ edited, o.Reported p) →
      Q [] o.drainedHost) :
    Q edited o.host ∧ o.options = start.options := by
  induction run with
  | start => exact ⟨first, rfl⟩
  | edit p files _ hedit ih => exact ⟨edit _ _ p files ih.1 hedit, ih.2⟩
  | report ps _ ih => exact ih
  | attach r _ ih => exact ih
  | onInvalid _ ih => exact ih
  | @diagnose _ o path s _ ih =>
    obtain ⟨diagnosed, heq⟩ := diagnose_eq c path s o
    rw [heq]
    exact ih
  | @make _ o s _ hs reported ih =>
    obtain ⟨hQ, hoptions⟩ := ih
    exact ⟨Cycle.make_host (hoptions ▸ keep) clear hs (drain _ o hQ reported),
      (Cycle.options_make c o s).trans hoptions⟩
  | refuse s _ hs ih =>
    rw [Cycle.make_of_bound _ hs]
    exact ih

/-- The orchestrator once a file held in memory was written and reported. -/
def rewritten (o : Orchestrator) (m : MemoryFiles) (p : Path) (content : String) : Orchestrator :=
  (o.mapHost (·.mapFiles fun _ => .memory (m.insert p content))).queueAll [p]

/-- A build without code generation of one main file. -/
def plainOptions : BuildOptions where
  tsConfigPath := ⟨"/p/tsconfig.json"⟩
  basePath := ⟨"/p"⟩
  roots := [⟨"/p/main.ts"⟩]
  compiler := .empty
  codegen := .empty
  genDir := ⟨"/p/gen"⟩
  skipCodeGeneration := true
  typeChecking := true
  i18n := ⟨none, none, none⟩
  entryModule := none
  mainPath := none
  overrides := .empty

end Orchestrator

end Precompile
