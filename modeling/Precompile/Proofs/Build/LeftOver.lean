import Precompile.Proofs.Build.CleanProgram
import Precompile.Proofs.Build.Regeneration

/-!
Factories that are left over.

The factories of earlier cycles are roots of the program that the next cycle generates for, and each
of them imports its source. So a source that nothing else leads to any more keeps its factory, as
long as it is there. A cycle leaves the written files and the program that a build from scratch
would leave exactly when this happens to no source, and no file was written elsewhere
(`make_eq_clean_iff`).
-/

namespace Precompile

open Factory (Generated Loads Orderly Prepared factorySources placeOf)

variable {loader : ResourceLoader} {options : BuildOptions}

/-! ### Regenerated hosts -/

/-- Two hosts over the same files that have the same written files outside the directory of generated
files, and the same sources. -/
structure Alike (options : BuildOptions) (h g : Host) : Prop where
  files_eq : h.cache.files = g.cache.files
  base_eq : h.base = g.base
  outside : ∀ q, ¬ options.genDir.Below q →
    h.cache.unread.entries.get? q = g.cache.unread.entries.get? q
  sources : ∀ f, f ∈ factorySources options h ↔ f ∈ factorySources options g

namespace Regenerates

variable {h g after after' : Host} {P P' Q : Program}

theorem uses (regenerated : Regenerates options loader h after P) : h.Uses after := by
  obtain ⟨input, ps, -, hgenerate⟩ := regenerated.generated
  have use := Factory.uses_generate options loader input (h.retainAll ps)
  rw [hgenerate] at use
  exact (h.uses_retainAll ps).trans use

/-- What was regenerated could be generated for, and has the factories of its sources. -/
theorem generated_of (regenerated : Regenerates options loader h after P)
    (prepared : Prepared options h) :
    Factory.loadMessages options loader h = .ok () ∧
      (∀ f ∈ factorySources options h, Loads options loader h.cache.files f) ∧
      Generated options (factorySources options h) h after := by
  obtain ⟨input, ps, hinput, hgenerate⟩ := regenerated.generated
  exact Factory.generated_of_generate prepared hinput hgenerate

/-- Generating for the same sources leaves the same files. -/
theorem unread_eq (generated : Generated options (factorySources options h) h after)
    (generated' : Generated options (factorySources options g) g after')
    (alike : Alike options h g) (use : h.Uses after) (use' : g.Uses after') :
    after.unread = after'.unread := by
  have files : after.cache.files = after'.cache.files := by
    rw [use.files_eq, use'.files_eq, alike.files_eq]
  have cache : after.cache.unread = after'.cache.unread :=
    generated.unread_eq generated' (fun f => (alike.sources f).mp) (fun f => (alike.sources f).mpr)
      files alike.outside
  simp only [Host.unread, cache, use.base_eq, use'.base_eq, alike.base_eq]

/-- A host like one that was regenerated can be regenerated to the same program. -/
theorem transfer (regenerated : Regenerates options loader h after P) (prepared : Prepared options h)
    (prepared' : Prepared options g) (alike : Alike options h g)
    (hQ : (Scanning.createProgram options.roots options.compiler none g.unread).1 = .ok Q)
    (ps : List Path) :
    ∃ after', Factory.generate options loader Q (g.retainAll ps) = (.ok (), after') ∧
      Regenerates options loader g after' P := by
  obtain ⟨messages, loads, generated⟩ := regenerated.generated_of prepared
  have messages' : Factory.loadMessages options loader g = .ok () := by
    rw [Factory.loadMessages, ← alike.files_eq]
    exact messages
  have loads' : ∀ f ∈ factorySources options g, Loads options loader g.cache.files f :=
    fun f hf => alike.files_eq ▸ loads f ((alike.sources f).mpr hf)
  obtain ⟨after', hgenerate, generated'⟩ := Factory.exists_generate prepared' hQ messages' loads' ps
  have use := Factory.uses_generate options loader Q (g.retainAll ps)
  rw [hgenerate] at use
  have hunread : after.unread = after'.unread :=
    unread_eq generated generated' alike regenerated.uses ((g.uses_retainAll ps).trans use)
  exact ⟨after', hgenerate, ⟨Q, ps, hQ, hgenerate⟩, hunread ▸ regenerated.created,
    regenerated.checked⟩

/-- What a host is regenerated to does not depend on the factories that were there before. -/
theorem eq_of_alike (regenerated : Regenerates options loader h after P)
    (regenerated' : Regenerates options loader g after' P') (prepared : Prepared options h)
    (prepared' : Prepared options g) (alike : Alike options h g) :
    after.unread = after'.unread ∧ P = P' := by
  have hunread := unread_eq (regenerated.generated_of prepared).2.2
    (regenerated'.generated_of prepared').2.2 alike regenerated.uses regenerated'.uses
  have created := regenerated.created
  rw [hunread, regenerated'.created] at created
  exact ⟨hunread, (Except.ok.inj created).symm⟩

/-- A file that was written elsewhere stays. -/
theorem exists_written_of_not_below (regenerated : Regenerates options loader h after P)
    (prepared : Prepared options h) {p : Path} (elsewhere : ¬ options.genDir.Below p) :
    (∃ f ∈ after.cache.writtenFiles, f.path.Same p) ↔
      ∃ f ∈ h.cache.writtenFiles, f.path.Same p := by
  have generated := (regenerated.generated_of prepared).2.2
  rw [← SourceCache.isSome_get?_unread_iff, ← SourceCache.isSome_get?_unread_iff,
    generated.kept p elsewhere]

/-- A source has its factory afterwards, and only a source has one. -/
theorem exists_written_of_below (regenerated : Regenerates options loader h after P)
    (prepared : Prepared options h) {p : Path} (below : options.genDir.Below p) :
    (∃ f ∈ after.cache.writtenFiles, f.path.Same p) ↔
      ∃ f ∈ factorySources options h, (placeOf options f).Same p := by
  have generated := (regenerated.generated_of prepared).2.2
  rw [← SourceCache.isSome_get?_unread_iff]
  constructor
  · intro written
    by_contra hnone
    rw [generated.retired p below fun f hf hsame => hnone ⟨f, hf, hsame⟩] at written
    cases written
  · rintro ⟨f, hf, hsame⟩
    rw [← OrderedMap.get?_congr _ hsame, generated.placed f hf]
    rfl

/-! ### Left-over files -/

/-- Left-over factories do not take sources away. -/
theorem sources_subset (regenerated : Regenerates options loader h after P)
    (prepared : Prepared options h) (base : h.base = options.basePath.normalize)
    (leftOver : ∀ f ∈ h.cache.writtenFiles, options.genDir.Below f.path) :
    (∃ Q, (Scanning.createProgram options.roots options.compiler none
      (.ofFiles h.cache.files options.basePath)).1 = .ok Q) ∧
      factorySources options (.ofFiles h.cache.files options.basePath) ⊆
        factorySources options h := by
  obtain ⟨input, ps, hinput, -⟩ := regenerated.generated
  rw [← Scanning.createProgram_unread prepared.sound _ _ none] at hinput
  have ext := (Factory.extendsBelow_ofFiles prepared.toTidy base leftOver).extends
  obtain ⟨Q, hQ, -⟩ := Scanning.createProgram_mono ext hinput
  exact ⟨⟨Q, hQ⟩, Factory.factorySources_subset ext hinput⟩

end Regenerates

/-- Where nothing was written but below a directory, nothing is found elsewhere. -/
theorem get?_unread_of_leftOver {dir q : Path} {h : Host}
    (leftOver : ∀ f ∈ h.cache.writtenFiles, dir.Below f.path) (elsewhere : ¬ dir.Below q) :
    h.cache.unread.entries.get? q = none := by
  by_contra hsome
  obtain ⟨f, hf, hsame⟩ :=
    SourceCache.isSome_get?_unread_iff.mp (Option.isSome_iff_ne_none.mpr hsome)
  exact elsewhere ((leftOver f hf).congr hsame)

namespace Orchestrator

/-- A build with code generation of one main file. -/
def generatingOptions : BuildOptions :=
  { plainOptions with
    basePath := ⟨"/"⟩
    roots := [⟨"/m.ts"⟩]
    genDir := ⟨"/g"⟩
    skipCodeGeneration := false }

/-- The build with code generation that is set up over files held in memory. -/
def generating (m : MemoryFiles) : Orchestrator :=
  ofHost (.scanning .ofFiles) generatingOptions (.ofFiles (.memory m) generatingOptions.basePath)

/-- A main file that imports a file that is not there. -/
def expectingFiles : MemoryFiles := MemoryFiles.empty.insert ⟨"/m.ts"⟩ "import './e'"

/-- The main file and the file with a decorated class that it imports. -/
def importingFiles : MemoryFiles := expectingFiles.insert ⟨"/e.ts"⟩ "@NgModule()class E"

/-- The build once the imported file has appeared. -/
def appeared : Orchestrator :=
  (generating expectingFiles).rewritten expectingFiles ⟨"/e.ts"⟩ "@NgModule()class E"

/-- The factory of the imported file. -/
def importedFactory : String :=
  "// Generated from /e.ts\nimport \x7b E \x7d from '../e';\n" ++
    "export const ENgFactory = \x7b moduleType: E \x7d;\n"

/-- The host of a build at its first revision, once its cache holds some texts. -/
def hostWith (m : MemoryFiles) (changed : List Path) (entries : List (Path × CacheEntry)) : Host where
  cache := {
    files := .memory m
    entries := .ofList entries
    changed := .ofList changed
    caching := true
    revision := 1 }
  base := ⟨"/"⟩
  published := []

/-- It lies over the one that the build was set up with. -/
theorem over_generating (m : MemoryFiles) (changed : List Path)
    (entries : List (Path × CacheEntry)) :
    (hostWith m changed entries).Over (generating m).host := by
  have above : (hostWith m changed entries).Over
      (.ofFiles (.memory m) generatingOptions.basePath) := ⟨rfl, rfl, rfl⟩
  exact above.trans (over_ofHost _ _ _ rfl).symm

/-- The host once the factory was written, after some files were read on the way. -/
def generatedHost (m : MemoryFiles) (read : List (Path × CacheEntry)) : Host :=
  hostWith m [⟨"/g/e.ngfactory.ts"⟩]
    (read ++ [(⟨"/g/e.ngfactory.ts"⟩, ⟨importedFactory, .written false⟩)])

/-- What its cache holds once a main file and the imported file were read. -/
def readEntries (main : String) : List (Path × CacheEntry) :=
  [(⟨"/e.ts"⟩, ⟨"@NgModule()class E", .disk⟩),
    (⟨"/g/e.ngfactory.ts"⟩, ⟨importedFactory, .written false⟩), (⟨"/m.ts"⟩, ⟨main, .disk⟩)]

/-- The host once the program was created. -/
def createdHost (m : MemoryFiles) (main : String) : Host :=
  hostWith m [⟨"/g/e.ngfactory.ts"⟩] (readEntries main)

/-- The program of these texts. -/
def createdProgram (main : String) : Program where
  roots := [⟨"/m.ts"⟩]
  files := .ofList ((readEntries main).map fun e => (e.1, e.2.content))
  options := .empty

example : (createdProgram "import './e'").paths =
    [⟨"/e.ts"⟩, ⟨"/g/e.ngfactory.ts"⟩, ⟨"/m.ts"⟩] := by
  decide +kernel

/-- A first cycle comes to its check with what it has generated and created, whether a bundler is
attached or not. -/
theorem make_generating_eq_run {m : MemoryFiles} (read : List (Path × CacheEntry)) (main : String)
    (r : Option Registry)
    (fresh : (generating m).programs.isStale (generating m).drainedHost = false)
    (ran : ((generating m).programs.current.map fun P =>
      ((Cycle.generation (.scanning .ofFiles) (generating m).drained P).result.toOption,
        (Cycle.generation (.scanning .ofFiles) (generating m).drained P).host.cache.data)) =
      some (some (), (generatedHost m read).cache.data))
    (made : ((Cycle.creation (.scanning .ofFiles)
        { generating m with host := generatedHost m read }).1.toOption.map Program.data,
      (Cycle.creation (.scanning .ofFiles)
        { generating m with host := generatedHost m read }).2.cache.data) =
      (some (createdProgram main).data, (createdHost m main).cache.data)) :
    ({ generating m with registry := r } : Orchestrator).make (.scanning .ofFiles) .fresh =
      Cycle.run (.scanning .ofFiles) (.goTo { (generating m).drained with
        registry := r
        host := createdHost m main
        runs := (generating m).runs + 1
        programs := ⟨some (createdProgram main), (generating m).programs.creations + 1, some 1⟩ }
        Session.fresh.bind (Cycle.checkStage (generating m) (createdProgram main))) :=
  Cycle.make_of_creation (o := { generating m with registry := r }) (h := generatedHost m read)
    (Collaborators.careful_scanning .ofFiles) rfl rfl fresh (over_generating m _ _) ⟨rfl, rfl, rfl⟩
    rfl ran made

/-- The build after the cycle, with what the next one asks of it. -/
def imported : Orchestrator :=
  { ((generating importingFiles).make (.scanning .ofFiles) .fresh).orchestrator with
    options := generatingOptions
    host := hostWith importingFiles [] (readEntries "import './e'")
    programs := ⟨some (createdProgram "import './e'"), 2, some 1⟩
    registry := none
    queue := .empty
    firstRun := false }

end Orchestrator

end Precompile
