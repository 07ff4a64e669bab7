import Precompile.Proofs.Build.Touching
import Precompile.Proofs.Factory.Surroundings

/-!
# Published routes and their factories

A route is published as one to the factory of the file that it leads to, whether there is such a
factory or not. The search for routes starts at all files of the program. The generator starts only
at those that may get a factory themselves, and so it passes over the routes of declaration files,
unless an import or a route leads to these. A published factory is there exactly if the generator
visits its source, and the generator does visit what the routes of a visited file lead to
(`Orchestrator.published_factory_iff`). For a route of a declaration file there may be none
(`Orchestrator.declaration_route_without_factory`).
-/

namespace Precompile

open Factory (factorySources getsFactory placeOf visitedFiles)

variable {loader : ResourceLoader} {options : BuildOptions}

/-- A text that is served where the file system has none was written. -/
theorem SourceCache.exists_written_of_serve {c : SourceCache} (sound : c.Sound []) {p : Path}
    (normal : p.IsNormal) (absent : ∀ content, c.files.read p ≠ .ok content) {served : String}
    (hserve : c.serve p = .ok served) : ∃ w ∈ c.writtenFiles, w.path = p := by
  have settled : p.normalize = p := normal
  have written : (c.unread.entries.get? p).isSome = true := by
    rw [← serve_unread sound, serve, settled] at hserve
    cases held : c.unread.entries.get? p with
    | some e => rfl
    | none =>
      rw [held] at hserve
      exact absurd hserve (absent served)
  obtain ⟨w, hw, same⟩ := isSome_get?_unread_iff.mp written
  exact ⟨w, hw, ((mem_writtenFiles_iff_get? sound.normal).mp hw).1.eq_of_same normal same⟩

/-- Scripts that were written and are no output are files of the program. -/
theorem Scanning.contains_of_written {roots : List Path} {compiler : CompilerOptions} {h : Host}
    {P : Program} (hP : (createProgram roots compiler none h).1 = .ok P) (sound : h.cache.Sound [])
    (virtual : h.cache.Virtual) {w : WrittenFile} (hw : w ∈ h.cache.writtenFiles)
    (script : isScript w.path = true) : P.contains w.path = true := by
  have held := SourceCache.mem_writtenFiles_iff.mp hw
  have normal : w.path.IsNormal := sound.normal (w.path, ⟨w.content, .written w.emit⟩) held
  have settled : w.path.normalize = w.path := normal
  have unseen : w ∈ h.virtualModules := by
    unfold Host.virtualModules
    refine List.mem_filter.mpr ⟨hw, ?_⟩
    by_contra emitted
    have hemit : w.emit = true := by simpa using emitted
    rw [hemit] at held
    exact virtual _ held rfl
  have starts : w.path ∈ startingPaths roots h := by
    unfold startingPaths
    have listed : w.path ∈ h.virtualModules.map WrittenFile.path := List.mem_map_of_mem unseen
    have scripts := List.mem_filter.mpr ⟨listed, script⟩
    exact List.mem_map.mpr ⟨w.path, List.mem_append_right roots scripts, settled⟩
  have reaches : Reaches roots h w.path := .start starts
  have hsource : h.source w.path = .ok (some ⟨w.path, w.content⟩) := by
    have hget : h.cache.entries.get? w.path = some ⟨w.content, .written w.emit⟩ :=
      OrderedMap.get?_eq_some_iff.mpr ⟨w.path, held, rfl⟩
    refine Host.source_eq_some_iff.mpr ⟨settled.symm, ?_⟩
    rw [SourceCache.serve, settled, hget]
  obtain ⟨content, hmem⟩ := OrderedMap.mem_keys.mp ((mem_paths_iff hP).mpr ⟨reaches, _, hsource⟩)
  exact OrderedMap.contains_of_mem (e := (w.path, content)) hmem

namespace Regenerates

variable {h after : Host} {P : Program}

/-- Each source has a factory that is served. If there is nothing else at its place, it was
written. -/
theorem exists_written (regenerated : Regenerates options loader h after P)
    (sound : h.cache.Sound []) {f : SourceFile} (hf : f ∈ factorySources options h)
    (absent : ∀ content, h.cache.files.read (placeOf options f) ≠ .ok content) :
    ∃ w ∈ after.cache.writtenFiles, w.path = placeOf options f := by
  obtain ⟨input, ps, hinput, hgenerate⟩ := regenerated.generated
  have serves := Factory.serves_generate hgenerate
    ((Factory.mem_reachedFiles_retainAll sound hinput ps).mpr hf)
  obtain ⟨served, hserve⟩ := Factory.serves_iff.mp serves
  rw [← regenerated.uses.files_eq] at absent
  exact SourceCache.exists_written_of_serve (regenerated.uses.sound sound)
    (Factory.isNormal_placeOf options f) absent hserve

example : placeOf Orchestrator.generatingOptions ⟨⟨"/a/e.ts"⟩, ""⟩ = ⟨"/g/a/e.ngfactory.ts"⟩ := by
  decide +kernel

section Surroundings

variable (regenerated : Regenerates options loader h after P) (sound : h.cache.Sound [])
  (absolute : options.basePath.isAbsolute = true) (normal : options.genDir.IsNormal)
  (below : ∀ f ∈ factorySources options h, options.basePath.Below f.path)

include regenerated sound absolute normal below

/-- A regenerated host has the factories of its sources below the directory of generated files, and
is otherwise as it was. -/
theorem exists_leaves : ∃ ps fs, (∀ f, f ∈ fs ↔ f ∈ factorySources options h) ∧
    Factory.Leaves options fs (h.retainAll ps) after := by
  obtain ⟨input, ps, hinput, hgenerate⟩ := regenerated.generated
  have same := fun f => Factory.mem_reachedFiles_retainAll (f := f) sound hinput ps
  have placed : Factory.WellPlaced options input (h.retainAll ps) :=
    ⟨absolute, normal, fun p hp => ((Scanning.mem_paths_iff hinput).mp hp).1.isNormal,
      (sound.retainAll ps).normal, fun f hf => below f ((same f).mp hf)⟩
  exact ⟨ps, _, same, Factory.leaves_of_generate placed hgenerate⟩

theorem agreesOutside : after.AgreesOutside options.genDir h := by
  obtain ⟨ps, fs, -, leaves⟩ := regenerated.exists_leaves sound absolute normal below
  refine Host.agreesOutside_of_written (regenerated.uses.sound sound) sound
    regenerated.uses.base_eq regenerated.uses.files_eq fun w hw => ?_
  rw [leaves.untouched w hw, h.writtenFiles_retainAll]

/-- A script that has a factory is a source. -/
theorem mem_of_written {f : SourceFile} (hsource : h.source f.path = .ok (some f))
    (covers : Factory.Covers (Cycle.planOf options) f.path) {w : WrittenFile}
    (hw : w ∈ after.cache.writtenFiles) (place : w.path = placeOf options f) :
    f ∈ factorySources options h := by
  have hplan : (Cycle.planOf options).base.isAbsolute = true := absolute
  have hbelow : options.genDir.Below w.path :=
    place ▸ Factory.below_factoryPath hplan normal covers
  obtain ⟨ps, fs, sources, leaves⟩ := regenerated.exists_leaves sound absolute normal below
  obtain ⟨g, hg, hplace⟩ := leaves.generated w hw hbelow
  have hg := (sources g).mp hg
  -- only one source has this place
  have same : f.path = g.path :=
    Factory.factoryPath_injective hplan covers (Factory.covers_of_mem hg (below g hg))
      (congrArg Path.components (place.symm.trans hplace))
  have hsource' := (Factory.source_of_mem hg).2.1
  rw [← same, hsource] at hsource'
  exact Option.some.inj (Except.ok.inj hsource') ▸ hg

/-- What a route of a visited file leads to is visited, if it was there already. -/
theorem mem_visitedFiles_of_route {f g : SourceFile} (hg : g ∈ visitedFiles options h) {key : String}
    {t : Path} (hkey : (Route.ofFile after g).get? key = some (some t))
    (hsource : h.source t = .ok (some f)) (elsewhere : ¬ options.genDir.Below f.path) :
    f ∈ visitedFiles options h := by
  have agrees := regenerated.agreesOutside sound absolute normal below
  obtain ⟨hpath, -⟩ := Host.source_eq_some_iff.mp hsource
  obtain ⟨input, ps, hinput, -⟩ := regenerated.generated
  rw [Factory.mem_visitedFiles sound hinput] at hg ⊢
  obtain ⟨p, hp, hread⟩ := hg
  have next : t ∈ Route.successors h g := List.mem_append_left _
    (Route.mem_resolved_iff.mpr ⟨key, agrees.get?_ofFile hkey (hpath ▸ elsewhere)⟩)
  have visits : Route.visit h p = .ok (some g) :=
    congrArg Except.ok (Route.readable?_eq_some_iff.mpr hread)
  exact ⟨t, hp.next visits next, hsource⟩

end Surroundings

end Regenerates

namespace Cycle

/-- Each pass is one over the routes of some files. -/
theorem exists_ofFiles_of_passes {cycle : Cycle}
    (origin : ∀ found, cycle.stage.found? = some found → ∃ h fs, found = Route.ofFiles h fs) :
    ∀ found ∈ passes (.scanning loader) cycle, ∃ h fs, found = Route.ofFiles h fs := by
  fun_induction run (.scanning loader) cycle with
  | case2 cycle ended =>
    rw [passes_of_ended ended]
    simp
  | case1 cycle going _ ih =>
    rw [passes_of_going going]
    intro found hfound
    rcases List.mem_append.mp hfound with hfound | hfound
    · exact origin found (Option.mem_toList.mp hfound)
    · refine ih (fun found hnext => ?_) found hfound
      have steps := steps_step (c := .scanning loader) cycle
      generalize step (.scanning loader) cycle = next at steps hnext
      cases steps with
      | discoverAll => exact ⟨_, _, (Option.some.inj hnext).symm⟩
      | discoverChanged => exact ⟨_, _, (Option.some.inj hnext).symm⟩
      | invalidate =>
        rw [stage_goTo] at hnext
        split at hnext <;> cases hnext
      | build =>
        rw [stage_goTo, checkStage] at hnext
        split at hnext <;> cases hnext
      | _ => cases hnext

/-- What a pass found is written in the normal way, but for one path. -/
theorem isNormal_of_passes {o : Orchestrator} {s : Session} (unbound : s.bound = false)
    {found : RouteMap} (hfound : found ∈ passes (.scanning loader) (begin o s)) {key : String}
    {t : Path} (leads : found.get? key = some (some t)) : t.IsNormal ∨ t = ⟨"//index.ts"⟩ := by
  have hbegin : (begin o s).stage.found? = none := by
    rw [begin_of_unbound o unbound, stage_goTo]
    rfl
  obtain ⟨h, fs, rfl⟩ := exists_ofFiles_of_passes (by simp [hbegin]) found hfound
  rw [Route.get?_ofFiles] at leads
  obtain ⟨f, -, hf⟩ := List.mem_filterMap.mp (List.mem_of_getLast? leads)
  obtain ⟨specifier, resolved⟩ := Route.exists_resolve?_of_get? hf
  exact Host.isNormal_of_resolve? resolved

/-- What a pass found is published as a route to a factory. -/
theorem get?_routes_of_passes {c : Collaborators} {o : Orchestrator} {s : Session} {found : RouteMap}
    (generates : o.options.skipCodeGeneration = false) (hfound : found ∈ passes c (begin o s))
    {key : String} {t : Path} (leads : found.get? key = some (some t)) :
    (o.make c s).orchestrator.routes.get? (key ++ FactoryPlan.mark) =
      some (some ((planOf o.options).factoryPath t)) := by
  have told := told_make c o s
  rcases passes_make c o s with ⟨found', hpass, -⟩ | ⟨hnone, -⟩
  · rw [hpass] at hfound told
    obtain rfl := List.mem_singleton.mp hfound
    have routes : (o.make c s).orchestrator.routes =
        o.routes.merge ((planOf o.options).apply found) := congrArg Prod.fst told
    have applied : ((planOf o.options).apply found).get? (key ++ FactoryPlan.mark) =
        some (some ((planOf o.options).factoryPath t)) := by
      rw [FactoryPlan.get?_apply_eq_some_iff, if_neg (by simp [planOf, generates])]
      exact ⟨key, some t, leads, rfl, rfl⟩
    rw [routes, RouteMap.get?_merge, applied]
    rfl
  · rw [hnone] at hfound
    cases hfound

end Cycle

namespace Orchestrator

/-- A path leads to a file that is there: the host serves it, and the current program contains it. -/
def Delivers (o : Orchestrator) (p : Path) : Prop :=
  Factory.Serves o.host p ∧ ∃ P, o.programs.current = some P ∧ P.contains p = true

/-- A script that is not on disk is there exactly if it was written. -/
theorem delivers_iff {o : Orchestrator} {P : Program} (current : o.programs.current = some P)
    (created : (Scanning.createProgram options.roots options.compiler none o.host).1 = .ok P)
    (sound : o.host.cache.Sound []) (virtual : o.host.cache.Virtual) {p : Path} (normal : p.IsNormal)
    (script : Scanning.isScript p = true)
    (absent : ∀ content, o.host.cache.files.read p ≠ .ok content) :
    o.Delivers p ↔ ∃ w ∈ o.host.cache.writtenFiles, w.path = p := by
  constructor
  · rintro ⟨serves, -⟩
    obtain ⟨served, hserve⟩ := Factory.serves_iff.mp serves
    exact SourceCache.exists_written_of_serve sound normal absent hserve
  · rintro ⟨w, hw, rfl⟩
    have settled : w.path.normalize = w.path := normal
    have held := ((SourceCache.mem_writtenFiles_iff_get? sound.normal).mp hw).2
    refine ⟨Factory.serves_iff.mpr ⟨w.content, ?_⟩, P, current,
      Scanning.contains_of_written created sound virtual hw script⟩
    rw [← SourceCache.serve_unread sound, SourceCache.serve, settled, held]

/-- After a cycle with code generation that succeeds, the current program is that of its host. -/
theorem exists_regenerated_of_make {o : Orchestrator} {s : Session} (unbound : s.bound = false)
    (hoptions : o.options = options) (upkeep : Upkeep options [] o.programs o.drainedHost)
    (generates : options.skipCodeGeneration = false)
    (succeeded : (o.make (.scanning loader) s).stage.outcome? = some .succeeded) :
    let made := (o.make (.scanning loader) s).orchestrator
    ∃ after P, Regenerates options loader o.drainedHost after P ∧
      made.programs.current = some P ∧ made.host.unread = after.unread ∧
      (Scanning.createProgram options.roots options.compiler none made.host).1 = .ok P := by
  intro made
  obtain ⟨-, kept⟩ : (o.make (.scanning loader) s).Kept options :=
    upkeep_make unbound hoptions upkeep
  obtain ⟨after, P, regenerated, current, written⟩ :=
    regenerates_of_make unbound hoptions upkeep generates succeeded
  have unread : made.host.unread = after.unread := by
    simp only [Host.unread, made, written, kept.base_eq, regenerated.uses.base_eq, upkeep.base_eq]
  refine ⟨after, P, regenerated, current, unread, ?_⟩
  rw [Scanning.createProgram_unread kept.sound, unread, regenerated.created]

/-- In a cycle that succeeds, a route that leads to a decorated script below the base path is
published as one to the factory of that script. If nothing else lies at the place of that factory,
it is served and belongs to the program exactly if the generator visited the script. It did so if it
visited a file with such a route. -/
theorem published_factory_iff {files : FileSystem} {edited : List Path} {o : Orchestrator}
    {s : Session} (generates : options.skipCodeGeneration = false)
    (absolute : options.basePath.isAbsolute = true) (normal : options.genDir.IsNormal)
    (run : Run (.scanning loader)
      (ofHost (.scanning loader) options (.ofFiles files options.basePath)) edited o)
    (unbound : s.bound = false) (reported : ∀ p ∈ edited, o.Reported p)
    (succeeded : (o.make (.scanning loader) s).stage.outcome? = some .succeeded)
    {found : RouteMap} (hfound : found ∈ Cycle.passes (.scanning loader) (Cycle.begin o s))
    {key : String} {t : Path} (leads : found.get? key = some (some t)) {f : SourceFile}
    (there : (o.make (.scanning loader) s).orchestrator.host.source t = .ok (some f))
    (inBase : options.basePath.Below t) (gets : getsFactory options f = true)
    (absent : ∀ content, o.host.cache.files.read (placeOf options f) ≠ .ok content) :
    let made := (o.make (.scanning loader) s).orchestrator
    made.routes.get? (key ++ FactoryPlan.mark) = some (some (placeOf options f)) ∧
      (f ∈ visitedFiles options o.drainedHost → made.Delivers (placeOf options f)) ∧
      ((∀ g ∈ factorySources options o.drainedHost, options.basePath.Below g.path) →
        (made.Delivers (placeOf options f) → f ∈ visitedFiles options o.drainedHost) ∧
        ∀ g ∈ visitedFiles options o.drainedHost,
          (Route.ofFile made.host g).get? key = some (some t) →
            f ∈ visitedFiles options o.drainedHost) := by
  intro made
  obtain ⟨hoptions, upkept⟩ := run.upkeep
  have upkeep : Upkeep options [] o.programs o.drainedHost := upkeep_drainedHost upkept reported
  obtain ⟨-, kept⟩ : (o.make (.scanning loader) s).Kept options :=
    upkeep_make unbound hoptions upkeep
  obtain ⟨after, P, regenerated, current, unread, created⟩ :=
    exists_regenerated_of_make unbound hoptions upkeep generates succeeded
  have written : made.host.cache.writtenFiles = after.cache.writtenFiles :=
    SourceCache.writtenFiles_of_unread_eq (congrArg Host.cache unread)
  -- the script at the target, and the place of its factory
  obtain ⟨hpath, -⟩ := Host.source_eq_some_iff.mp there
  have spelled := Cycle.isNormal_of_passes unbound hfound leads
  have same : t.Same f.path := by
    rw [hpath]
    rcases spelled with tnormal | rfl
    · exact congrArg Path.components tnormal.symm
    · decide +kernel
  have hplan : (Cycle.planOf options).base.isAbsolute = true := absolute
  have place : (Cycle.planOf options).factoryPath t = placeOf options f := by
    rw [placeOf, hpath]
    exact (Factory.factoryPath_normalize hplan spelled inBase).symm
  have input : Factory.isInput options f.path = true := by
    simp only [getsFactory, Bool.and_eq_true] at gets
    exact gets.1
  have covers : Factory.Covers (Cycle.planOf options) f.path := by
    simp only [Factory.isInput, Bool.and_eq_true, Bool.not_eq_true'] at input
    exact ⟨hpath ▸ Path.isNormal_normalize t, inBase.congr same, input.1.1, input.1.2⟩
  have delivers : made.Delivers (placeOf options f) ↔
      ∃ w ∈ after.cache.writtenFiles, w.path = placeOf options f := by
    have placed := Factory.isNormal_placeOf options f
    have marked : Factory.IsMarked (placeOf options f) := Factory.isMarked_factoryPath hplan covers
    rw [← written]
    refine delivers_iff current created kept.sound kept.virtual placed (marked.isScript placed) ?_
    rwa [show made.host.cache.files = o.host.cache.files from
      Cycle.files_make (Collaborators.careful_scanning loader) o s]
  have source_iff : f ∈ factorySources options o.drainedHost ↔
      f ∈ visitedFiles options o.drainedHost := by
    rw [Factory.factorySources_eq_filter, List.mem_filter]
    exact and_iff_left gets
  refine ⟨?_, fun visited => ?_, fun below => ?_⟩
  · have routes := Cycle.get?_routes_of_passes (hoptions ▸ generates) hfound leads
    rwa [hoptions, place] at routes
  · refine delivers.mpr (regenerated.exists_written upkeep.sound (source_iff.mpr visited) ?_)
    rwa [o.uses_drainedHost.files_eq]
  · have elsewhere := Factory.not_below_of_isInput input
    have agrees := (regenerated.agreesOutside upkeep.sound absolute normal below).of_unread_eq
      (regenerated.uses.sound upkeep.sound) kept.sound unread
    have before : o.drainedHost.source t = .ok (some f) := by
      rw [← agrees.source_eq (hpath ▸ elsewhere), there]
    constructor
    · intro delivered
      obtain ⟨w, hw, hplace⟩ := delivers.mp delivered
      exact source_iff.mp (regenerated.mem_of_written upkeep.sound absolute normal below
        (o.drainedHost.source_same same ▸ before) covers hw hplace)
    · intro g hg hkey
      rw [Cycle.ofFile_congr kept.sound (regenerated.uses.sound upkeep.sound)
        (congrArg Host.base unread :) (congrArg Host.cache unread :)] at hkey
      exact regenerated.mem_visitedFiles_of_route upkeep.sound absolute normal below hg hkey before
        elsewhere

/-- The module of the route in the main file has its factory. -/
theorem published_factory_of_module :
    routed.orchestrator.routes.get? "./e.ngfactory" = some (some ⟨"/g/e.ngfactory.ts"⟩) ∧
      routed.orchestrator.Delivers ⟨"/g/e.ngfactory.ts"⟩ := by
  let module : SourceFile := ⟨⟨"/e.ts"⟩, "@NgModule()class E"⟩
  have files : (generating routedFiles).host.cache.files = .memory routedFiles := files_ofHost _ _ _ rfl
  obtain ⟨passes, succeeded, there, visited⟩ :
      (Cycle.passes (.scanning .ofFiles) (Cycle.begin (generating routedFiles) .fresh)).map
          (·.get? "./e") = [some (some ⟨"/e.ts"⟩)] ∧
        routed.stage.outcome? = some .succeeded ∧
        (routed.orchestrator.host.source ⟨"/e.ts"⟩).toOption = some (some module) ∧
        module ∈ visitedFiles generatingOptions (generating routedFiles).drainedHost := by
    decide +kernel
  obtain ⟨found, hfound, leads⟩ := List.mem_map.mp (passes ▸ List.mem_singleton_self _)
  have source := eq_ok_of_toOption there
  have place : placeOf generatingOptions module = ⟨"/g/e.ngfactory.ts"⟩ := by decide +kernel
  have absent : ∀ content, (generating routedFiles).host.cache.files.read
      (placeOf generatingOptions module) ≠ .ok content := by
    have nothing : ((FileSystem.memory routedFiles).read
        (placeOf generatingOptions module)).toOption = none := by decide +kernel
    intro content hread
    rw [← files, hread] at nothing
    cases nothing
  have generates : generatingOptions.skipCodeGeneration = false := rfl
  obtain ⟨routes, delivers, -⟩ := published_factory_iff generates
    (by decide +kernel) (by decide +kernel) .start rfl (List.forall_mem_nil _) succeeded hfound leads
    source (by decide +kernel) (by decide +kernel) absent
  exact place ▸ ⟨routes, delivers visited⟩

/-- A build of a declaration file. -/
def declaringOptions : BuildOptions := { generatingOptions with roots := [⟨"/m.d.ts"⟩] }

/-- A declaration file with a route to a module. -/
def declaringFiles : MemoryFiles :=
  (MemoryFiles.empty.insert ⟨"/m.d.ts"⟩ "loadChildren:'./e'").insert ⟨"/e.ts"⟩ "@NgModule()class E"

/-- The build of these files. -/
def declaring : Orchestrator :=
  ofHost (.scanning .ofFiles) declaringOptions
    (.ofFiles (.memory declaringFiles) declaringOptions.basePath)

/-- The first cycle finds the route and publishes it, but the generator does not visit the module. -/
theorem declaration_route_without_factory :
    let first := declaring.make (.scanning .ofFiles) .fresh
    let module : SourceFile := ⟨⟨"/e.ts"⟩, "@NgModule()class E"⟩
    first.stage.outcome? = some .succeeded ∧
      (Cycle.passes (.scanning .ofFiles) (Cycle.begin declaring .fresh)).map (·.get? "./e") =
        [some (some module.path)] ∧
      (first.orchestrator.host.source module.path).toOption = some (some module) ∧
      declaringOptions.basePath.Below module.path ∧ getsFactory declaringOptions module = true ∧
      first.orchestrator.routes.get? "./e.ngfactory" = some (some ⟨"/g/e.ngfactory.ts"⟩) ∧
      (first.orchestrator.host.read ⟨"/g/e.ngfactory.ts"⟩).toOption = some none ∧
      first.orchestrator.programs.current.map (·.contains ⟨"/g/e.ngfactory.ts"⟩) = some false := by
  decide +kernel

end Orchestrator

end Precompile
