import Precompile.Proofs.Build.Published
import Precompile.Proofs.Factory.Rest
import Precompile.Proofs.Host.Handover

/-!
# Idle cycles

A cycle before which nothing was reported goes through all of its stages again. It finds nothing to do
if the current program is the one of the host, its factories are there and no others, and what was
written was handed on (`Orchestrator.AtRest`): each step reads at most (`Cycle.Steps.idles`), and so
does the whole cycle (`Cycle.idles_make`).

A first cycle leaves that state behind if its factories lead to nothing but their sources
(`Orchestrator.unmoved_of_idle`). The next program is larger than the one that was generated for,
since it has the factories in it, but the generator finds no further source
(`Factory.Inward.mem_factorySources_iff`). A factory with a route to another module leads it there
(`Orchestrator.idle_cycle_writes`).
-/

namespace Precompile

open Factory (factorySources placeOf factoryFile)

variable {loader : ResourceLoader} {options : BuildOptions} {P : Program}

/-! ### Rest -/

namespace Orchestrator

/-- There is nothing left to do: the current program is the one of the host and stands up to the
check, its factories are there, and what was written was handed on. -/
structure AtRest (loader : ResourceLoader) (options : BuildOptions) (P : Program)
    (o : Orchestrator) : Prop where
  options_eq : o.options = options
  upkeep : Upkeep options [] o.programs o.host
  current : o.programs.current = some P
  upToDate : o.programs.createdAt = some o.host.cache.revision
  checked : options.typeChecking = true → Scanning.globalDiagnostics P = []
  complete : options.skipCodeGeneration = false → Factory.IsComplete options loader P o.host
  handedOn : ∀ r, o.registry = some r → o.host.HandedOn r
  later : o.firstRun = false
  unchanged : o.host.cache.changed = .empty
  queue : o.queue = .empty

namespace AtRest

variable {o x : Orchestrator} {ps : List Path}

/-- A program that is created again is the current one. -/
theorem exists_creation_eq (rest : o.AtRest loader options P) (hoptions : x.options = options)
    (host : x.host = o.host.retainAll ps) :
    ∃ qs, Cycle.creation (.scanning loader) x = (.ok P, o.host.retainAll qs) := by
  obtain ⟨P', current, created⟩ := rest.upkeep.current rfl rest.upToDate
  obtain rfl : P = P' := Option.some.inj (rest.current.symm.trans current)
  obtain ⟨qs, hqs⟩ := Cycle.exists_creation loader x
  refine ⟨ps ++ qs, Prod.ext ?_ ?_⟩
  · have sound : x.host.cache.Sound [] := host ▸ rest.upkeep.sound.retainAll ps
    have unread : x.host.unread = o.host.unread := by rw [host, Host.unread_retainAll]
    show (Scanning.createProgram x.options.roots x.options.compiler x.programs.current x.host).1 = _
    rw [Scanning.createProgram_unread sound, unread, hoptions, created]
  · rw [hqs, host, Host.retainAll_retainAll]

/-- Generating again succeeds and only reads. -/
theorem exists_generation_eq (rest : o.AtRest loader options P) (hoptions : x.options = options)
    (host : x.host = o.host.retainAll ps) :
    ∃ qs, (Cycle.generation (.scanning loader) x P).result = .ok () ∧
      (Cycle.generation (.scanning loader) x P).host = o.host.retainAll qs := by
  unfold Cycle.generation CodeGenerator.run
  cases skip : x.options.skipCodeGeneration with
  | true => exact ⟨ps, rfl, host⟩
  | false =>
    obtain ⟨qs, hqs⟩ := rest.complete (hoptions ▸ skip) ps
    rw [← host, ← hoptions] at hqs
    refine ⟨ps ++ qs, congrArg Prod.fst hqs, ?_⟩
    rw [← Host.retainAll_retainAll, ← host]
    exact congrArg Prod.snd hqs

end AtRest

end Orchestrator

/-! ### Idle cycles -/

/-- What a stage is about to do if nothing is left to do for a program, and how routes were last
looked for. -/
def Stage.Idles (P : Program) (last : Option Discovery) : Stage → Prop
  | .invalidating | .preparing | .building => True
  | .generating Q | .discovering Q => Q = P
  | .checking Q => Q = P ∧ Scanning.globalDiagnostics P = []
  | .merging found => found = .empty ∧ last = some (.incremental [])
  | .publishing | .registering | .settling => last = some (.incremental [])
  | .ended outcome => outcome = .succeeded ∧ last = some (.incremental [])

namespace Cycle

open Orchestrator (AtRest)

variable {o : Orchestrator} {s : Session}

/-- A cycle over an orchestrator does no more than reading. -/
structure Idles (P : Program) (o : Orchestrator) (s : Session) (cycle : Cycle) : Prop where
  options_eq : cycle.orchestrator.options = o.options
  host : ∃ ps, cycle.orchestrator.host = o.host.retainAll ps
  current : cycle.orchestrator.programs.current = some P
  upToDate : cycle.orchestrator.programs.createdAt = some o.host.cache.revision
  routes : cycle.orchestrator.routes = o.routes
  registry : cycle.orchestrator.registry = o.registry
  later : cycle.orchestrator.firstRun = false
  queue : cycle.orchestrator.queue = .empty
  session : cycle.session = s
  stage : cycle.stage.Idles P cycle.orchestrator.lastDiscovery

/-- An idle cycle that is over has succeeded, and looked for routes in no file. -/
theorem Idles.of_ended {cycle : Cycle} (idles : Idles P o s cycle)
    (ended : cycle.stage.outcome? ≠ none) : cycle.stage.outcome? = some .succeeded ∧
      cycle.orchestrator.lastDiscovery = some (.incremental []) := by
  have stage := idles.stage
  generalize cycle.stage = last at ended stage ⊢
  cases last with
  | ended => exact ⟨congrArg some stage.1, stage.2⟩
  | _ => exact absurd rfl ended

/-- Where nothing is left to do, each step only reads. -/
theorem Steps.idles {cycle next : Cycle} (steps : Steps (.scanning loader) cycle next)
    (rest : o.AtRest loader options P) (idles : Idles P o s cycle) : Idles P o s next := by
  obtain ⟨ps, host⟩ := idles.host
  have hoptions := idles.options_eq.trans rest.options_eq
  have revision : cycle.orchestrator.host.cache.revision = o.host.cache.revision := by
    rw [host, Host.revision_retainAll]
  have unchanged : cycle.orchestrator.host.cache.changed = .empty := by
    rw [host, Host.changed_retainAll, rest.unchanged]
  have creation := rest.exists_creation_eq hoptions host
  have generation := rest.exists_generation_eq hoptions host
  cases steps with
  | invalidate x =>
    have drained : x.drainedHost = x.host := by
      unfold Orchestrator.drainedHost
      rw [show x.queue = .empty from idles.queue]
      rfl
    refine { idles with host := ⟨ps, drained.trans host⟩, queue := rfl, stage := ?_ }
    rw [stage_goTo]
    split <;> trivial
  | keep current =>
    have same := Option.some.inj (current.symm.trans idles.current)
    exact { idles with stage := same }
  | @prepare x s P' hP =>
    obtain ⟨qs, hqs⟩ := creation
    obtain rfl : P' = P := Except.ok.inj (hP.symm.trans (congrArg Prod.fst hqs))
    exact { idles with
      host := ⟨qs, congrArg Prod.snd hqs⟩, current := rfl, upToDate := congrArg some revision
      stage := rfl }
  | unprepared herror =>
    obtain ⟨qs, hqs⟩ := creation
    cases herror.symm.trans (congrArg Prod.fst hqs)
  | generate =>
    obtain rfl := idles.stage
    obtain ⟨qs, -, hqs⟩ := generation
    exact { idles with host := ⟨qs, hqs⟩, stage := trivial }
  | ungenerated herror =>
    obtain rfl := idles.stage
    obtain ⟨qs, hok, -⟩ := generation
    cases herror.symm.trans hok
  | @build x s P' hP =>
    obtain ⟨qs, hqs⟩ := creation
    obtain rfl : P' = P := Except.ok.inj (hP.symm.trans (congrArg Prod.fst hqs))
    refine { idles with
      host := ⟨qs, congrArg Prod.snd hqs⟩, current := rfl, upToDate := congrArg some revision
      stage := ?_ }
    rw [stage_goTo, checkStage, show x.options = options from hoptions]
    split
    next checks => exact ⟨rfl, rest.checked checks⟩
    next => exact rfl
  | unbuilt herror =>
    obtain ⟨qs, hqs⟩ := creation
    cases herror.symm.trans (congrArg Prod.fst hqs)
  | check => exact { idles with stage := idles.stage.1 }
  | unchecked found =>
    obtain ⟨rfl, none⟩ := idles.stage
    exact absurd none found
  | discoverAll first => cases idles.later.symm.trans first
  | @discoverChanged x =>
    have none : x.host.cache.changedPaths = [] := congrArg OrderedMap.keys unchanged
    rw [none]
    exact { idles with stage := ⟨rfl, rfl⟩ }
  | merge x _ found =>
    obtain ⟨rfl, discovered⟩ : found = .empty ∧ _ := idles.stage
    have nothing : (planOf x.options).apply .empty = .empty := by
      unfold FactoryPlan.apply
      split <;> rfl
    have merged : Cycle.merge x s .empty = goTo x s .publishing := by
      unfold Cycle.merge
      rw [nothing]
      rfl
    obtain rfl := idles.session
    rw [merged]
    exact { idles with stage := discovered }
  | publish => exact { idles with stage := idles.stage }
  | unregistered => exact { idles with stage := idles.stage }
  | @register x _ r hr =>
    have handed := (rest.handedOn r (idles.registry.symm.trans hr)).retainAll ps
    rw [← show x.host = _ from host] at handed
    rw [handed.populate_eq]
    exact { idles with registry := hr.symm.trans idles.registry, stage := idles.stage }
  | settle x =>
    have cleared : x.host.mapCache SourceCache.clearChanged = x.host := by
      rw [Host.mapCache, SourceCache.clearChanged, ← show x.host.cache.changed = .empty from unchanged]
    exact { idles with
      host := ⟨ps, cleared.trans host⟩, later := rfl, stage := ⟨rfl, idles.stage⟩ }
  | ended => exact idles

/-- Where nothing is left to do, a cycle only reads. -/
theorem idles_make (rest : o.AtRest loader options P) (unbound : s.bound = false) :
    Idles P o s.bind (o.make (.scanning loader) s) := by
  refine run_induction (I := Idles P o s.bind) (fun r _ idles => (steps_step r).idles rest idles) _ ?_
  rw [begin_of_unbound o unbound]
  exact
    { options_eq := rfl, host := ⟨[], rfl⟩, current := rest.current, upToDate := rest.upToDate
      routes := rfl, registry := rfl, later := rest.later, queue := rest.queue, session := rfl
      stage := trivial }

end Cycle

namespace Orchestrator

variable {o o' : Orchestrator} {s : Session}

/-- What can become of an orchestrator while files stay as they are, and nothing is reported or
attached. -/
inductive Idle (c : Collaborators) (o : Orchestrator) : Orchestrator → Prop where
  | start : Idle c o o
  | onInvalid {o' : Orchestrator} : Idle c o o' → Idle c o o'.onInvalid
  | diagnose {o' : Orchestrator} (path : Path) (s : Session) :
      Idle c o o' → Idle c o (o'.diagnose c path s).1
  | make {o' : Orchestrator} (s : Session) : Idle c o o' → Idle c o (o'.make c s).orchestrator

/-- Nothing that counts has moved: the texts, the routes, the modules handed on and the program. -/
structure Unmoved (o o' : Orchestrator) : Prop where
  revision : o'.host.cache.revision = o.host.cache.revision
  written : o'.host.cache.writtenFiles = o.host.cache.writtenFiles
  routes : o'.routes = o.routes
  registry : o'.registry = o.registry
  current : o'.programs.current = o.programs.current

theorem Unmoved.trans {o'' : Orchestrator} (first : o.Unmoved o') (second : o'.Unmoved o'') :
    o.Unmoved o'' where
  revision := second.revision.trans first.revision
  written := second.written.trans first.written
  routes := second.routes.trans first.routes
  registry := second.registry.trans first.registry
  current := second.current.trans first.current

/-- A cycle where nothing is left to do moves nothing and leaves nothing to do. -/
theorem AtRest.make (rest : o.AtRest loader options P) (unbound : s.bound = false) :
    (o.make (.scanning loader) s).orchestrator.AtRest loader options P ∧
      o.Unmoved (o.make (.scanning loader) s).orchestrator := by
  have idles := Cycle.idles_make rest unbound
  obtain ⟨options_eq, upkeep⟩ : (o.make (.scanning loader) s).Kept options :=
    upkeep_make unbound rest.options_eq (upkeep_drainedHost rest.upkeep nofun)
  generalize o.make (.scanning loader) s = next at *
  obtain ⟨ps, host⟩ := idles.host
  constructor
  · constructor
    · exact options_eq
    · exact upkeep
    · exact idles.current
    · rw [host, Host.revision_retainAll]
      exact idles.upToDate
    · exact rest.checked
    · intro generates
      rw [host]
      exact (rest.complete generates).retainAll ps
    · intro r hr
      rw [host]
      exact (rest.handedOn r (idles.registry.symm.trans hr)).retainAll ps
    · exact idles.later
    · rw [host, Host.changed_retainAll, rest.unchanged]
    · exact idles.queue
  · constructor
    · rw [host, Host.revision_retainAll]
    · rw [host, Host.writtenFiles_retainAll]
    · exact idles.routes
    · exact idles.registry
    · rw [idles.current, rest.current]

/-- As long as nothing is reported or attached, rest is kept and nothing moves. -/
theorem Idle.keeps (idle : Idle (.scanning loader) o o') (rest : o.AtRest loader options P) :
    o'.AtRest loader options P ∧ o.Unmoved o' := by
  induction idle with
  | start => exact ⟨rest, rfl, rfl, rfl, rfl, rfl⟩
  | onInvalid _ ih => exact ⟨{ ih.1 with }, { ih.2 with }⟩
  | @diagnose o' path s _ ih =>
    obtain ⟨diagnosed, heq⟩ := diagnose_eq (.scanning loader) path s o'
    rw [heq]
    exact ⟨{ ih.1 with }, { ih.2 with }⟩
  | @make o' s _ ih =>
    cases bound : s.bound with
    | true =>
      rw [Cycle.make_of_bound o' bound]
      exact ⟨{ ih.1 with }, { ih.2 with }⟩
    | false =>
      obtain ⟨rest', unmoved⟩ := ih.1.make bound
      exact ⟨rest', ih.2.trans unmoved⟩

end Orchestrator

/-! ### The first cycle -/

namespace Regenerates

variable {h after g : Host}

section Surroundings

variable (regenerated : Regenerates options loader h after P) (sound : h.cache.Sound [])
  (absolute : options.basePath.isAbsolute = true) (normal : options.genDir.IsNormal)
  (below : ∀ f ∈ factorySources options h, options.basePath.Below f.path)
  (unwritten : h.cache.writtenFiles = [])

include regenerated sound absolute normal below unwritten

/-- What was written to a host without written files are the factories of its sources. -/
theorem exists_place_of_written {w : WrittenFile} (hw : w ∈ after.cache.writtenFiles) :
    ∃ f ∈ factorySources options h, w.path = placeOf options f := by
  obtain ⟨ps, fs, sources, leaves⟩ := regenerated.exists_leaves sound absolute normal below
  by_cases hbelow : options.genDir.Below w.path
  · obtain ⟨f, hf, place⟩ := leaves.generated w hw hbelow
    exact ⟨f, (sources f).mp hf, place⟩
  · rw [leaves.untouched w hbelow, h.writtenFiles_retainAll, unwritten] at hw
    cases hw

/-- After the first generation, there is nothing more than before but factories. -/
theorem inward (vacant : ∀ p : Path, p.IsNormal → options.genDir.Below p →
      h.cache.files.isFile p = false)
    (sound' : g.cache.Sound []) (same : g.unread = after.unread)
    (leads : ∀ f ∈ factorySources options h,
      ∀ q ∈ Route.successors g (factoryFile options f), q.Same f.path) :
    Factory.Inward options h g := by
  have soundAfter := regenerated.uses.sound sound
  have cache : g.cache.unread = after.cache.unread := congrArg Host.cache same
  have written := SourceCache.writtenFiles_of_unread_eq cache
  have files : g.cache.files = h.cache.files :=
    (congrArg SourceCache.files cache).trans regenerated.uses.files_eq
  obtain ⟨ps, fs, sources, leaves⟩ := regenerated.exists_leaves sound absolute normal below
  constructor
  · exact absolute
  · exact normal
  · exact below
  · exact (regenerated.agreesOutside sound absolute normal below).of_unread_eq soundAfter sound' same
  · rw [Host.virtualModules, unwritten, List.filter_nil]
  · intro p hbelow
    rw [Bool.eq_false_iff, Ne, SourceCache.isFile_iff sound, unwritten,
      vacant _ (Path.isNormal_normalize p) hbelow]
    simp
  · intro w hw
    rw [written] at hw
    exact regenerated.exists_place_of_written sound absolute normal below unwritten hw
  · intro p hbelow there
    rw [SourceCache.isFile_iff sound', files, vacant _ (Path.isNormal_normalize p) hbelow] at there
    obtain ⟨w, hw, hsame⟩ := there.resolve_right Bool.false_ne_true
    have wnormal := ((SourceCache.mem_writtenFiles_iff_get? sound'.normal).mp hw).1
    rw [written] at hw
    obtain ⟨f, hf, place⟩ :=
      regenerated.exists_place_of_written sound absolute normal below unwritten hw
    have spelled : w.path = p.normalize := wnormal.eq_of_same (Path.isNormal_normalize p) hsame
    exact ⟨f, hf, spelled ▸ place⟩
  · intro f hf
    have served := Host.read_eq_some_iff.mp (leaves.served f ((sources f).mpr hf))
    have settled : (placeOf options f).normalize = placeOf options f :=
      Factory.isNormal_placeOf options f
    rw [← SourceCache.serve_unread soundAfter, ← cache, SourceCache.serve_unread sound'] at served
    refine Host.source_eq_some_iff.mpr ⟨?_, ?_⟩
    · rw [Factory.path_factoryFile, settled]
    · rw [Factory.content_factoryFile, served]
  · exact leads

end Surroundings

/-- If the factories lead to nothing but their sources, generating for what the first generation has
left only reads. -/
theorem isComplete (regenerated : Regenerates options loader h after P)
    (inward : Factory.Inward options h g) (sound : h.cache.Sound []) (sound' : g.cache.Sound [])
    (files : g.cache.files = h.cache.files)
    (created : (Scanning.createProgram options.roots options.compiler none g).1 = .ok P) :
    Factory.IsComplete options loader P g := by
  intro ps
  obtain ⟨input, qs, hinput, hgenerate⟩ := regenerated.generated
  obtain ⟨messages, loads⟩ := Factory.loads_of_generate hgenerate
  have created' := created
  rw [Scanning.createProgram_unread sound'] at created'
  have hinput' := hinput
  rw [← Scanning.createProgram_unread sound options.roots options.compiler none] at hinput'
  have sources : ∀ f, f ∈ Factory.decoratedFiles options P (g.retainAll ps) ↔
      f ∈ factorySources options h := fun f =>
    (Factory.mem_reachedFiles_retainAll sound' created' ps).trans
      (inward.mem_factorySources_iff hinput' created)
  have files' : (g.retainAll ps).cache.files = (h.retainAll qs).cache.files :=
    ((g.uses_retainAll ps).files_eq.trans files).trans (h.uses_retainAll qs).files_eq.symm
  refine Factory.exists_generate_eq ?_ ?_ ?_ ?_
  · rw [← messages]
    simp only [Factory.loadMessages, files']
  · intro f hf gets
    have decorated := (sources f).mp (List.mem_filter.mpr ⟨hf, gets⟩)
    rw [files']
    exact loads f (List.mem_of_mem_filter
      ((Factory.mem_reachedFiles_retainAll sound hinput qs).mpr decorated)) gets
  · intro f hf
    rw [Host.read_retainAll]
    exact Host.read_eq_some_iff.mpr
      (Host.source_eq_some_iff.mp (inward.served f ((sources f).mp hf))).2
  · refine List.eq_nil_iff_forall_not_mem.mpr fun p hp => ?_
    rw [Factory.orphans_retainAll] at hp
    obtain ⟨held, -, other⟩ := (SourceCache.mem_stale inward.normal).mp hp
    obtain ⟨e, he⟩ := OrderedMap.mem_keys.mp held
    have written : (g.cache.unread.entries.get? p).isSome = true := by
      rw [OrderedMap.get?_eq_some_iff.mpr ⟨p, he, rfl⟩]
      rfl
    obtain ⟨w, hw, hsame⟩ := SourceCache.isSome_get?_unread_iff.mp written
    obtain ⟨f, hf, place⟩ := inward.written w hw
    exact other _ (List.mem_map_of_mem ((sources f).mpr hf)) (place ▸ hsame)

end Regenerates

namespace Cycle

/-- What a cycle that succeeds has created is the program of its host. -/
theorem upToDate_run {cycle : Cycle} (begun : ¬ cycle.stage.IsLate)
    (succeeded : (run (.scanning loader) cycle).stage.outcome? = some .succeeded) :
    (run (.scanning loader) cycle).orchestrator.programs.createdAt =
      some (run (.scanning loader) cycle).orchestrator.host.cache.revision := by
  have late : (run (.scanning loader) cycle).stage.IsLate := by
    generalize (run (.scanning loader) cycle).stage = stage at succeeded
    cases stage with
    | ended => trivial
    | _ => cases succeeded
  have unfailed : (run (.scanning loader) cycle).stage ≠ .ended .failed := by
    intro failed
    rw [failed] at succeeded
    cases succeeded
  refine run_induction (c := .scanning loader) (I := fun r => r.stage.IsLate →
    r.stage ≠ .ended .failed →
      r.orchestrator.programs.createdAt = some r.orchestrator.host.cache.revision)
    (fun r going upToDate => ?_) cycle (fun late => absurd late begun) late unfailed
  have steps := steps_step (c := .scanning loader) r
  generalize step (.scanning loader) r = next at steps
  intro late unfailed
  cases steps with
  | invalidate =>
    rw [stage_goTo] at late
    split at late <;> cases late
  | keep => cases late
  | prepare => cases late
  | generate => cases late
  | unprepared => exact absurd rfl unfailed
  | ungenerated => exact absurd rfl unfailed
  | unbuilt => exact absurd rfl unfailed
  | unchecked => exact absurd rfl unfailed
  | @build o =>
    obtain ⟨ps, hps⟩ := exists_creation loader o
    show some _ = some (creation (.scanning loader) o).2.cache.revision
    rw [hps, Host.revision_retainAll]
  | discoverAll =>
    exact (upToDate trivial nofun).trans (congrArg some (Host.revision_retainAll _ _).symm)
  | ended => cases going
  | _ => exact upToDate trivial nofun

/-- What a cycle that succeeds has written was handed on. -/
theorem handedOn_run {c : Collaborators} {cycle : Cycle} (going : cycle.stage.outcome? = none)
    (unsettled : cycle.stage ≠ .settling)
    (succeeded : (run c cycle).stage.outcome? = some .succeeded) :
    ∀ r, (run c cycle).orchestrator.registry = some r →
      (run c cycle).orchestrator.host.HandedOn r := by
  refine run_induction (c := c) (I := fun next =>
    next.stage = .settling ∨ next.stage.outcome? = some .succeeded →
      ∀ r, next.orchestrator.registry = some r → next.orchestrator.host.HandedOn r)
    (fun before going handedOn => ?_) cycle ?_ (.inr succeeded)
  · have steps := steps_step (c := c) before
    generalize step c before = next at steps
    intro done r registry
    cases steps with
    | invalidate =>
      rw [stage_goTo] at done
      split at done <;> simp [Stage.outcome?] at done
    | build =>
      rw [stage_goTo, checkStage] at done
      split at done <;> simp [Stage.outcome?] at done
    | unregistered none => cases none.symm.trans registry
    | @register o =>
      obtain rfl := Option.some.inj registry
      exact o.host.handedOn_populate _
    | settle =>
      obtain ⟨published_eq, registered⟩ := handedOn (.inl rfl) r registry
      exact ⟨published_eq, registered⟩
    | ended => cases going
    | merge => simp [Cycle.merge, Stage.outcome?] at done
    | publish => simp [Cycle.publish, Stage.outcome?] at done
    | _ => simp [Stage.outcome?] at done
  · rw [going]
    rintro (settling | done)
    · exact absurd settling unsettled
    · cases done

end Cycle

namespace Orchestrator

variable {o o' : Orchestrator} {s s' : Session}

/-- If a first cycle succeeds and its factories lead to nothing but their sources, there is nothing
left to do. -/
theorem exists_atRest_of_make {files : FileSystem} {edited : List Path}
    (generates : options.skipCodeGeneration = false)
    (absolute : options.basePath.isAbsolute = true) (normal : options.genDir.IsNormal)
    (run : Run (.scanning loader)
      (ofHost (.scanning loader) options (.ofFiles files options.basePath)) edited o)
    (reported : ∀ p ∈ edited, o.Reported p) (unwritten : o.host.cache.writtenFiles = [])
    (vacant : ∀ p : Path, p.IsNormal → options.genDir.Below p → o.host.cache.files.isFile p = false)
    (below : ∀ f ∈ factorySources options o.drainedHost, options.basePath.Below f.path)
    (unbound : s.bound = false)
    (succeeded : (o.make (.scanning loader) s).stage.outcome? = some .succeeded)
    (leads : ∀ f ∈ factorySources options o.drainedHost, ∀ q ∈ Route.successors
      (o.make (.scanning loader) s).orchestrator.host (factoryFile options f), q.Same f.path) :
    ∃ P, (o.make (.scanning loader) s).orchestrator.AtRest loader options P := by
  obtain ⟨hoptions, upkept⟩ := run.upkeep
  have upkeep : Upkeep options [] o.programs o.drainedHost := upkeep_drainedHost upkept reported
  obtain ⟨options_eq, kept⟩ : (o.make (.scanning loader) s).Kept options :=
    upkeep_make unbound hoptions upkeep
  obtain ⟨after, P, regenerated, current, unread, created⟩ :=
    exists_regenerated_of_make unbound hoptions upkeep generates succeeded
  obtain ⟨later, unchanged⟩ := settled_make unbound succeeded
  have hrun : o.make (.scanning loader) s = Cycle.run (.scanning loader) (Cycle.begin o s) := rfl
  have hbegin := Cycle.begin_of_unbound o unbound
  have unwritten' : o.drainedHost.cache.writtenFiles = [] := by
    refine List.eq_nil_iff_forall_not_mem.mpr fun w hw => ?_
    obtain ⟨w', hw', -⟩ := o.partOf_drainedHost.exists_written hw
    rw [unwritten] at hw'
    cases hw'
  have drained : o.drainedHost.cache.files = o.host.cache.files := o.uses_drainedHost.files_eq
  have inward := regenerated.inward upkeep.sound absolute normal below unwritten'
    (fun p hp hbelow => drained ▸ vacant p hp hbelow) kept.sound unread leads
  have files_eq : (o.make (.scanning loader) s).orchestrator.host.cache.files =
      o.drainedHost.cache.files :=
    (Cycle.files_make (Collaborators.careful_scanning loader) o s).trans drained.symm
  refine ⟨P, options_eq, kept, current, ?_, regenerated.checked, fun _ => ?_, ?_, later, unchanged,
    Cycle.queue_make o unbound⟩
  · exact Cycle.upToDate_run (by rw [hbegin]; exact id) succeeded
  · exact regenerated.isComplete inward upkeep.sound kept.sound files_eq created
  · exact Cycle.handedOn_run (by rw [hbegin]; rfl) (by rw [hbegin]; exact nofun) succeeded

/-- A first cycle writes factories where there is nothing else. If these lead to nothing but their
sources, each further cycle before which nothing was reported succeeds and moves nothing: it writes
and retires no file, looks for routes in no file, and reports nothing to its session. -/
theorem unmoved_of_idle {files : FileSystem} {edited : List Path}
    (generates : options.skipCodeGeneration = false)
    (absolute : options.basePath.isAbsolute = true) (normal : options.genDir.IsNormal)
    (run : Run (.scanning loader)
      (ofHost (.scanning loader) options (.ofFiles files options.basePath)) edited o)
    (reported : ∀ p ∈ edited, o.Reported p) (unwritten : o.host.cache.writtenFiles = [])
    (vacant : ∀ p : Path, p.IsNormal → options.genDir.Below p → o.host.cache.files.isFile p = false)
    (below : ∀ f ∈ factorySources options o.drainedHost, options.basePath.Below f.path)
    (unbound : s.bound = false)
    (succeeded : (o.make (.scanning loader) s).stage.outcome? = some .succeeded)
    (leads : ∀ f ∈ factorySources options o.drainedHost, ∀ q ∈ Route.successors
      (o.make (.scanning loader) s).orchestrator.host (factoryFile options f), q.Same f.path)
    (idle : Idle (.scanning loader) (o.make (.scanning loader) s).orchestrator o')
    (unbound' : s'.bound = false) :
    let first := (o.make (.scanning loader) s).orchestrator
    let next := o'.make (.scanning loader) s'
    next.stage.outcome? = some .succeeded ∧ first.Unmoved next.orchestrator ∧
      next.orchestrator.lastDiscovery = some (.incremental []) ∧ next.session = s'.bind := by
  intro first next
  obtain ⟨P, rest⟩ := exists_atRest_of_make generates absolute normal run reported unwritten vacant
    below unbound succeeded leads
  obtain ⟨rest', unmoved⟩ := idle.keeps rest
  have idles : Cycle.Idles P o' s'.bind next := Cycle.idles_make rest' unbound'
  obtain ⟨succeeded', discovered⟩ := idles.of_ended (Cycle.outcome?_run _)
  exact ⟨succeeded', unmoved.trans (rest'.make unbound').2, discovered, idles.session⟩

/-- A build of a main file with a route to a module, with a bundler attached. -/
def bundled : Orchestrator := (generating routedFiles).attach .empty

/-- The first cycle comes to its check. -/
theorem make_bundled_eq_run : bundled.make (.scanning .ofFiles) .fresh =
    Cycle.run (.scanning .ofFiles) (.goTo { bundled.drained with
      host := createdHost routedFiles "loadChildren:'./e'"
      runs := bundled.runs + 1
      programs := ⟨some (createdProgram "loadChildren:'./e'"),
        bundled.programs.creations + 1, some 1⟩ }
      Session.fresh.bind (Cycle.checkStage bundled (createdProgram "loadChildren:'./e'"))) :=
  make_routed_eq_run (some .empty)

/-- The second and the third cycle after the first one find the factory of the module as it is. -/
theorem unmoved_of_idle_module :
    let first := bundled.make (.scanning .ofFiles) .fresh
    let second := first.orchestrator.onInvalid.make (.scanning .ofFiles) .fresh
    let third := second.orchestrator.make (.scanning .ofFiles) .fresh
    first.orchestrator.registry.map OrderedMap.keys = some [⟨"/g/e.ngfactory.ts"⟩] ∧
      third.stage.outcome? = some .succeeded ∧ first.orchestrator.Unmoved third.orchestrator ∧
      third.orchestrator.lastDiscovery = some (.incremental []) ∧
      third.session = ⟨true, [], [], []⟩ := by
  have files : (generating routedFiles).host.cache.files = .memory routedFiles :=
    files_ofHost _ _ _ rfl
  obtain ⟨unwritten, below⟩ : bundled.host.cache.writtenFiles = [] ∧
      ∀ f ∈ factorySources generatingOptions bundled.drainedHost,
        generatingOptions.basePath.Below f.path := by
    decide +kernel
  obtain ⟨succeeded, registry⟩ :
      (bundled.make (.scanning .ofFiles) .fresh).stage.outcome? = some .succeeded ∧
      (bundled.make (.scanning .ofFiles) .fresh).orchestrator.registry.map OrderedMap.keys =
        some [⟨"/g/e.ngfactory.ts"⟩] := by
    rw [make_bundled_eq_run]
    decide +kernel
  have leads : ∀ f ∈ factorySources generatingOptions bundled.drainedHost, ∀ q ∈ Route.successors
      (bundled.make (.scanning .ofFiles) .fresh).orchestrator.host
        (factoryFile generatingOptions f), q.Same f.path := by
    rw [make_bundled_eq_run]
    decide +kernel
  have vacant : ∀ p : Path, p.IsNormal → generatingOptions.genDir.Below p →
      bundled.host.cache.files.isFile p = false := by
    show ∀ p : Path, _ → _ → (generating routedFiles).host.cache.files.isFile p = false
    rw [files]
    exact fun p => MemoryFiles.isFile_of_below (by decide +kernel) (by decide +kernel)
  have generates : generatingOptions.skipCodeGeneration = false := rfl
  refine ⟨registry, ?_⟩
  exact unmoved_of_idle generates (by decide +kernel) (by decide +kernel)
    (.attach _ .start) (List.forall_mem_nil _) unwritten vacant below rfl succeeded leads
    (.make .fresh (.onInvalid .start)) rfl

example : Factory.render ⟨"/m.ts"⟩ ⟨"/g/m.ngfactory.ts"⟩ [⟨"M", []⟩] (some "',loadChildren:'e") =
    "// Generated from /m.ts\nimport \x7b M \x7d from '../m';\n" ++
      "export const MNgFactory = \x7b moduleType: M, locale: '',loadChildren:'e' \x7d;\n" := by
  decide +kernel

/-- A build in another language, whose name closes the text that it is put into. -/
def closingOptions : BuildOptions :=
  { generatingOptions with i18n := ⟨none, none, some "',loadChildren:'e"⟩ }

/-- A main file that imports its own factory, and a module that nothing leads to. -/
def closingFiles : MemoryFiles :=
  (MemoryFiles.empty.insert ⟨"/m.ts"⟩ "import './g/m.ngfactory'@NgModule()class M").insert
    ⟨"/e.ts"⟩ "@NgModule()class E"

/-- The build of these files. -/
def closing : Orchestrator :=
  ofHost (.scanning .ofFiles) closingOptions
    (.ofFiles (.memory closingFiles) closingOptions.basePath)

/-- The main file. -/
def closingMain : SourceFile := ⟨⟨"/m.ts"⟩, "import './g/m.ngfactory'@NgModule()class M"⟩

/-- The factory of the main file. The name of the language ends a route to the other module. -/
def closingFactory : SourceFile :=
  ⟨⟨"/g/m.ngfactory.ts"⟩,
    "// Generated from /m.ts\nimport \x7b M \x7d from '../m';\n" ++
      "export const MNgFactory = \x7b moduleType: M, locale: '',loadChildren:'e' \x7d;\n"⟩

/-- The host after the first cycle. -/
def closingHost : Host where
  cache := {
    files := .memory closingFiles
    entries := ((OrderedMap.empty.insert ⟨"/e.ts"⟩ ⟨"@NgModule()class E", .disk⟩).insert
      closingFactory.path ⟨closingFactory.content, .written false⟩).insert
      closingMain.path ⟨closingMain.content, .disk⟩
    changed := .empty
    caching := true
    revision := 1 }
  base := ⟨"/"⟩
  published := []

/-- The host in the first cycle, with what its cache holds so far. -/
def closingWith (entries : PathMap CacheEntry) : Host :=
  { closingHost with
    cache := { closingHost.cache with
      entries := entries
      changed := OrderedSet.ofList [closingFactory.path] } }

/-- The first cycle has generated a factory. -/
def closingGenerated : Host :=
  closingWith (OrderedMap.empty.insert closingFactory.path ⟨closingFactory.content, .written false⟩)

/-- Then it reads the main file. -/
def closingCreated : Host :=
  closingWith (closingGenerated.cache.entries.insert closingMain.path ⟨closingMain.content, .disk⟩)

/-- The program of the first cycle. -/
def closingProgram : Program where
  roots := [closingMain.path]
  files := (OrderedMap.empty.insert closingFactory.path closingFactory.content).insert
    closingMain.path closingMain.content
  options := .empty

/-- The program after the first cycle. -/
def closingPrograms : Programs := ⟨some closingProgram, 2, some 1⟩

/-- The factory of the other module. -/
def closingRouted : SourceFile :=
  ⟨⟨"/g/e.ngfactory.ts"⟩,
    "// Generated from /e.ts\nimport \x7b E \x7d from '../e';\n" ++
      "export const ENgFactory = \x7b moduleType: E, locale: '',loadChildren:'e' \x7d;\n"⟩

/-- The host once the second cycle has generated. -/
def closingRenewed : Host :=
  { closingHost with
    cache := { closingHost.cache with
      entries := closingHost.cache.entries.insert closingRouted.path
        ⟨closingRouted.content, .written false⟩
      changed := OrderedSet.ofList [closingRouted.path]
      revision := 2 } }

/-- The program of the second cycle. -/
def closingRenewedProgram : Program :=
  { closingProgram with
    files := (closingProgram.files.insert closingRouted.path closingRouted.content).insert
      ⟨"/e.ts"⟩ "@NgModule()class E" }

/-- The build after its first cycle, with what the second one asks of it. -/
def closingSettled : Orchestrator :=
  { (closing.make (.scanning .ofFiles) .fresh).orchestrator with
    options := closingOptions
    host := closingHost
    programs := closingPrograms
    registry := none
    queue := .empty
    firstRun := false }

/-- The first cycle comes to its check. -/
theorem make_closing_eq_run : closing.make (.scanning .ofFiles) .fresh =
    Cycle.run (.scanning .ofFiles) (.goTo { closing.drained with
      host := closingCreated
      runs := closing.runs + 1
      programs := ⟨some closingProgram, closing.programs.creations + 1, some 1⟩ }
      Session.fresh.bind (Cycle.checkStage closing closingProgram)) := by
  have above : closingGenerated.Over (.ofFiles (.memory closingFiles) closingOptions.basePath) :=
    ⟨rfl, rfl, rfl⟩
  exact Cycle.make_of_creation (h := closingGenerated) (Collaborators.careful_scanning .ofFiles) rfl
    rfl (by decide +kernel) (above.trans (over_ofHost _ _ _ rfl).symm) ⟨rfl, rfl, rfl⟩ rfl
    (by decide +kernel) (by decide +kernel)

set_option synthInstance.maxSize 200 in
theorem make_closing : (closing.make (.scanning .ofFiles) .fresh).stage.outcome? = some .succeeded ∧
    (closing.make (.scanning .ofFiles) .fresh).orchestrator = closingSettled := by
  have options : (closing.make (.scanning .ofFiles) .fresh).orchestrator.options = closingOptions :=
    Cycle.options_make _ _ _
  have files : (closing.make (.scanning .ofFiles) .fresh).orchestrator.host.cache.files =
      .memory closingFiles :=
    files_make_ofHost rfl .fresh
  obtain ⟨succeeded, data⟩ :
      let first := closing.make (.scanning .ofFiles) .fresh
      let o := first.orchestrator
      first.stage.outcome? = some .succeeded ∧
        o.host.cache.data = closingHost.cache.data ∧ o.programs.data = closingPrograms.data ∧
        (o.host.base, o.host.published, o.registry, o.queue.pending, o.firstRun) =
          (⟨"/"⟩, [], none, .empty, false) := by
    rw [make_closing_eq_run]
    decide +kernel
  refine ⟨succeeded, eq_of_data (x := closingSettled) options files ?_ data⟩
  rintro P ⟨rfl⟩
  rfl

/-- And so does the second one. -/
theorem make_closingSettled_eq_run : closingSettled.make (.scanning .ofFiles) .fresh =
    Cycle.run (.scanning .ofFiles) (.goTo { closingSettled.drained with
      host := closingRenewed
      runs := closingSettled.runs + 1
      programs := ⟨some closingRenewedProgram, 3, some 2⟩ }
      Session.fresh.bind (Cycle.checkStage closingSettled closingRenewedProgram)) :=
  Cycle.make_of_creation (h := closingRenewed) (Collaborators.careful_scanning .ofFiles) rfl rfl
    (by decide +kernel) ⟨rfl, rfl, rfl⟩ ⟨rfl, rfl, rfl⟩ rfl (by decide +kernel) (by decide +kernel)

/-- The factory imports only its source, but it has a route to the other module. The second cycle,
though nothing was reported, writes the factory of that module. -/
theorem idle_cycle_writes :
    let first := closing.make (.scanning .ofFiles) .fresh
    let second := first.orchestrator.make (.scanning .ofFiles) .fresh
    closingOptions.overrides = .empty ∧ closingFiles.isDir closingOptions.genDir = false ∧
      first.stage.outcome? = some .succeeded ∧
      (factorySources closingOptions closing.drainedHost).map SourceFile.path = [⟨"/m.ts"⟩] ∧
      (∀ f ∈ factorySources closingOptions closing.drainedHost,
        closingOptions.basePath.Below f.path ∧
          first.orchestrator.host.importTargets (factoryFile closingOptions f) = [f.path]) ∧
      first.orchestrator.host.cache.writtenFiles.map WrittenFile.path =
        [⟨"/g/m.ngfactory.ts"⟩] ∧
      first.orchestrator.queue.toList = [] ∧ second.stage.outcome? = some .succeeded ∧
      second.orchestrator.host.cache.writtenFiles.map WrittenFile.path =
        [⟨"/g/e.ngfactory.ts"⟩, ⟨"/g/m.ngfactory.ts"⟩] ∧
      second.orchestrator.host.cache.revision = first.orchestrator.host.cache.revision + 1 := by
  obtain ⟨succeeded, settled⟩ := make_closing
  have sources : factorySources closingOptions closing.drainedHost = [closingMain] := by
    decide +kernel
  have factory : factoryFile closingOptions closingMain = closingFactory := by decide +kernel
  have facts : (closingSettled.make (.scanning .ofFiles) .fresh).stage.outcome? = some .succeeded ∧
      (closingSettled.make (.scanning .ofFiles) .fresh).orchestrator.host.cache.writtenFiles.map
        WrittenFile.path = [⟨"/g/e.ngfactory.ts"⟩, ⟨"/g/m.ngfactory.ts"⟩] ∧
      (closingSettled.make (.scanning .ofFiles) .fresh).orchestrator.host.cache.revision =
        closingSettled.host.cache.revision + 1 := by
    rw [make_closingSettled_eq_run]
    decide +kernel
  simp only [settled, sources, List.forall_mem_singleton, factory]
  exact ⟨rfl, by decide +kernel, succeeded, rfl, by decide +kernel, by decide +kernel, rfl, facts⟩

end Orchestrator

end Precompile
