import Precompile.Proofs.Build.LeftOver
import Precompile.Proofs.Build.Passes
import Precompile.Proofs.Factory.Missing
import Precompile.Proofs.Program.Files

/-!
# Touching unchanged files

Once a cycle has succeeded, and as long as the files stay as they are, a further cycle restores what
the first one left, whatever paths are reported before it (`Restores`): without code generation in
any case, and with it if factories lead to nothing that is not found without them (`ComesToRest`).
Such a cycle looks for routes in some files of the same program again. So the routes stay where they
are and nothing is warned of if each file of the program agrees with the routes about its own
(`Orchestrator.routes_of_touched`). Where two files do not agree about a route, touching one of them
moves it (`Orchestrator.routesAgree_iff_of_skip`, `Orchestrator.touch_moves_route`).
-/

namespace Precompile

open Factory (Orderly Prepared factorySources)

variable {loader : ResourceLoader} {options : BuildOptions}

/-! ### Parts of written texts -/

namespace Host

variable {g h h' : Host}

/-- Only written texts count. -/
theorem PartOf.of_unread_eq (part : g.PartOf h) (base : h.base = h'.base)
    (unread : h.cache.unread = h'.cache.unread) : g.PartOf h' where
  base_eq := part.base_eq.trans base
  files_eq := part.files_eq.trans (congrArg (fun c => c.files) unread :)
  entry := by
    intro p e he
    rw [← unread]
    exact part.entry he

theorem PartOf.exists_written (part : g.PartOf h) {f : WrittenFile}
    (hf : f ∈ g.cache.writtenFiles) : ∃ f' ∈ h.cache.writtenFiles, f'.path.Same f.path := by
  have there := SourceCache.isSome_get?_unread_iff.mpr ⟨f, hf, rfl⟩
  obtain ⟨e, he⟩ := Option.isSome_iff_exists.mp there
  apply SourceCache.isSome_get?_unread_iff.mp
  rw [part.entry he]
  rfl

/-- Of nothing there is no other part than nothing. -/
theorem PartOf.unread_eq (part : g.PartOf h) (unwritten : h.cache.Unwritten) :
    g.cache.unread = h.cache.unread := by
  have unwritten' : g.cache.Unwritten := by
    intro a ha
    by_contra written
    have held : g.cache.unread.entries.get? a.1 = some a.2 := by
      rw [SourceCache.get?_unread, OrderedMap.get?_eq_some_iff.mpr ⟨a.1, ha, rfl⟩]
      simpa [Option.filter] using written
    have held' := part.entry held
    rw [unwritten.unread_eq] at held'
    cases held'
  rw [unwritten.unread_eq, unwritten'.unread_eq, part.files_eq]

end Host

/-- What was reported is taken away, and nothing else changes. -/
theorem Orchestrator.partOf_drainedHost (o : Orchestrator) : o.drainedHost.PartOf o.host where
  base_eq := o.uses_drainedHost.base_eq
  files_eq := o.uses_drainedHost.files_eq
  entry := by
    intro p e he
    rw [cache_drainedHost, SourceCache.foldl_invalidate, SourceCache.get?_unread_dropAll] at he
    split at he
    · cases he
    · exact he

/-! ### Restoring a host -/

/-- Cycles over a part of what was written succeed with the same program, and leave all of it
again. -/
def Restores (loader : ResourceLoader) (options : BuildOptions) (h : Host) (P : Program) : Prop :=
  ∀ (o : Orchestrator) (s : Session), s.bound = false → o.options = options →
    Upkeep options [] o.programs o.drainedHost → o.drainedHost.PartOf h →
    (o.make (.scanning loader) s).stage.outcome? = some .succeeded ∧
      (o.make (.scanning loader) s).orchestrator.programs.current = some P ∧
      (o.make (.scanning loader) s).orchestrator.host.cache.unread = h.cache.unread

theorem Restores.congr {h h' : Host} {P : Program} (restores : Restores loader options h P)
    (base : h'.base = h.base) (unread : h'.cache.unread = h.cache.unread) :
    Restores loader options h' P := by
  intro o s hs hoptions upkeep part
  obtain ⟨succeeded, current, same⟩ :=
    restores o s hs hoptions upkeep (part.of_unread_eq base unread)
  exact ⟨succeeded, current, same.trans unread.symm⟩

/-- Without code generation nothing is written. -/
theorem restores_of_skip (skip : options.skipCodeGeneration = true) {h : Host} {P : Program}
    (unwritten : h.cache.Unwritten)
    (created : (Scanning.createProgram options.roots options.compiler none h.unread).1 = .ok P)
    (checked : options.typeChecking = true → Scanning.globalDiagnostics P = []) :
    Restores loader options h P := by
  intro o s hs hoptions upkeep part
  have same := part.unread_eq unwritten
  have unread : o.drainedHost.unread = h.unread := by
    simp only [Host.unread, same, part.base_eq]
  have hmake := Cycle.make_skipping loader hs hoptions upkeep skip
  rw [unread, created] at hmake
  obtain ⟨hiff, current, hunread⟩ := hmake
  exact ⟨hiff.mpr checked, current, hunread.trans same⟩

namespace Regenerates

variable {h after : Host} {P : Program}

/-- What was written to a host that was regenerated are the factories of its sources. -/
theorem stocked (regenerated : Regenerates options loader h after P) (prepared : Prepared options h)
    (leftOver : ∀ f ∈ h.cache.writtenFiles, options.genDir.Below f.path) :
    after.Stocked options.genDir := by
  have below : ∀ f ∈ after.cache.writtenFiles, options.genDir.Below f.path := by
    intro f hf
    by_contra elsewhere
    obtain ⟨f', hf', hsame⟩ :=
      (regenerated.exists_written_of_not_below prepared elsewhere).mp ⟨f, hf, rfl⟩
    exact elsewhere ((leftOver f' hf').congr hsame)
  refine ⟨(regenerated.generated_of prepared).2.2.tidy, below, fun f hf => ?_⟩
  obtain ⟨source, hsource, hplace⟩ :=
    (regenerated.exists_written_of_below prepared (below f hf)).mp ⟨f, hf, rfl⟩
  have covers := Factory.covers_of_mem hsource (prepared.below source hsource)
  have hplan : (Cycle.planOf options).base.isAbsolute = true := prepared.absolute
  exact (Factory.isMarked_factoryPath hplan covers).congr hplace

/-- If neither the factories from before nor those that were generated lead to further sources, the
same sources are found without any part of the factories. -/
theorem restores (regenerated : Regenerates options loader h after P)
    (generates : options.skipCodeGeneration = false) (prepared : Prepared options h)
    (base : h.base = options.basePath.normalize)
    (leftOver : ∀ f ∈ h.cache.writtenFiles, options.genDir.Below f.path)
    (before : factorySources options h ⊆
      factorySources options (.ofFiles h.cache.files options.basePath))
    (rest : factorySources options after ⊆
      factorySources options (.ofFiles h.cache.files options.basePath)) :
    Restores loader options after P := by
  intro o s hs hoptions upkeep part
  have stocked := regenerated.stocked prepared leftOver
  have ext : after.Extends o.drainedHost := part.extends upkeep.sound stocked
  have files : o.drainedHost.cache.files = h.cache.files :=
    part.files_eq.trans regenerated.uses.files_eq
  have created : (Scanning.createProgram options.roots options.compiler none after).1 = .ok P := by
    rw [Scanning.createProgram_unread stocked.sound]
    exact regenerated.created
  obtain ⟨Q, hQ, -⟩ := Scanning.createProgram_mono ext created
  have leftOver' : ∀ f ∈ o.drainedHost.cache.writtenFiles, options.genDir.Below f.path := by
    intro f hf
    obtain ⟨f', hf', hsame⟩ := part.exists_written hf
    exact (stocked.below f' hf').congr hsame
  have vacant := fun p normal below => files ▸ prepared.vacant p normal below
  have tidy : Factory.Tidy options.genDir o.drainedHost := ⟨upkeep.sound, upkeep.virtual, vacant⟩
  -- the sources are those that are found without any factories
  have more := (Factory.extendsBelow_ofFiles tidy upkeep.base_eq leftOver').extends
  rw [files] at more
  have less := (regenerated.sources_subset prepared base leftOver).2
  have sources : ∀ f, f ∈ factorySources options h ↔ f ∈ factorySources options o.drainedHost :=
    fun f => ⟨fun hf => Factory.factorySources_subset more hQ (before hf),
      fun hf => less (rest (Factory.factorySources_subset ext created hf))⟩
  have prepared' : Prepared options o.drainedHost :=
    ⟨tidy, prepared.absolute, prepared.normal,
      fun f hf => prepared.below f ((sources f).mpr hf)⟩
  have alike : Alike options h o.drainedHost := by
    refine ⟨files.symm, base.trans upkeep.base_eq.symm, fun q elsewhere => ?_, sources⟩
    rw [get?_unread_of_leftOver leftOver elsewhere, get?_unread_of_leftOver leftOver' elsewhere]
  rw [Scanning.createProgram_unread upkeep.sound] at hQ
  have succeeded : (o.make (.scanning loader) s).stage.outcome? = some .succeeded := by
    refine Orchestrator.succeeded_of_regenerates hs hoptions upkeep generates hQ fun ps => ?_
    obtain ⟨after', hgenerate, regenerated'⟩ := regenerated.transfer prepared prepared' alike hQ ps
    exact ⟨after', P, hgenerate, regenerated'⟩
  obtain ⟨after', P', regenerated', current, written⟩ :=
    Orchestrator.regenerates_of_make hs hoptions upkeep generates succeeded
  obtain ⟨hunread, rfl⟩ := regenerated.eq_of_alike regenerated' prepared prepared' alike
  exact ⟨succeeded, current, written.trans (congrArg Host.cache hunread).symm⟩

end Regenerates

namespace Cycle

variable {c : Collaborators}

/-- A cycle that has succeeded is not the first one any more, and has forgotten what changed. -/
theorem settled_run {cycle : Cycle} (going : cycle.stage.outcome? = none)
    (succeeded : (run c cycle).stage.outcome? = some .succeeded) :
    (run c cycle).orchestrator.firstRun = false ∧
      (run c cycle).orchestrator.host.cache.changed = .empty := by
  refine run_induction (c := c) (I := fun r => r.stage.outcome? = some .succeeded →
    r.orchestrator.firstRun = false ∧ r.orchestrator.host.cache.changed = .empty)
    (fun r going' _ => ?_) cycle ?_ succeeded
  · have steps := steps_step (c := c) r
    generalize step c r = next at steps ⊢
    intro hnext
    cases steps with
    | settle => exact ⟨rfl, rfl⟩
    | invalidate =>
      rw [stage_goTo] at hnext
      split at hnext <;> cases hnext
    | build =>
      rw [stage_goTo, outcome?_checkStage] at hnext
      cases hnext
    | ended => cases going'
    | _ => cases hnext
  · rw [going]
    exact nofun

/-- A cycle leaves nothing of what was reported before it. -/
theorem queue_make (o : Orchestrator) {s : Session} (hs : s.bound = false) :
    (o.make c s).orchestrator.queue = .empty := by
  rw [make_of_unbound o hs]
  refine run_induction (c := c) (I := fun r => r.orchestrator.queue = .empty) (fun r _ none => ?_)
    _ rfl
  have steps := steps_step (c := c) r
  generalize step c r = next at steps ⊢
  cases steps with
  | invalidate => rfl
  | _ => exact none

/-- Without code generation, nothing else counts as changed than what was reported before a cycle,
until it ends. -/
theorem changed_of_mem_trace (skip : options.skipCodeGeneration = true) {cycle : Cycle}
    (hoptions : cycle.orchestrator.options = options) (begun : cycle.stage ≠ .invalidating) :
    ∀ r ∈ trace (.scanning loader) cycle, r.stage.outcome? = none →
      r.orchestrator.host.cache.changed = cycle.orchestrator.host.cache.changed := by
  let same : Host → Prop := fun h => h.cache.changed = cycle.orchestrator.host.cache.changed
  have keep : (Collaborators.scanning loader).Keep options same :=
    Orchestrator.keep_of_skip skip
      (fun _ ps start => Host.retainAll_induction (Q := same)
        (fun _ p held => (SourceCache.changed_retain _ p).trans held) ps start)
      fun _ _ start => start
  refine fun r hr => (trace_induction (c := .scanning loader)
    (I := fun r => r.orchestrator.options = options ∧ r.stage ≠ .invalidating ∧
      (r.stage.outcome? = none → same r.orchestrator.host))
    (fun r going ⟨hoptions, begun, start⟩ => ?_) ⟨hoptions, begun, fun _ => rfl⟩ r hr).2.2
  have steps := steps_step (c := .scanning loader) r
  refine ⟨steps.options_eq.trans hoptions, stage_step_ne r, fun going' => ?_⟩
  -- changes are forgotten at the end only
  have unsettled : r.stage ≠ .settling := by
    obtain ⟨o, s, stage⟩ := r
    rintro rfl
    cases (show some CycleOutcome.succeeded = none from going')
  exact steps.host (hoptions ▸ keep) (absurd · begun) (absurd · unsettled) (start going)

/-- What the routes of a file lead to does not depend on what was retained. -/
theorem ofFile_congr {h h' : Host} (sound : h.cache.Sound []) (sound' : h'.cache.Sound [])
    (base : h.base = h'.base) (unread : h.cache.unread = h'.cache.unread) :
    Route.ofFile h = Route.ofFile h' := by
  have same : h.unread = h'.unread := by simp only [Host.unread, base, unread]
  funext f
  simp only [Route.ofFile, ← Host.resolve?_unread sound, ← Host.resolve?_unread sound', same]

/-- Late in a cycle, routes lead where they lead over what the host serves when it has ended. -/
theorem ofFile_of_mem_trace {o : Orchestrator} {s : Session} (hs : s.bound = false)
    (hoptions : o.options = options) (upkeep : Upkeep options [] o.programs o.drainedHost)
    {r : Cycle} (hr : r ∈ trace (.scanning loader) (step (.scanning loader) (begin o s)))
    (late : r.stage.IsLate) :
    Route.ofFile r.orchestrator.host =
      Route.ofFile (o.make (.scanning loader) s).orchestrator.host := by
  have start : Kept options (step (.scanning loader) (begin o s)) := by
    rw [step_begin o hs]
    exact ⟨hoptions, upkeep⟩
  obtain ⟨kept, -⟩ := trace_induction (c := .scanning loader)
    (I := fun r => Kept options r ∧ r.stage ≠ .invalidating)
    (fun r _ h => ⟨(steps_step r).kept h.1 h.2, stage_step_ne r⟩) ⟨start, stage_step_ne _⟩ r hr
  have after : Kept options (o.make (.scanning loader) s) :=
    Orchestrator.upkeep_make hs hoptions upkeep
  have going : (begin o s).stage.outcome? = none := by rw [begin_of_unbound o hs]; rfl
  have hrun : run (.scanning loader) r = o.make (.scanning loader) s :=
    (run_of_mem_trace hr).trans (run_step _ _ going).symm
  have unread : (run (.scanning loader) r).orchestrator.host.cache.unread =
      r.orchestrator.host.cache.unread := unread_run_late late
  rw [hrun] at unread
  exact ofFile_congr kept.2.sound after.2.sound (kept.2.base_eq.trans after.2.base_eq.symm)
    unread.symm

/-- After a success, a cycle looks for the routes of some files of its program, over what the host
serves when the cycle has ended. Without code generation these are the reported ones. -/
theorem exists_changed_of_passes {o : Orchestrator} {s : Session} (hs : s.bound = false)
    (hoptions : o.options = options) (upkeep : Upkeep options [] o.programs o.host)
    (later : o.firstRun = false) {found : RouteMap}
    (hfound : found ∈ passes (.scanning loader) (begin o s)) :
    ∃ P changed, (o.make (.scanning loader) s).orchestrator.programs.current = some P ∧
      (options.skipCodeGeneration = true → changed = o.drainedHost.cache.changedPaths) ∧
      found = Route.ofChanged P (o.make (.scanning loader) s).orchestrator.host changed := by
  have hbegin := begin_of_unbound o hs
  have looks : Looks (begin o s) := by
    rw [hbegin]
    exact ⟨later, id, rfl, by simp⟩
  obtain ⟨looking, hlooking, P, hstage, hcurrent, hfound⟩ := looks.found_eq hfound
  -- routes are looked for after the first step
  rw [trace_of_going (by rw [hbegin]; rfl)] at hlooking
  have hmem := (List.mem_cons.mp hlooking).resolve_left fun same => by
    rw [same, hbegin] at hstage
    cases hstage
  refine ⟨P, looking.orchestrator.host.cache.changedPaths, hcurrent, fun skip => ?_, ?_⟩
  · have hstep := step_begin (c := .scanning loader) o hs
    have going : looking.stage.outcome? = none := by rw [hstage]; rfl
    have changed := changed_of_mem_trace skip (hstep ▸ hoptions) (stage_step_ne _) looking hmem going
    rw [hstep] at changed
    exact congrArg OrderedMap.keys changed
  · have late : looking.stage.IsLate := by
      rw [hstage]
      trivial
    have same := ofFile_of_mem_trace hs hoptions (Orchestrator.upkeep_drainedHost upkeep nofun) hmem
      late
    rw [hfound]
    simp only [Route.ofChanged, Route.ofFiles, same]

end Cycle

namespace Orchestrator

theorem settled_make {c : Collaborators} {o : Orchestrator} {s : Session} (hs : s.bound = false)
    (succeeded : (o.make c s).stage.outcome? = some .succeeded) :
    (o.make c s).orchestrator.firstRun = false ∧
      (o.make c s).orchestrator.host.cache.changed = .empty := by
  refine Cycle.settled_run ?_ succeeded
  rw [Cycle.begin_of_unbound o hs]
  rfl

/-- Each file of the program agrees with the routes about its own ones. -/
def RoutesAgree (o : Orchestrator) : Prop :=
  ∀ P ∈ o.programs.current, ∀ f ∈ P.sources,
    ∀ e ∈ ((Cycle.planOf o.options).apply (Route.ofFile o.host f)).entries,
      o.routes.get? e.1 = some e.2

instance (o : Orchestrator) : Decidable o.RoutesAgree :=
  inferInstanceAs (Decidable (∀ P ∈ o.programs.current, ∀ f ∈ P.sources,
    ∀ e ∈ ((Cycle.planOf o.options).apply (Route.ofFile o.host f)).entries,
      o.routes.get? e.1 = some e.2))

/-- A state that further cycles keep: over a host and with a program. -/
structure Steady (options : BuildOptions) (h : Host) (P : Program) (o : Orchestrator) : Prop where
  options_eq : o.options = options
  upkeep : Upkeep options [] o.programs o.host
  unread : o.host.cache.unread = h.cache.unread
  current : o.programs.current = some P
  normal : ∀ p ∈ P.paths, p.IsNormal
  later : o.firstRun = false
  -- Nothing has changed and nothing was reported since the last cycle.
  unchanged : o.host.cache.changed = .empty
  queue : o.queue = .empty

/-- One more cycle keeps it, whatever is reported before it, and passes over the routes of some
files of the program. -/
theorem Steady.touch {h : Host} {P : Program} {o : Orchestrator} (steady : Steady options h P o)
    (restores : Restores loader options h P) (base : h.base = options.basePath.normalize)
    (sound : h.cache.Sound []) (ps : List Path) {s : Session} (hs : s.bound = false) :
    ((o.queueAll ps).make (.scanning loader) s).stage.outcome? = some .succeeded ∧
      Steady options h P ((o.queueAll ps).make (.scanning loader) s).orchestrator ∧
      ∃ changed, (options.skipCodeGeneration = true →
          changed = (o.queueAll ps).drainedHost.cache.changedPaths) ∧
        (((o.queueAll ps).make (.scanning loader) s).orchestrator.routes,
          ((o.queueAll ps).make (.scanning loader) s).session.warnings) =
          Cycle.tell options (o.routes, s.warnings) (Route.ofChanged P h changed) := by
  have upkeep : Upkeep options [] (o.queueAll ps).programs (o.queueAll ps).host := steady.upkeep
  have hoptions : (o.queueAll ps).options = options := steady.options_eq
  have drained := upkeep_drainedHost upkeep nofun
  have part : (o.queueAll ps).drainedHost.PartOf h :=
    (o.queueAll ps).partOf_drainedHost.of_unread_eq (steady.upkeep.base_eq.trans base.symm)
      steady.unread
  obtain ⟨succeeded, current, unread⟩ := restores (o.queueAll ps) s hs hoptions drained part
  obtain ⟨hoptions', upkeep'⟩ : Cycle.Kept options ((o.queueAll ps).make (.scanning loader) s) :=
    upkeep_make hs hoptions drained
  have told := Cycle.told_make (.scanning loader) (o.queueAll ps) s
  rcases Cycle.passes_make (.scanning loader) (o.queueAll ps) s with ⟨found, hpass, -⟩ | ⟨-, failed⟩
  · obtain ⟨P', changed, current', hchanged, hfound⟩ := Cycle.exists_changed_of_passes hs hoptions
      upkeep steady.later (hpass ▸ List.mem_singleton_self found)
    obtain rfl : P = P' := Option.some.inj (current.symm.trans current')
    have same := Cycle.ofFile_congr upkeep'.sound sound (upkeep'.base_eq.trans base.symm) unread
    obtain ⟨later, unchanged⟩ := settled_make hs succeeded
    refine ⟨succeeded, ⟨hoptions', upkeep', unread, current, steady.normal, later,
      unchanged, Cycle.queue_make _ hs⟩, changed, hchanged, ?_⟩
    rw [told, hpass, hoptions, hfound]
    simp only [Route.ofChanged, Route.ofFiles, same]
    rfl
  · rw [failed] at succeeded
    cases succeeded

/-- Where the files of the program agree with the routes, passing over them again changes
nothing. -/
theorem RoutesAgree.tell_eq {o : Orchestrator} {P : Program} (agree : o.RoutesAgree)
    (current : o.programs.current = some P) (changed : List Path) (warnings : List String) :
    Cycle.tell o.options (o.routes, warnings) (Route.ofChanged P o.host changed) =
      (o.routes, warnings) := by
  have known : ∀ key v, ((Cycle.planOf o.options).apply
      (Route.ofChanged P o.host changed)).get? key = some v → o.routes.get? key = some v := by
    intro key v hv
    obtain ⟨f, hf, hv⟩ := Route.exists_get?_apply_ofFiles hv
    obtain ⟨p, -, hp⟩ := List.mem_filterMap.mp hf
    obtain ⟨q, hq, rfl⟩ := OrderedMap.get?_eq_some_iff.mp hv
    exact agree P current f (Program.mem_sources_of_file? hp) (q, v) hq
  obtain ⟨merged, quiet⟩ := RouteMap.merge_eq_self known
  simp [Cycle.tell, merged, quiet]

/-! ### Rounds of touching files -/

/-- Paths that are reported, and the session of the cycle that comes after that. -/
structure Round where
  touched : List Path
  session : Session

/-- A cycle over paths that are reported. -/
def touch (loader : ResourceLoader) (o : Orchestrator) (r : Round) : Cycle :=
  (o.queueAll r.touched).make (.scanning loader) r.session

def touchAll (loader : ResourceLoader) (o : Orchestrator) (rs : List Round) : Orchestrator :=
  rs.foldl (fun o r => (o.touch loader r).orchestrator) o

/-- Rounds keep it, and the routes stay if the files of the program agree with them. -/
theorem Steady.touchAll {P : Program} {o : Orchestrator} (steady : Steady options o.host P o)
    (restores : Restores loader options o.host P) {rs : List Round}
    (unbound : ∀ r ∈ rs, r.session.bound = false) :
    Steady options o.host P (o.touchAll loader rs) ∧
      (o.RoutesAgree → (o.touchAll loader rs).routes = o.routes) := by
  induction rs using List.reverseRecOn with
  | nil => exact ⟨steady, fun _ => rfl⟩
  | append_singleton rs r ih =>
    obtain ⟨hrs, hr⟩ := List.forall_mem_append.mp unbound
    obtain ⟨before, kept⟩ := ih hrs
    obtain ⟨-, after, changed, -, told⟩ := before.touch restores steady.upkeep.base_eq
      steady.upkeep.sound r.touched (hr r (List.mem_singleton_self r))
    have last : o.touchAll loader (rs ++ [r]) =
        ((o.touchAll loader rs).touch loader r).orchestrator := List.foldl_concat _ _ _ _
    rw [last]
    refine ⟨after, fun agree => ?_⟩
    have quiet := agree.tell_eq steady.current changed r.session.warnings
    rw [kept agree, ← steady.options_eq, quiet] at told
    exact congrArg Prod.fst told

/-- Code generation over a host has come to rest with what a cycle left: neither the factories from
before nor those that were generated lead to a source that is not found without them. -/
structure ComesToRest (options : BuildOptions) (h after : Host) : Prop where
  orderly : Orderly options h
  leftOver : ∀ f ∈ h.cache.writtenFiles, options.genDir.Below f.path
  before : factorySources options h ⊆
    factorySources options (.ofFiles h.cache.files options.basePath)
  after : factorySources options after ⊆
    factorySources options (.ofFiles h.cache.files options.basePath)

variable {o : Orchestrator} {s : Session}

/-- A cycle that succeeds leaves what further cycles restore. -/
theorem exists_restores {files : FileSystem} {edited : List Path}
    (overrides : options.overrides = .empty)
    (run : Run (.scanning loader)
      (ofHost (.scanning loader) options (.ofFiles files options.basePath)) edited o)
    (unbound : s.bound = false) (reported : ∀ p ∈ edited, o.Reported p)
    (succeeded : (o.make (.scanning loader) s).stage.outcome? = some .succeeded)
    (rest : options.skipCodeGeneration = false →
      ComesToRest options o.drainedHost (o.make (.scanning loader) s).orchestrator.host) :
    ∃ P, (o.make (.scanning loader) s).orchestrator.programs.current = some P ∧
      (∀ p ∈ P.paths, p.IsNormal) ∧
      Restores loader options (o.make (.scanning loader) s).orchestrator.host P := by
  obtain ⟨hoptions, upkept⟩ := run.upkeep
  have upkeep : Upkeep options [] o.programs o.drainedHost := upkeep_drainedHost upkept reported
  have kept : (o.make (.scanning loader) s).Kept options := upkeep_make unbound hoptions upkeep
  have base : (o.make (.scanning loader) s).orchestrator.host.base = o.drainedHost.base :=
    kept.2.base_eq.trans upkeep.base_eq.symm
  cases generates : options.skipCodeGeneration with
  | true =>
    have unwritten := (plain_drainedHost (run.plain generates overrides).1 reported).unwritten
    have hmake := Cycle.make_skipping loader unbound hoptions upkeep generates
    cases created : (Scanning.createProgram options.roots options.compiler none
        o.drainedHost.unread).1 with
    | error e =>
      rw [created] at hmake
      rw [show (o.make (.scanning loader) s).stage = .ended .failed from hmake] at succeeded
      cases succeeded
    | ok P =>
      rw [created] at hmake
      obtain ⟨hiff, current, unread⟩ := hmake
      exact ⟨P, current, fun p hp => ((Scanning.mem_paths_iff created).mp hp).1.isNormal,
        (restores_of_skip generates unwritten created (hiff.mp succeeded)).congr base unread⟩
  | false =>
    obtain ⟨orderly, leftOver, before, still⟩ := rest generates
    have prepared : Prepared options o.drainedHost :=
      ⟨⟨upkeep.sound, upkeep.virtual, orderly.vacant⟩, orderly.absolute, orderly.normal,
        orderly.below⟩
    obtain ⟨after, P, regenerated, current, written⟩ :=
      regenerates_of_make unbound hoptions upkeep generates succeeded
    have same : (o.make (.scanning loader) s).orchestrator.host.unread = after.unread := by
      simp only [Host.unread, written, base, regenerated.uses.base_eq]
    have sound := (regenerated.stocked prepared leftOver).sound
    have still' : factorySources options after ⊆
        factorySources options (.ofFiles o.drainedHost.cache.files options.basePath) := fun f hf =>
      still ((Factory.mem_factorySources_congr kept.2.sound sound same).mpr hf)
    have restores := regenerated.restores generates prepared upkeep.base_eq leftOver before still'
    exact ⟨P, current, fun p hp => ((Scanning.mem_paths_iff regenerated.created).mp hp).1.isNormal,
      restores.congr (base.trans regenerated.uses.base_eq.symm) written⟩

/-- A cycle that succeeds leaves a state that further cycles keep. -/
theorem exists_steady {files : FileSystem} {edited : List Path}
    (overrides : options.overrides = .empty)
    (run : Run (.scanning loader)
      (ofHost (.scanning loader) options (.ofFiles files options.basePath)) edited o)
    (unbound : s.bound = false) (reported : ∀ p ∈ edited, o.Reported p)
    (succeeded : (o.make (.scanning loader) s).stage.outcome? = some .succeeded)
    (rest : options.skipCodeGeneration = false →
      ComesToRest options o.drainedHost (o.make (.scanning loader) s).orchestrator.host) :
    let first := (o.make (.scanning loader) s).orchestrator
    ∃ P, Steady options first.host P first ∧ Restores loader options first.host P := by
  intro first
  obtain ⟨P, current, normal, restores⟩ :=
    exists_restores overrides run unbound reported succeeded rest
  obtain ⟨hoptions, upkept⟩ := run.upkeep
  obtain ⟨options_eq, upkeep⟩ : (o.make (.scanning loader) s).Kept options :=
    upkeep_make unbound hoptions (upkeep_drainedHost upkept reported)
  obtain ⟨later, unchanged⟩ := settled_make unbound succeeded
  exact ⟨P, ⟨options_eq, upkeep, rfl, current, normal, later, unchanged,
    Cycle.queue_make o unbound⟩, restores⟩

/-- Where nothing had changed and one path was reported, it is the only one that has changed. -/
theorem changedPaths_of_reported (unchanged : o.host.cache.changed = .empty)
    (queue : o.queue = .empty) (p : Path) :
    (o.queueAll [p]).drainedHost.cache.changedPaths = [p.normalize] := by
  have reported : (o.queueAll [p]).queue.toList = [p] := by
    unfold queueAll
    rw [queue]
    rfl
  have changed : (o.host.cache.invalidate p).changed =
      OrderedSet.insert o.host.cache.changed p.normalize := rfl
  rw [cache_drainedHost, reported, List.foldl_cons, List.foldl_nil, SourceCache.changedPaths]
  show (o.host.cache.invalidate p).changed.keys = _
  rw [changed, unchanged]
  rfl

/-- Without code generation, the files of the program agree with the routes exactly if no route
moves when one of them is reported. -/
theorem routesAgree_iff_of_skip {files : FileSystem} {edited : List Path}
    (skip : options.skipCodeGeneration = true) (overrides : options.overrides = .empty)
    (run : Run (.scanning loader)
      (ofHost (.scanning loader) options (.ofFiles files options.basePath)) edited o)
    (unbound : s.bound = false) (reported : ∀ p ∈ edited, o.Reported p)
    (succeeded : (o.make (.scanning loader) s).stage.outcome? = some .succeeded) :
    let first := (o.make (.scanning loader) s).orchestrator
    first.RoutesAgree ↔
      ∀ p, (first.touch loader ⟨[p], .fresh⟩).orchestrator.routes = first.routes := by
  intro first
  obtain ⟨P, steady, restores⟩ := exists_steady overrides run unbound reported succeeded
    (fun generates => by simp [skip] at generates)
  constructor
  · intro agree p
    have unbounds : ∀ r ∈ [(⟨[p], .fresh⟩ : Round)], r.session.bound = false := by
      simp [Session.fresh]
    exact (steady.touchAll restores unbounds).2 agree
  · intro unmoved P' current f hf e he
    obtain rfl : P = P' := Option.some.inj (steady.current.symm.trans current)
    obtain ⟨-, -, changed, hchanged, told⟩ := steady.touch restores steady.upkeep.base_eq
      steady.upkeep.sound [f.path] (s := .fresh) rfl
    have normal : f.path.normalize = f.path := steady.normal _ (Program.path_mem_paths hf)
    have alone := changedPaths_of_reported steady.unchanged steady.queue f.path
    have one : Route.ofChanged P first.host [f.path] = Route.ofFiles first.host [f] := by
      simp [Route.ofChanged, Program.file?_of_mem_sources hf]
    have plain : ∀ m, (Cycle.planOf options).apply m = m := fun m => if_pos skip
    rw [hchanged skip, alone, normal, one] at told
    rw [steady.options_eq, plain] at he
    have routes : first.routes.merge (Route.ofFiles first.host [f]) = first.routes := by
      have merged := (congrArg Prod.fst told).symm.trans (unmoved f.path)
      simpa only [Cycle.tell, plain] using merged
    have found : (Route.ofFiles first.host [f]).get? e.1 = some e.2 := by
      have own : (Route.ofFile first.host f).get? e.1 = some e.2 :=
        OrderedMap.get?_eq_some_iff.mpr ⟨e.1, he, rfl⟩
      rw [Route.get?_ofFiles, List.filterMap_cons, own]
      rfl
    rw [← routes, RouteMap.get?_merge, found]
    rfl

/-- A main file with a route to a module. -/
def routedFiles : MemoryFiles := importingFiles.insert ⟨"/m.ts"⟩ "loadChildren:'./e'"

/-- The first cycle of a build of these files. -/
def routed : Cycle := (generating routedFiles).make (.scanning .ofFiles) .fresh

/-- It comes to its check with the factory of the module, whether a bundler is attached or not. -/
theorem make_routed_eq_run (r : Option Registry) :
    ({ generating routedFiles with registry := r } : Orchestrator).make (.scanning .ofFiles) .fresh =
      Cycle.run (.scanning .ofFiles) (.goTo { (generating routedFiles).drained with
        registry := r
        host := createdHost routedFiles "loadChildren:'./e'"
        runs := (generating routedFiles).runs + 1
        programs := ⟨some (createdProgram "loadChildren:'./e'"),
          (generating routedFiles).programs.creations + 1, some 1⟩ }
        Session.fresh.bind
          (Cycle.checkStage (generating routedFiles) (createdProgram "loadChildren:'./e'"))) :=
  -- the generator reads the module as it follows the route
  make_generating_eq_run [(⟨"/e.ts"⟩, ⟨"@NgModule()class E", .disk⟩)] "loadChildren:'./e'" r
    (by decide +kernel) (by decide +kernel) (by decide +kernel)

/-- A main file, and beside it a file of its name without ending, which is found first and imports a
component without its template. -/
def shadowedFiles : MemoryFiles :=
  [(⟨"/m.ts"⟩, "@NgModule()class M"), (⟨"/m"⟩, "import './n'"),
    (⟨"/n.ts"⟩, "@Component(\x7btemplateUrl:'./t'\x7d)class N")].foldl
    (fun (m : MemoryFiles) f => m.insert f.1 f.2) .empty

def shadowed : Cycle := (generating shadowedFiles).make (.scanning .ofFiles) .fresh

/-- The first cycle succeeds. The factory that it leaves leads to that component, so the next cycle
fails. -/
theorem factory_fails_next_cycle :
    generatingOptions.entryModule = none ∧ generatingOptions.overrides = .empty ∧
      shadowed.stage.outcome? = some .succeeded ∧
      (shadowed.orchestrator.touch .ofFiles ⟨[], .fresh⟩).stage.outcome? = some .failed := by
  decide +kernel

end Orchestrator

end Precompile
