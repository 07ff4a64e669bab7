import Precompile.Build.Cycle
import Precompile.Proofs.Host

/-!
What the steps of a cycle do.

A cycle begins by taking what was reported (`Cycle.step_begin`), creates programs before it looks for
routes, and leaves them alone afterwards (`Cycle.run_late`).
-/

namespace Precompile

/-- The program that was created is not replaced any more in this cycle. -/
def Stage.IsLate : Stage → Prop
  | .checking _ | .discovering _ | .merging _ | .publishing | .registering | .settling
  | .ended _ => True
  | _ => False

/-- The stages at which a cycle can still fail. -/
def Stage.CanFail : Stage → Prop
  | .invalidating | .preparing | .generating _ | .building | .checking _ => True
  | _ => False

/-- The stages from which a cycle can only succeed. -/
def Stage.IsSure : Stage → Prop
  | .discovering _ | .merging _ | .publishing | .registering | .settling | .ended .succeeded => True
  | _ => False

/-- The stages that can follow on a stage. -/
inductive Stage.Leads : Stage → Stage → Prop where
  | prepare : Leads .invalidating .preparing
  | skip : Leads .invalidating .building
  | generate (P : Program) : Leads .preparing (.generating P)
  | build (P : Program) : Leads (.generating P) .building
  | check (P : Program) : Leads .building (.checking P)
  | trust (P : Program) : Leads .building (.discovering P)
  | discover (P : Program) : Leads (.checking P) (.discovering P)
  | merge (P : Program) (found : RouteMap) : Leads (.discovering P) (.merging found)
  | publish (found : RouteMap) : Leads (.merging found) .publishing
  | register : Leads .publishing .registering
  | settle : Leads .registering .settling
  | succeed : Leads .settling (.ended .succeeded)
  | fail {stage : Stage} : stage.CanFail → Leads stage (.ended .failed)

/-- No stage leads back to the first one. -/
theorem Stage.Leads.ne_invalidating {stage next : Stage} (h : stage.Leads next) :
    next ≠ .invalidating := by
  cases h <;> exact nofun

theorem Stage.Leads.isSure {stage next : Stage} (h : stage.Leads next) (sure : stage.IsSure) :
    next.IsSure := by
  cases h with
  | fail can => cases stage <;> simp_all [Stage.IsSure, Stage.CanFail]
  | _ => simp_all [Stage.IsSure]

/-- A program without options of the compiler, as data that can be compared. -/
def Program.data (P : Program) : List Path × PathMap String × Bool :=
  (P.roots, P.files, P.options.members.isEmpty)

theorem Program.eq_of_data {P Q : Program} (plain : Q.options = .empty) (data : P.data = Q.data) :
    P = Q := by
  obtain ⟨_, _, ⟨_⟩⟩ := P
  obtain ⟨_, _, _⟩ := Q
  subst plain
  simpa [Program.data, CompilerOptions.empty] using data

def Programs.data (ps : Programs) :
    Option (List Path × PathMap String × Bool) × Nat × Option Nat :=
  (ps.current.map Program.data, ps.creations, ps.createdAt)

theorem Programs.eq_of_data {ps qs : Programs} (plain : ∀ P ∈ qs.current, P.options = .empty)
    (data : ps.data = qs.data) : ps = qs := by
  obtain ⟨current, _, _⟩ := ps
  obtain ⟨current', _, _⟩ := qs
  obtain ⟨same, rfl, rfl⟩ : current.map Program.data = current'.map Program.data ∧ _ ∧ _ := by
    simpa [Programs.data] using data
  cases current' with
  | none => simpa using same
  | some Q =>
    obtain ⟨P, rfl, same'⟩ := Option.map_eq_some_iff.mp same
    rw [Program.eq_of_data (plain Q rfl) same']

theorem eq_ok_of_toOption {ε α : Type} {e : Except ε α} {a : α} (h : e.toOption = some a) :
    e = .ok a := by
  cases e with
  | error e => cases h
  | ok b => exact congrArg Except.ok (Option.some.inj h)

namespace Orchestrator

/-- The host after the reported paths were invalidated. -/
def drainedHost (o : Orchestrator) : Host :=
  o.queue.toList.foldl (fun h p => h.mapCache (·.invalidate p)) o.host

/-- The orchestrator once a cycle has taken what was reported. -/
def drained (o : Orchestrator) : Orchestrator :=
  { o with ready := .pending, queue := .empty, host := o.drainedHost }

theorem cache_drainedHost (o : Orchestrator) :
    o.drainedHost.cache = o.queue.toList.foldl SourceCache.invalidate o.host.cache := by
  unfold drainedHost
  generalize o.host = h
  induction o.queue.toList generalizing h with
  | nil => rfl
  | cons p ps ih => exact ih (h.mapCache (·.invalidate p))

theorem uses_drainedHost (o : Orchestrator) : o.host.Uses o.drainedHost := by
  unfold drainedHost
  generalize o.host = h
  induction o.queue.toList generalizing h with
  | nil => exact .refl
  | cons p ps ih => exact (Host.Uses.refl.invalidate p).trans (ih (h.mapCache (·.invalidate p)))

/-- Nothing is held any more for a path that was taken from the queue. -/
theorem contains_drainedHost (o : Orchestrator) {p : Path} (hp : p ∈ o.queue.toList) :
    o.drainedHost.cache.entries.contains p.normalize = false := by
  rw [cache_drainedHost, SourceCache.foldl_invalidate, ← OrderedMap.get?_eq_none_iff,
    SourceCache.get?_dropAll]
  exact if_pos ⟨_, List.mem_map_of_mem hp, rfl⟩

/-- Every path that is taken from the queue becomes a changed one. -/
theorem changed_drainedHost (o : Orchestrator) {p : Path} (hp : p ∈ o.queue.toList) :
    o.drainedHost.cache.changed.contains p.normalize = true := by
  rw [cache_drainedHost, SourceCache.foldl_invalidate, SourceCache.contains_changed_dropAll]
  exact .inl ⟨_, List.mem_map_of_mem hp, rfl⟩

/-- What a cycle asks of the orchestrator that it begins with can be written out. -/
theorem eq_of_data {o x : Orchestrator} (options : o.options = x.options)
    (files : o.host.cache.files = x.host.cache.files)
    (plain : ∀ P ∈ x.programs.current, P.options = .empty)
    (data : o.host.cache.data = x.host.cache.data ∧ o.programs.data = x.programs.data ∧
      (o.host.base, o.host.published, o.registry, o.queue.pending, o.firstRun) =
        (x.host.base, x.host.published, x.registry, x.queue.pending, x.firstRun)) :
    o = { o with
      options := x.options
      host := x.host
      programs := x.programs
      registry := x.registry
      queue := x.queue
      firstRun := x.firstRun } := by
  simp only [Prod.mk.injEq] at data
  obtain ⟨cache, programs, base, published, registry, queue, firstRun⟩ := data
  have cache : o.host.cache = x.host.cache := SourceCache.eq_of_data files cache
  have programs : o.programs = x.programs := Programs.eq_of_data plain programs
  obtain ⟨_, ⟨_, _, _⟩, _, _, _, _, _, _, ⟨_⟩, _, _, _, _, _⟩ := o
  obtain ⟨_, ⟨_, _, _⟩, _, _, _, _, _, _, ⟨_⟩, _, _, _, _, _⟩ := x
  subst options cache base published programs registry queue firstRun
  rfl

end Orchestrator

/-- A property of the host that collaborators keep, as well as handing on. -/
structure Collaborators.Keep (c : Collaborators) (o : BuildOptions) (Q : Host → Prop) : Prop where
  createProgram : ∀ roots options previous h,
    Q h → Q (c.checker.createProgram roots options previous h).2
  generate : o.skipCodeGeneration = false → ∀ P h, Q h → Q (c.generator.generate o c.resources P h).2
  listAllRoutes : ∀ P entry h, Q h → Q (c.generator.listAllRoutes P entry h).2
  handOn : ∀ h published, Q h → Q { h with published }

/-- Collaborators that do no more with a host than reading, writing, invalidating and retiring
files. -/
structure Collaborators.Careful (c : Collaborators) : Prop where
  createProgram : ∀ roots options previous (h : Host),
    h.Uses (c.checker.createProgram roots options previous h).2
  generate : ∀ o P (h : Host), h.Uses (c.generator.generate o c.resources P h).2
  listAllRoutes : ∀ P entry (h : Host), h.Uses (c.generator.listAllRoutes P entry h).2

/-- Careful collaborators keep what uses of a host keep. -/
theorem Collaborators.Careful.keep {c : Collaborators} (careful : c.Careful) (o : BuildOptions)
    {Q : Host → Prop} (use : ∀ h h' : Host, h.Uses h' → Q h → Q h')
    (handOn : ∀ h published, Q h → Q { h with published }) : c.Keep o Q where
  createProgram := fun _ _ _ h hQ => use h _ (careful.createProgram _ _ _ h) hQ
  generate := fun _ _ h hQ => use h _ (careful.generate o _ h) hQ
  listAllRoutes := fun _ _ h hQ => use h _ (careful.listAllRoutes _ _ h) hQ
  handOn := handOn

namespace Cycle

variable {c : Collaborators}

/-- What every step keeps holds at the end of a run. -/
theorem run_induction {I : Cycle → Prop}
    (keep : ∀ cycle, cycle.stage.outcome? = none → I cycle → I (step c cycle))
    (cycle : Cycle) (start : I cycle) : I (run c cycle) := by
  fun_induction run c cycle with
  | case1 cycle hgoing _ ih => exact ih (keep cycle hgoing start)
  | case2 cycle hover => exact start

theorem outcome?_run (cycle : Cycle) : (run c cycle).stage.outcome? ≠ none := by
  fun_induction run c cycle with
  | case1 cycle hgoing _ ih => exact ih
  | case2 cycle hover => exact hover

/-! ### The beginning -/

/-- The first step of a cycle takes the reported paths from the queue and invalidates them. -/
theorem begin_of_unbound (o : Orchestrator) {s : Session} (hs : s.bound = false) :
    begin o s = goTo { o with ready := .pending } s.bind .invalidating := by
  unfold begin
  rw [if_neg (by simp [hs])]

theorem step_begin (o : Orchestrator) {s : Session} (hs : s.bound = false) :
    step c (begin o s) =
      goTo o.drained s.bind (if o.options.skipCodeGeneration then .building else .preparing) := by
  rw [begin_of_unbound o hs]
  rfl

theorem make_of_unbound (o : Orchestrator) {s : Session} (hs : s.bound = false) :
    o.make c s = run c (goTo o.drained s.bind
      (if o.options.skipCodeGeneration then .building else .preparing)) := by
  have hgoing : (begin o s).stage.outcome? = none := by
    rw [begin_of_unbound o hs]
    rfl
  rw [← step_begin o hs]
  exact run_step c (begin o s) hgoing

/-- On a bound session nothing but the signal changes. -/
theorem make_of_bound (o : Orchestrator) {s : Session} (hs : s.bound = true) :
    o.make c s = ⟨{ o with ready := .done .failed },
      s.pushError BuildError.duplicateSession.message, .ended .failed⟩ := by
  have hbegin : begin o s = ⟨{ o with ready := .done .failed },
      s.pushError BuildError.duplicateSession.message, .ended .failed⟩ := if_pos hs
  unfold Orchestrator.make
  rw [hbegin]
  exact run_of_ended c _ (by simp [Stage.outcome?])

/-! ### What a step can do -/

/-- The program that is created from what the orchestrator has, and the host after that. -/
def creation (c : Collaborators) (o : Orchestrator) : Except HostError Program × Host :=
  c.checker.createProgram o.options.roots o.options.compiler o.programs.current o.host

/-- The orchestrator with a program that was created from what it has. -/
def created (c : Collaborators) (o : Orchestrator) (P : Program) : Orchestrator :=
  { o with
    programs := ⟨some P, o.programs.creations + 1, some o.host.cache.revision⟩
    host := (creation c o).2 }

/-- The run of the generator for a program, and the orchestrator after that. -/
def generation (c : Collaborators) (o : Orchestrator) (P : Program) : GeneratorRun :=
  c.generator.run o.options c.resources P o.host o.runs

def generated (c : Collaborators) (o : Orchestrator) (P : Program) : Orchestrator :=
  { o with host := (generation c o P).host, runs := (generation c o P).runs }

/-- The stage at which a program goes on that was created to be checked. -/
def checkStage (o : Orchestrator) : Program → Stage :=
  if o.options.typeChecking then .checking else .discovering

/-- What a step can do, with one constructor for each way in which the work of a stage can end. -/
inductive Steps (c : Collaborators) : Cycle → Cycle → Prop where
  | invalidate (o : Orchestrator) (s : Session) :
      Steps c ⟨o, s, .invalidating⟩ (goTo { o with queue := .empty, host := o.drainedHost } s
        (if o.options.skipCodeGeneration then .building else .preparing))
  | keep {o : Orchestrator} {s : Session} {P : Program} : o.programs.current = some P →
      o.programs.createdAt = some o.host.cache.revision →
      Steps c ⟨o, s, .preparing⟩ (goTo o s (.generating P))
  | prepare {o : Orchestrator} {s : Session} {P : Program} : (creation c o).1 = .ok P →
      Steps c ⟨o, s, .preparing⟩ (goTo (created c o P) s (.generating P))
  | unprepared {o : Orchestrator} {s : Session} {e : HostError} : (creation c o).1 = .error e →
      Steps c ⟨o, s, .preparing⟩ (fail { o with host := (creation c o).2 } s (.host e))
  | generate {o : Orchestrator} {s : Session} {P : Program} : (generation c o P).result = .ok () →
      Steps c ⟨o, s, .generating P⟩ (goTo (generated c o P) s .building)
  | ungenerated {o : Orchestrator} {s : Session} {P : Program} {e : GenerationError} :
      (generation c o P).result = .error e →
      Steps c ⟨o, s, .generating P⟩ (fail (generated c o P) s (.generation e))
  | build {o : Orchestrator} {s : Session} {P : Program} : (creation c o).1 = .ok P →
      Steps c ⟨o, s, .building⟩ (goTo (created c o P) s (checkStage o P))
  | unbuilt {o : Orchestrator} {s : Session} {e : HostError} : (creation c o).1 = .error e →
      Steps c ⟨o, s, .building⟩ (fail { o with host := (creation c o).2 } s (.host e))
  | check {o : Orchestrator} {s : Session} {P : Program} : c.checker.globalDiagnostics P = [] →
      Steps c ⟨o, s, .checking P⟩ (goTo o s (.discovering P))
  | unchecked {o : Orchestrator} {s : Session} {P : Program} :
      c.checker.globalDiagnostics P ≠ [] →
      Steps c ⟨o, s, .checking P⟩ (fail o (s.record (c.checker.globalDiagnostics P))
        (.typeCheck (c.checker.globalDiagnostics P)))
  | discoverAll {o : Orchestrator} {s : Session} {P : Program} : o.firstRun = true →
      Steps c ⟨o, s, .discovering P⟩ (goTo { o with
        host := (c.generator.listAllRoutes P o.entryModule o.host).2
        lastDiscovery := some (.full (c.generator.listAllRoutes P o.entryModule o.host).1.size) } s
        (.merging (c.generator.listAllRoutes P o.entryModule o.host).1))
  | discoverChanged {o : Orchestrator} {s : Session} {P : Program} : o.firstRun = false →
      Steps c ⟨o, s, .discovering P⟩ (goTo { o with
        lastDiscovery := some (.incremental (Route.scannedOf P o.host.cache.changedPaths)) } s
        (.merging (Route.ofChanged P o.host o.host.cache.changedPaths)))
  | merge (o : Orchestrator) (s : Session) (found : RouteMap) :
      Steps c ⟨o, s, .merging found⟩ (merge o s found)
  | publish (o : Orchestrator) (s : Session) : Steps c ⟨o, s, .publishing⟩ (publish o s)
  | unregistered {o : Orchestrator} {s : Session} : o.registry = none →
      Steps c ⟨o, s, .registering⟩ (goTo o s .settling)
  | register {o : Orchestrator} {s : Session} {r : Registry} : o.registry = some r →
      Steps c ⟨o, s, .registering⟩ (goTo { o with
        registry := some (o.host.populate r).registry, host := (o.host.populate r).host } s
        .settling)
  | settle (o : Orchestrator) (s : Session) : Steps c ⟨o, s, .settling⟩ (settle o s)
  | ended (o : Orchestrator) (s : Session) (outcome : CycleOutcome) :
      Steps c ⟨o, s, .ended outcome⟩ ⟨o, s, .ended outcome⟩

/-- Creating a program either goes on with it or ends the cycle. -/
theorem create_eq (o : Orchestrator) (s : Session) (next : Program → Stage) :
    create c o s next = match (creation c o).1 with
      | .ok P => goTo (created c o P) s (next P)
      | .error e => fail { o with host := (creation c o).2 } s (.host e) := by
  unfold create Programs.create created creation
  rcases c.checker.createProgram o.options.roots o.options.compiler o.programs.current o.host with
    ⟨result, host⟩
  cases result <;> rfl

theorem steps_step (cycle : Cycle) : Steps c cycle (step c cycle) := by
  obtain ⟨o, s, stage⟩ := cycle
  cases stage with
  | invalidating => exact .invalidate o s
  | preparing =>
    show Steps c _ (prepare c o s)
    -- a stale program is replaced just as a missing one
    have creates : Steps c ⟨o, s, .preparing⟩ (create c o s .generating) := by
      rw [create_eq]
      cases h : (creation c o).1 with
      | ok P => exact .prepare h
      | error e => exact .unprepared h
    unfold prepare
    cases hcurrent : o.programs.current with
    | none => exact creates
    | some P =>
      dsimp only
      split
      next => exact creates
      next hfresh => exact .keep hcurrent (by simpa [Programs.isStale] using hfresh)
  | generating P =>
    show Steps c _ (generate c o s P)
    unfold generate
    dsimp only
    split
    next h => exact .generate h
    next e h => exact .ungenerated h
  | building =>
    show Steps c _ (create c o s (checkStage o))
    rw [create_eq]
    cases h : (creation c o).1 with
    | ok P => exact .build h
    | error e => exact .unbuilt h
  | checking P =>
    show Steps c _ (check c o s P)
    unfold check
    split
    next hnone => exact .check hnone
    next hsome => exact .unchecked hsome
  | discovering P =>
    show Steps c _ (discover c o s P)
    unfold discover
    split
    next hfirst => exact .discoverAll hfirst
    next hlater => exact .discoverChanged (by simpa using hlater)
  | merging found => exact .merge o s found
  | publishing => exact .publish o s
  | registering =>
    show Steps c _ (register o s)
    unfold register
    cases h : o.registry with
    | none => exact .unregistered h
    | some r => exact .register h
  | settling => exact .settle o s
  | ended outcome => exact .ended o s outcome

/-- Each step leads to one of the stages that can follow. -/
theorem Steps.leads {cycle next : Cycle} (steps : Steps c cycle next)
    (going : cycle.stage.outcome? = none) : cycle.stage.Leads next.stage := by
  cases steps with
  | invalidate o s =>
    rw [stage_goTo]
    split
    · exact .skip
    · exact .prepare
  | keep => exact .generate _
  | prepare => exact .generate _
  | generate => exact .build _
  | ungenerated => exact .fail trivial
  | build =>
    rw [stage_goTo, checkStage]
    split
    · exact .check _
    · exact .trust _
  | unprepared => exact .fail trivial
  | unbuilt => exact .fail trivial
  | check => exact .discover _
  | unchecked => exact .fail trivial
  | discoverAll => exact .merge _ _
  | discoverChanged => exact .merge _ _
  | merge => exact .publish _
  | publish => exact .register
  | unregistered => exact .settle
  | register => exact .settle
  | settle => exact .succeed
  | ended => cases going

theorem step_leads {cycle : Cycle} (going : cycle.stage.outcome? = none) :
    cycle.stage.Leads (step c cycle).stage :=
  (steps_step cycle).leads going

/-- No step changes the options. -/
theorem Steps.options_eq {cycle next : Cycle} (steps : Steps c cycle next) :
    next.orchestrator.options = cycle.orchestrator.options := by
  cases steps <;> rfl

theorem options_run (cycle : Cycle) :
    (run c cycle).orchestrator.options = cycle.orchestrator.options :=
  run_induction (I := fun r => r.orchestrator.options = cycle.orchestrator.options)
    (fun r _ same => (steps_step r).options_eq.trans same) cycle rfl

theorem options_make (c : Collaborators) (o : Orchestrator) (s : Session) :
    (o.make c s).orchestrator.options = o.options := by
  have begun : (begin o s).orchestrator.options = o.options := by
    unfold begin
    split <;> rfl
  exact (options_run (begin o s)).trans begun

theorem step_of_ended {cycle : Cycle} (ended : cycle.stage.outcome? ≠ none) :
    step c cycle = cycle := by
  unfold step
  cases hs : cycle.stage <;> simp [hs, Stage.outcome?] at ended ⊢

theorem outcome?_run_of_sure {cycle : Cycle} (sure : cycle.stage.IsSure) :
    (run c cycle).stage.outcome? = some .succeeded := by
  -- from a sure stage on the run stays sure, and at its end that means success
  have hrun : (run c cycle).stage.IsSure :=
    run_induction (I := fun r => r.stage.IsSure) (fun r going h => (step_leads going).isSure h)
      cycle sure
  have hended := outcome?_run (c := c) cycle
  cases hs : (run c cycle).stage with
  | ended outcome =>
    rw [hs] at hrun
    cases outcome with
    | succeeded => rfl
    | failed => cases hrun
  | _ => simp [hs, Stage.outcome?] at hended

/-- A checked program lets the cycle succeed exactly when nothing is wrong with it as a whole. -/
theorem outcome?_run_checking (o : Orchestrator) (s : Session) (P : Program) :
    (run c (goTo o s (.checking P))).stage.outcome? = some .succeeded ↔
      c.checker.globalDiagnostics P = [] := by
  have hstep : run c (goTo o s (.checking P)) =
      run c (check c { o with state := .typeChecking } s P) := run_step c _ rfl
  have failed : ∀ o s e, (run c (fail o s e)).stage.outcome? = some .failed := fun o s e => by
    rw [run_of_ended c (fail o s e) nofun]
    rfl
  rw [hstep]
  unfold check
  split
  next hnone => exact ⟨fun _ => hnone, fun _ => outcome?_run_of_sure trivial⟩
  next hsome =>
    rw [failed]
    exact ⟨nofun, fun hnone => absurd hnone hsome⟩

/-! ### The host -/

theorem host_generation {o : Orchestrator} {Q : Host → Prop} (keep : c.Keep o.options Q) (P : Program)
    (h : Q o.host) : Q (generation c o P).host := by
  unfold generation CodeGenerator.run
  split
  next => exact h
  next hskip => exact keep.generate (by simpa using hskip) P _ h

theorem uses_creation (careful : c.Careful) (o : Orchestrator) : o.host.Uses (creation c o).2 :=
  careful.createProgram _ _ _ _

theorem uses_generation (careful : c.Careful) (o : Orchestrator) (P : Program) :
    o.host.Uses (generation c o P).host := by
  unfold generation CodeGenerator.run
  split
  · exact .refl
  · exact careful.generate _ _ _

/-- What the collaborators keep of the host is kept by each step, if it is kept where reported paths
are taken and where changes are cleared. -/
theorem Steps.host {cycle next : Cycle} (steps : Steps c cycle next) {Q : Host → Prop}
    (keep : c.Keep cycle.orchestrator.options Q)
    (drain : cycle.stage = .invalidating → Q cycle.orchestrator.drainedHost)
    (clear : cycle.stage = .settling →
      Q (cycle.orchestrator.host.mapCache SourceCache.clearChanged))
    (h : Q cycle.orchestrator.host) : Q next.orchestrator.host := by
  cases steps with
  | invalidate => exact drain rfl
  | prepare => exact keep.createProgram _ _ _ _ h
  | generate => exact host_generation keep _ h
  | ungenerated => exact host_generation keep _ h
  | build => exact keep.createProgram _ _ _ _ h
  | unprepared => exact keep.createProgram _ _ _ _ h
  | unbuilt => exact keep.createProgram _ _ _ _ h
  | discoverAll => exact keep.listAllRoutes _ _ _ h
  | register => exact keep.handOn _ _ h
  | settle => exact clear rfl
  | _ => exact h

/-- Only the beginning of a cycle leads to its first stage. -/
theorem stage_step_ne (cycle : Cycle) : (step c cycle).stage ≠ .invalidating := by
  intro hstage
  by_cases going : cycle.stage.outcome? = none
  · exact (step_leads (c := c) going).ne_invalidating hstage
  · rw [step_of_ended going] at hstage
    simp [hstage, Stage.outcome?] at going

theorem run_host (cycle : Cycle) {Q : Host → Prop}
    (keep : c.Keep cycle.orchestrator.options Q)
    (clear : ∀ h, Q h → Q (h.mapCache SourceCache.clearChanged))
    (begun : cycle.stage ≠ .invalidating) (h : Q cycle.orchestrator.host) :
    Q (run c cycle).orchestrator.host := by
  have hrun := run_induction (c := c) (I := fun r => Q r.orchestrator.host ∧
    r.stage ≠ .invalidating ∧ r.orchestrator.options = cycle.orchestrator.options)
    (fun r _ ⟨hQ, hbegun, hoptions⟩ => by
      have steps := steps_step (c := c) r
      exact ⟨steps.host (hoptions ▸ keep) (fun hs => absurd hs hbegun) (fun _ => clear _ hQ) hQ,
        stage_step_ne r, steps.options_eq.trans hoptions⟩)
    cycle ⟨h, begun, rfl⟩
  exact hrun.1

/-- What the collaborators keep of the host, and holds once the reported paths were invalidated,
holds after the cycle. -/
theorem make_host {o : Orchestrator} {s : Session} {Q : Host → Prop} (keep : c.Keep o.options Q)
    (clear : ∀ h, Q h → Q (h.mapCache SourceCache.clearChanged))
    (hs : s.bound = false) (h : Q o.drainedHost) : Q (o.make c s).orchestrator.host := by
  have begun : (if o.options.skipCodeGeneration then Stage.building else .preparing) ≠
      .invalidating := by
    split <;> exact nofun
  rw [make_of_unbound o hs]
  exact run_host (goTo o.drained s.bind _) keep clear begun h

/-- No cycle touches the file system. -/
theorem files_make (careful : c.Careful) (o : Orchestrator) (s : Session) :
    (o.make c s).orchestrator.host.cache.files = o.host.cache.files := by
  by_cases hs : s.bound = true
  · rw [make_of_bound o hs]
  · have keep := careful.keep o.options (Q := fun h => h.cache.files = o.host.cache.files)
      (fun _ _ use hfiles => use.files_eq.trans hfiles) (fun _ _ hfiles => hfiles)
    exact make_host keep (fun _ hfiles => hfiles) (by simpa using hs) o.uses_drainedHost.files_eq

/-! ### Late stages -/

/-- Late steps leave the programs as they are. -/
theorem Steps.late {cycle next : Cycle} (steps : Steps c cycle next) (late : cycle.stage.IsLate) :
    next.stage.IsLate ∧ next.orchestrator.programs = cycle.orchestrator.programs := by
  cases steps with
  | invalidate => cases late
  | keep => cases late
  | prepare => cases late
  | generate => cases late
  | ungenerated => cases late
  | build => cases late
  | unprepared => cases late
  | unbuilt => cases late
  | _ => exact ⟨trivial, rfl⟩

theorem run_late {cycle : Cycle} (late : cycle.stage.IsLate) :
    (run c cycle).orchestrator.programs = cycle.orchestrator.programs := by
  have h := run_induction (c := c) (I := fun r => r.stage.IsLate ∧
    r.orchestrator.programs = cycle.orchestrator.programs)
    (fun r _ ⟨hlate, hp⟩ => by
      obtain ⟨hlate', hp'⟩ := (steps_step r).late hlate
      exact ⟨hlate', hp'.trans hp⟩)
    cycle ⟨late, rfl⟩
  exact h.2

/-! ### The program of a cycle -/

/-- From the stage where the program is created that is checked, a cycle ends with that program, or
at once if it cannot be created. -/
theorem run_build (o : Orchestrator) (s : Session) :
    match (creation c o).1 with
    | .ok P => (run c (build c o s)).orchestrator.programs = (created c o P).programs
    | .error e => run c (build c o s) = fail { o with host := (creation c o).2 } s (.host e) := by
  have hbuild : build c o s = _ := create_eq o s (checkStage o)
  rw [hbuild]
  cases (creation c o).1 with
  | ok P =>
    have late : (goTo (created c o P) s (checkStage o P)).stage.IsLate := by
      rw [stage_goTo, checkStage]
      split <;> trivial
    exact run_late late
  | error e => exact run_of_ended c (fail { o with host := (creation c o).2 } s (.host e)) nofun

theorem make_of_skip (o : Orchestrator) {s : Session} (hs : s.bound = false)
    (skip : o.options.skipCodeGeneration = true) :
    o.make c s = run c (build c { o.drained with state := .programBuilding } s.bind) := by
  rw [make_of_unbound o hs, if_pos skip]
  exact run_step c _ rfl

/-! ### Cycles that are written out -/

/-- While the current program stands up to date, a cycle begins with a run of the generator, which is
told by what it leaves in the cache. -/
theorem make_of_generation (careful : c.Careful) {o : Orchestrator} {s : Session} {h : Host}
    (unbound : s.bound = false) (generates : o.options.skipCodeGeneration = false)
    (fresh : o.programs.isStale o.drainedHost = false) (above : h.Over o.host)
    (ran : (o.programs.current.map fun P => ((generation c o.drained P).result.toOption,
      (generation c o.drained P).host.cache.data)) = some (some (), h.cache.data)) :
    o.make c s = run c
      (goTo { o.drained with host := h, runs := o.runs + 1 } s.bind .building) := by
  obtain ⟨P, current, ran⟩ := Option.map_eq_some_iff.mp ran
  obtain ⟨ok, data⟩ := Prod.mk.inj ran
  have used : o.host.Uses (generation c o.drained P).host :=
    o.uses_drainedHost.trans (uses_generation careful o.drained P)
  have host : (generation c o.drained P).host = h :=
    ((Host.over_of_uses used).trans above.symm).eq_of_data data
  have runs : (generation c o.drained P).runs = o.runs + 1 := by
    simp only [generation, CodeGenerator.run]
    rw [if_neg (by simp [Orchestrator.drained, generates])]
    rfl
  have result : (generation c o.drained P).result = .ok () := eq_ok_of_toOption ok
  have prepared : prepare c o.drained s.bind = goTo o.drained s.bind (.generating P) := by
    simp [prepare, Orchestrator.drained, current, fresh]
  have generated : generate c o.drained s.bind P =
      goTo { o.drained with host := h, runs := o.runs + 1 } s.bind .building := by
    unfold generation at result host runs
    simp only [generate, result, host, runs]
  rw [make_of_unbound o unbound, if_neg (by simp [generates]), run_step _ _ rfl]
  show run c (prepare c o.drained s.bind) = _
  rw [prepared, run_step _ _ rfl]
  show run c (generate c o.drained s.bind P) = _
  rw [generated]

/-- The next program is told by its files, and by what the cache holds once they were read. -/
theorem run_of_creation (careful : c.Careful) {o : Orchestrator} {s : Session} {h : Host}
    {P : Program} (above : h.Over o.host) (plain : P.options = .empty)
    (made : ((creation c o).1.toOption.map Program.data, (creation c o).2.cache.data) =
      (some P.data, h.cache.data)) :
    run c (goTo o s .building) = run c (goTo { o with
      host := h
      programs := ⟨some P, o.programs.creations + 1, some o.host.cache.revision⟩ } s
        (checkStage o P)) := by
  obtain ⟨result, data⟩ := Prod.mk.inj made
  obtain ⟨Q, ok, same⟩ := Option.map_eq_some_iff.mp result
  obtain rfl : Q = P := Program.eq_of_data plain same
  -- the state makes no difference to what is created
  let building : Orchestrator := { o with state := .programBuilding }
  have created : (creation c building).1 = .ok Q := eq_ok_of_toOption ok
  have host : (creation c building).2 = h :=
    ((Host.over_of_uses (uses_creation careful o)).trans above.symm).eq_of_data data
  rw [run_step _ _ rfl]
  show run c (create c building s (checkStage o)) = _
  rw [create_eq, created]
  simp only [Cycle.created, host]
  rfl

/-- Together they take a cycle to the check. -/
theorem make_of_creation (careful : c.Careful) {o : Orchestrator} {s : Session} {h h' : Host}
    {P : Program} (unbound : s.bound = false) (generates : o.options.skipCodeGeneration = false)
    (fresh : o.programs.isStale o.drainedHost = false) (above : h.Over o.host) (above' : h'.Over h)
    (plain : P.options = .empty)
    (ran : (o.programs.current.map fun P => ((generation c o.drained P).result.toOption,
      (generation c o.drained P).host.cache.data)) = some (some (), h.cache.data))
    (made : ((creation c { o with host := h }).1.toOption.map Program.data,
      (creation c { o with host := h }).2.cache.data) = (some P.data, h'.cache.data)) :
    o.make c s = run c (goTo { o.drained with
      host := h'
      runs := o.runs + 1
      programs := ⟨some P, o.programs.creations + 1, some h.cache.revision⟩ } s.bind
        (checkStage o P)) :=
  (make_of_generation careful unbound generates fresh above ran).trans
    (run_of_creation (o := { o.drained with host := h, runs := o.runs + 1 }) careful above' plain
      made)

end Cycle

end Precompile
