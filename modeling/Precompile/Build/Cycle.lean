import Precompile.Build.Orchestrator
import Precompile.Route.Discovery

/-!
Cycles, one step at a time.

A cycle goes through its stages in order, and each step does the work of one stage. Whatever else
happens, such as a path being reported or a file being edited, happens between two steps. A cycle
that fails at some stage is over at once.
-/

namespace Precompile

/-- What a cycle is about to do. -/
inductive Stage where
  -- The reported paths are invalidated.
  | invalidating
  -- The program is found that factories are generated for.
  | preparing
  -- Factories are generated.
  | generating (input : Program)
  -- The program is created that is checked.
  | building
  -- The program as a whole is checked.
  | checking (P : Program)
  -- Routes are looked for.
  | discovering (P : Program)
  -- What was found is merged with the routes so far.
  | merging (found : RouteMap)
  -- The routes are published.
  | publishing
  -- Modules held in memory are handed on.
  | registering
  -- Markers and changes are cleared.
  | settling
  -- The cycle has ended.
  | ended (outcome : CycleOutcome)
  deriving Inhabited

namespace Stage

/-- A bound for the number of steps until the cycle is over. -/
def remaining : Stage → Nat
  | invalidating => 10
  | preparing => 9
  | generating _ => 8
  | building => 7
  | checking _ => 6
  | discovering _ => 5
  | merging _ => 4
  | publishing => 3
  | registering => 2
  | settling => 1
  | ended _ => 0

/-- The state of the orchestrator while a cycle is at a stage. -/
def state : Stage → BuildState
  | invalidating | preparing | generating _ => .generating
  | building => .programBuilding
  | checking _ => .typeChecking
  | discovering _ | merging _ => .routeDiscovery
  | publishing | registering | settling => .finalizing
  | ended _ => .idle

def outcome? : Stage → Option CycleOutcome
  | ended outcome => some outcome
  | _ => none

end Stage

/-- A cycle on its way: the orchestrator, the session it reports to, and the next stage. -/
structure Cycle where
  orchestrator : Orchestrator
  session : Session
  stage : Stage
  deriving Inhabited

namespace Cycle

/-! ### Beginning and ending -/

def goTo (o : Orchestrator) (s : Session) (stage : Stage) : Cycle :=
  ⟨{ o with state := stage.state }, s, stage⟩

/-- Ends the cycle: its outcome is signalled to those who wait. -/
def finish (o : Orchestrator) (s : Session) (outcome : CycleOutcome) : Cycle :=
  ⟨{ o with state := .idle, ready := .done outcome }, s, .ended outcome⟩

def fail (o : Orchestrator) (s : Session) (e : BuildError) : Cycle :=
  finish o (s.pushError e.message) .failed

/-- Begins a cycle. On a session that an orchestrator is bound to already it fails at once, and
nothing but the signal changes. -/
def begin (o : Orchestrator) (s : Session) : Cycle :=
  if s.bound then
    ⟨{ o with ready := .done .failed }, s.pushError BuildError.duplicateSession.message,
      .ended .failed⟩
  else goTo { o with ready := .pending } s.bind .invalidating

/-! ### The work of each stage -/

/-- Takes the reported paths from the queue and invalidates them. -/
def invalidate (o : Orchestrator) (s : Session) : Cycle :=
  let drained := { o with
    queue := .empty
    host := o.queue.toList.foldl (fun h p => h.mapCache (·.invalidate p)) o.host }
  goTo drained s (if o.options.skipCodeGeneration then .building else .preparing)

/-- Creates a program and goes on with it. -/
def create (c : Collaborators) (o : Orchestrator) (s : Session) (next : Program → Stage) : Cycle :=
  match o.programs.create c.checker o.options.roots o.options.compiler o.host with
  | (.ok P, programs, host) => goTo { o with programs, host } s (next P)
  | (.error e, programs, host) => fail { o with programs, host } s (.host e)

/-- Finds the program to generate for: the current one, unless it is stale. -/
def prepare (c : Collaborators) (o : Orchestrator) (s : Session) : Cycle :=
  match o.programs.current with
  | some P =>
    if o.programs.isStale o.host then create c o s .generating else goTo o s (.generating P)
  | none => create c o s .generating

/-- Runs the generator. -/
def generate (c : Collaborators) (o : Orchestrator) (s : Session) (P : Program) : Cycle :=
  let run := c.generator.run o.options c.resources P o.host o.runs
  let after := { o with host := run.host, runs := run.runs }
  match run.result with
  | .ok () => goTo after s .building
  | .error e => fail after s (.generation e)

def build (c : Collaborators) (o : Orchestrator) (s : Session) : Cycle :=
  create c o s (if o.options.typeChecking then .checking else .discovering)

/-- Checks the program as a whole. -/
def check (c : Collaborators) (o : Orchestrator) (s : Session) (P : Program) : Cycle :=
  match c.checker.globalDiagnostics P with
  | [] => goTo o s (.discovering P)
  | ds => fail o (s.record ds) (.typeCheck ds)

/-- Looks for routes: everywhere until a cycle has succeeded, and later in the files that
changed. -/
def discover (c : Collaborators) (o : Orchestrator) (s : Session) (P : Program) : Cycle :=
  if o.firstRun then
    let (found, host) := c.generator.listAllRoutes P o.entryModule o.host
    goTo { o with host, lastDiscovery := some (.full found.size) } s (.merging found)
  else
    let changed := o.host.cache.changedPaths
    let found := Route.ofChanged P o.host changed
    goTo { o with lastDiscovery := some (.incremental (Route.scannedOf P changed)) } s
      (.merging found)

/-- Warns of a route that leads elsewhere than before. -/
def warn (s : Session) (conflict : RouteConflict) : Session :=
  (s.pushWarning conflict.toDiagnostic.message).record [conflict.toDiagnostic]

def planOf (o : BuildOptions) : FactoryPlan := ⟨o.basePath, o.genDir, o.skipCodeGeneration⟩

/-- Merges what was found with the routes so far. -/
def merge (o : Orchestrator) (s : Session) (found : RouteMap) : Cycle :=
  let routes := (planOf o.options).apply found
  goTo { o with routes := o.routes.merge routes } ((o.routes.conflicts routes).foldl warn s)
    .publishing

def publish (o : Orchestrator) (s : Session) : Cycle :=
  goTo { o with published := o.routes } s .registering

/-- Hands the modules held in memory on, if a bundler is there. -/
def register (o : Orchestrator) (s : Session) : Cycle :=
  match o.registry with
  | none => goTo o s .settling
  | some r =>
    let handed := o.host.populate r
    goTo { o with registry := some handed.registry, host := handed.host } s .settling

/-- Clears markers and changes, and ends the cycle with success. -/
def settle (o : Orchestrator) (s : Session) : Cycle :=
  finish { o with
    diagnosed := .empty
    host := o.host.mapCache SourceCache.clearChanged
    firstRun := false } s .succeeded

/-! ### Steps -/

/-- Does the work of the next stage. -/
def step (c : Collaborators) (cycle : Cycle) : Cycle :=
  let o := cycle.orchestrator
  let s := cycle.session
  match cycle.stage with
  | .invalidating => invalidate o s
  | .preparing => prepare c o s
  | .generating P => generate c o s P
  | .building => build c o s
  | .checking P => check c o s P
  | .discovering P => discover c o s P
  | .merging found => merge o s found
  | .publishing => publish o s
  | .registering => register o s
  | .settling => settle o s
  | .ended _ => cycle

@[simp] theorem stage_goTo (o : Orchestrator) (s : Session) (stage : Stage) :
    (goTo o s stage).stage = stage := rfl

@[simp] theorem stage_fail (o : Orchestrator) (s : Session) (e : BuildError) :
    (fail o s e).stage = .ended .failed := rfl

/-- Creating a program leads to the next stage or to the end. -/
theorem remaining_create_le (c : Collaborators) (o : Orchestrator) (s : Session)
    (next : Program → Stage) (n : Nat) (h : ∀ P, (next P).remaining ≤ n) :
    (create c o s next).stage.remaining ≤ n := by
  unfold create
  split
  · exact h _
  · exact Nat.zero_le _

/-- Every step brings the end nearer. -/
theorem remaining_step_lt (c : Collaborators) (cycle : Cycle)
    (h : cycle.stage.outcome? = none) :
    (step c cycle).stage.remaining < cycle.stage.remaining := by
  unfold step
  cases hs : cycle.stage with
  | invalidating =>
    simp only [invalidate, stage_goTo]
    split <;> simp [Stage.remaining]
  | preparing =>
    have hcreate := remaining_create_le c cycle.orchestrator cycle.session .generating 8
      fun _ => Nat.le_refl _
    have : (prepare c cycle.orchestrator cycle.session).stage.remaining ≤ 8 := by
      unfold prepare
      split
      · split
        · exact hcreate
        · exact Nat.le_refl _
      · exact hcreate
    simpa [Stage.remaining] using Nat.lt_succ_of_le this
  | generating P =>
    simp only [generate]
    split <;> simp [Stage.remaining, stage_goTo, stage_fail]
  | building =>
    have : (build c cycle.orchestrator cycle.session).stage.remaining ≤ 6 := by
      refine remaining_create_le _ _ _ _ _ fun P => ?_
      split <;> simp [Stage.remaining]
    simpa [Stage.remaining] using Nat.lt_succ_of_le this
  | checking P =>
    simp only [check]
    split <;> simp [Stage.remaining, stage_goTo, stage_fail]
  | discovering P =>
    simp only [discover]
    split <;> simp [Stage.remaining, stage_goTo]
  | merging found => simp [merge, Stage.remaining, stage_goTo]
  | publishing => simp [publish, Stage.remaining, stage_goTo]
  | registering =>
    simp only [register]
    split <;> simp [Stage.remaining, stage_goTo]
  | settling => simp [settle, finish, Stage.remaining]
  | ended outcome => simp [hs, Stage.outcome?] at h

/-- Takes steps until the cycle is over. -/
def run (c : Collaborators) (cycle : Cycle) : Cycle :=
  if h : cycle.stage.outcome? = none then
    have := remaining_step_lt c cycle h
    run c (step c cycle)
  else cycle
termination_by cycle.stage.remaining

/-- A cycle that is over stays as it is. -/
theorem run_of_ended (c : Collaborators) (cycle : Cycle) (h : cycle.stage.outcome? ≠ none) :
    run c cycle = cycle := by
  rw [run]
  simp [h]

/-- A cycle that is not over goes on with a step. -/
theorem run_step (c : Collaborators) (cycle : Cycle) (h : cycle.stage.outcome? = none) :
    run c cycle = run c (step c cycle) := by
  rw [run]
  simp [h]

end Cycle

namespace Orchestrator

/-- Runs a cycle from its beginning to its end, with nothing happening in between. -/
def make (c : Collaborators) (s : Session) (o : Orchestrator) : Cycle :=
  Cycle.run c (Cycle.begin o s)

end Orchestrator

end Precompile
