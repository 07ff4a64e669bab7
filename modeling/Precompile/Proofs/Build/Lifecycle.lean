import Mathlib.Data.List.Destutter
import Mathlib.Logic.Function.Basic
import Precompile.Proofs.Build.Run

/-!
# The life of an orchestrator

Between two cycles anything may be asked of an orchestrator, on any session and with collaborators
that fail. Each cycle keeps to its track (`Cycle.OnTrack`): it goes through the states in order,
reports at most one error, and signals its outcome when it ends. So after each call the
orchestrator is at rest and what it shows to others is up to date (`Lifecycle.behaves_run`).
-/

namespace Precompile

/-- What is asked of an orchestrator, and what happens around it. -/
inductive Call where
  | make (c : Collaborators) (id : Nat)
  | onInvalid
  | afterEmit (id : Nat)
  | diagnose (c : Collaborators) (path : Path) (id : Nat)
  | attach (r : Registry)
  | report (ps : List Path)
  | edit (files : FileSystem)

/-- An orchestrator, the sessions there are, and how its cycles ended, the latest first. -/
structure Lifecycle where
  orchestrator : Orchestrator
  sessions : Nat → Session
  outcomes : List CycleOutcome

namespace Lifecycle

def start (c : Collaborators) (o : BuildOptions) (h : Host) (sessions : Nat → Session) :
    Lifecycle :=
  ⟨.ofHost c o h, sessions, []⟩

/-- The orchestrator and the sessions after a call. -/
def after (l : Lifecycle) : Call → Lifecycle
  | .make c id =>
    let cycle := l.orchestrator.make c (l.sessions id)
    ⟨cycle.orchestrator, Function.update l.sessions id cycle.session,
      cycle.stage.outcome?.toList ++ l.outcomes⟩
  | .onInvalid => { l with orchestrator := l.orchestrator.onInvalid }
  | .afterEmit id => { l with sessions := Function.update l.sessions id (l.sessions id).release }
  | .diagnose c path id =>
    let (orchestrator, session) := l.orchestrator.diagnose c path (l.sessions id)
    { l with orchestrator, sessions := Function.update l.sessions id session }
  | .attach r => { l with orchestrator := l.orchestrator.attach r }
  | .report ps => { l with orchestrator := l.orchestrator.queueAll ps }
  | .edit files =>
    { l with orchestrator := l.orchestrator.mapHost (·.mapFiles fun _ => files) }

def run (l : Lifecycle) (calls : List Call) : Lifecycle := calls.foldl after l

end Lifecycle

/-! ### The states of a cycle -/

/-- The states of a cycle in order, with or without a check of the program. -/
def BuildState.phases (checks : Bool) : List BuildState :=
  [.generating, .programBuilding] ++ (if checks then [.typeChecking] else []) ++
    [.routeDiscovery, .finalizing]

/-- The states from a stage on. -/
def Stage.phases (checks : Bool) : Stage → List BuildState
  | .invalidating | .preparing | .generating _ => BuildState.phases checks
  | .building => .programBuilding :: (if checks then [.typeChecking] else []) ++
      [.routeDiscovery, .finalizing]
  | .checking _ => [.typeChecking, .routeDiscovery, .finalizing]
  | .discovering _ | .merging _ => [.routeDiscovery, .finalizing]
  | .publishing | .registering | .settling => [.finalizing]
  | .ended _ => []

namespace Cycle

variable {c : Collaborators}

/-- A cycle from one step to the next, up to its end. -/
def trace (c : Collaborators) (cycle : Cycle) : List Cycle :=
  if going : cycle.stage.outcome? = none then
    have := remaining_step_lt c cycle going
    cycle :: trace c (step c cycle)
  else [cycle]
termination_by cycle.stage.remaining

theorem trace_of_going {cycle : Cycle} (going : cycle.stage.outcome? = none) :
    trace c cycle = cycle :: trace c (step c cycle) := by
  rw [trace]
  simp [going]

theorem trace_of_ended {cycle : Cycle} (ended : cycle.stage.outcome? ≠ none) :
    trace c cycle = [cycle] := by
  rw [trace]
  simp [ended]

theorem trace_eq_cons (cycle : Cycle) : ∃ rest, trace c cycle = cycle :: rest := by
  by_cases going : cycle.stage.outcome? = none
  · exact ⟨_, trace_of_going going⟩
  · exact ⟨[], trace_of_ended going⟩

/-- The last cycle of a trace is the one that a run ends with. -/
theorem getLast?_trace (cycle : Cycle) : (trace c cycle).getLast? = some (run c cycle) := by
  fun_induction run c cycle with
  | case1 cycle going _ ih =>
    obtain ⟨rest, hrest⟩ := trace_eq_cons (c := c) (step c cycle)
    rw [trace_of_going going, hrest, List.getLast?_cons_cons, ← hrest]
    exact ih
  | case2 cycle ended =>
    rw [trace_of_ended ended]
    rfl

/-- What each step keeps holds all along a trace. -/
theorem trace_induction {I : Cycle → Prop}
    (keep : ∀ cycle, cycle.stage.outcome? = none → I cycle → I (step c cycle)) {cycle : Cycle}
    (start : I cycle) : ∀ r ∈ trace c cycle, I r := by
  fun_induction run c cycle with
  | case1 cycle going _ ih =>
    rw [trace_of_going going]
    intro r hr
    rcases List.mem_cons.mp hr with rfl | hr
    · exact start
    · exact ih (keep cycle going start) r hr
  | case2 cycle ended =>
    rw [trace_of_ended ended]
    intro r hr
    cases List.mem_singleton.mp hr
    exact start

/-- A run from somewhere on a trace ends as the whole one does. -/
theorem run_of_mem_trace {cycle r : Cycle} (hr : r ∈ trace c cycle) : run c r = run c cycle :=
  trace_induction (I := fun r => run c r = run c cycle)
    (fun r going same => (run_step c r going).symm.trans same) rfl r hr

/-- The states that a cycle visits, one after the other. -/
def visited (c : Collaborators) (cycle : Cycle) : List BuildState :=
  ((trace c cycle).map (·.orchestrator.state)).destutter (· ≠ ·)

theorem visited_of_ended {cycle : Cycle} (ended : cycle.stage.outcome? ≠ none) :
    visited c cycle = [cycle.orchestrator.state] := by
  simp [visited, trace_of_ended ended]

theorem visited_of_stay {cycle : Cycle} (going : cycle.stage.outcome? = none)
    (stay : (step c cycle).orchestrator.state = cycle.orchestrator.state) :
    visited c cycle = visited c (step c cycle) := by
  obtain ⟨rest, hrest⟩ := trace_eq_cons (c := c) (step c cycle)
  simp [visited, trace_of_going going, hrest, stay, List.destutter_cons']

theorem visited_of_move {cycle : Cycle} (going : cycle.stage.outcome? = none)
    (move : (step c cycle).orchestrator.state ≠ cycle.orchestrator.state) :
    visited c cycle = cycle.orchestrator.state :: visited c (step c cycle) := by
  obtain ⟨rest, hrest⟩ := trace_eq_cons (c := c) (step c cycle)
  simp [visited, trace_of_going going, hrest, move.symm, List.destutter_cons']

/-! ### On its track -/

/-- What holds of a cycle from its beginning on: `errors` are those that the session had then, and
`first` and `checks` say whether there was no success before and whether programs are checked. -/
structure OnTrack (first checks : Bool) (errors : List String) (cycle : Cycle) : Prop where
  state : cycle.orchestrator.state = cycle.stage.state
  checking : cycle.orchestrator.options.typeChecking = checks
  -- Only between merging and publishing do requests still see the routes of the cycle before.
  published : cycle.stage = .publishing ∨
    cycle.orchestrator.published = cycle.orchestrator.routes
  ready : cycle.orchestrator.ready =
    match cycle.stage.outcome? with
    | none => .pending
    | some outcome => .done outcome
  firstRun : cycle.orchestrator.firstRun = (first && cycle.stage.outcome? != some .succeeded)
  errors : match cycle.stage.outcome? with
    | some .failed => ∃ message, cycle.session.errors = errors ++ [message]
    | _ => cycle.session.errors = errors

theorem errors_warn (s : Session) (conflicts : List RouteConflict) :
    (conflicts.foldl warn s).errors = s.errors := by
  induction conflicts generalizing s with
  | nil => rfl
  | cons conflict rest ih => exact ih (warn s conflict)

theorem outcome?_checkStage (o : Orchestrator) (P : Program) :
    (checkStage o P).outcome? = none := by
  unfold checkStage
  split <;> rfl

variable {first checks : Bool} {errors : List String}

/-- A cycle that goes on stays on its track if it leaves the signal and the errors alone. -/
theorem OnTrack.goTo {cycle : Cycle} (track : OnTrack first checks errors cycle)
    (going : cycle.stage.outcome? = none) {o : Orchestrator} {s : Session} {stage : Stage}
    (goes : stage.outcome? = none) (options : o.options = cycle.orchestrator.options)
    (published : stage = .publishing ∨ o.published = o.routes)
    (ready : o.ready = cycle.orchestrator.ready)
    (firstRun : o.firstRun = cycle.orchestrator.firstRun)
    (same : s.errors = cycle.session.errors) : OnTrack first checks errors (goTo o s stage) := by
  have hready := track.ready
  have hfirst := track.firstRun
  have herrors := track.errors
  rw [going] at hready hfirst herrors
  constructor
  · rfl
  · exact (congrArg BuildOptions.typeChecking options).trans track.checking
  · exact published
  · simp only [Cycle.goTo, goes]
    exact ready.trans hready
  · simp only [Cycle.goTo, goes]
    exact firstRun.trans hfirst
  · simp only [Cycle.goTo, goes]
    exact same.trans herrors

/-- A cycle that fails stays on its track: the error it fails with is the only one. -/
theorem OnTrack.fail {cycle : Cycle} (track : OnTrack first checks errors cycle)
    (going : cycle.stage.outcome? = none) {o : Orchestrator} {s : Session} {e : BuildError}
    (options : o.options = cycle.orchestrator.options) (published : o.published = o.routes)
    (firstRun : o.firstRun = cycle.orchestrator.firstRun)
    (same : s.errors = cycle.session.errors) : OnTrack first checks errors (fail o s e) := by
  have hfirst := track.firstRun
  have herrors := track.errors
  rw [going] at hfirst herrors
  constructor
  · rfl
  · exact (congrArg BuildOptions.typeChecking options).trans track.checking
  · exact .inr published
  · rfl
  · exact firstRun.trans hfirst
  · exact ⟨e.message, congrArg (· ++ [e.message]) (same.trans herrors)⟩

theorem Steps.onTrack {cycle next : Cycle} (steps : Steps c cycle next)
    (going : cycle.stage.outcome? = none) (track : OnTrack first checks errors cycle) :
    OnTrack first checks errors next := by
  have published := track.published
  cases steps with
  | invalidate o s =>
    refine track.goTo going ?_ rfl (.inr (published.resolve_left (by simp))) rfl rfl rfl
    split <;> rfl
  | keep => exact track.goTo going rfl rfl (.inr (published.resolve_left (by simp))) rfl rfl rfl
  | prepare => exact track.goTo going rfl rfl (.inr (published.resolve_left (by simp))) rfl rfl rfl
  | unprepared => exact track.fail going rfl (published.resolve_left (by simp)) rfl rfl
  | generate => exact track.goTo going rfl rfl (.inr (published.resolve_left (by simp))) rfl rfl rfl
  | ungenerated => exact track.fail going rfl (published.resolve_left (by simp)) rfl rfl
  | build =>
    exact track.goTo going (outcome?_checkStage _ _) rfl (.inr (published.resolve_left (by simp))) rfl
      rfl rfl
  | unbuilt => exact track.fail going rfl (published.resolve_left (by simp)) rfl rfl
  | check => exact track.goTo going rfl rfl (.inr (published.resolve_left (by simp))) rfl rfl rfl
  | unchecked => exact track.fail going rfl (published.resolve_left (by simp)) rfl rfl
  | discoverAll => exact track.goTo going rfl rfl (.inr (published.resolve_left (by simp))) rfl rfl rfl
  | discoverChanged =>
    exact track.goTo going rfl rfl (.inr (published.resolve_left (by simp))) rfl rfl rfl
  | merge o s found =>
    -- the routes have changed, and publishing comes next
    exact track.goTo going rfl rfl (.inl rfl) rfl rfl (errors_warn s _)
  | publish => exact track.goTo going rfl rfl (.inr rfl) rfl rfl rfl
  | unregistered => exact track.goTo going rfl rfl (.inr (published.resolve_left (by simp))) rfl rfl rfl
  | register => exact track.goTo going rfl rfl (.inr (published.resolve_left (by simp))) rfl rfl rfl
  | settle o s =>
    exact ⟨rfl, track.checking, .inr (published.resolve_left (by simp)), rfl,
      (Bool.and_false first).symm, track.errors⟩
  | ended => cases going

theorem onTrack_begin {o : Orchestrator} {s : Session} (unbound : s.bound = false)
    (published : o.published = o.routes) :
    OnTrack o.firstRun o.options.typeChecking s.errors (begin o s) := by
  unfold begin
  rw [if_neg (by simp [unbound])]
  exact ⟨rfl, rfl, .inr published, rfl, (Bool.and_true o.firstRun).symm, rfl⟩

theorem onTrack_run {cycle : Cycle} (track : OnTrack first checks errors cycle) :
    OnTrack first checks errors (run c cycle) :=
  run_induction (fun r going h => (steps_step r).onTrack going h) cycle track

theorem onTrack_make (c : Collaborators) {o : Orchestrator} {s : Session}
    (unbound : s.bound = false) (published : o.published = o.routes) :
    OnTrack o.firstRun o.options.typeChecking s.errors (o.make c s) :=
  onTrack_run (onTrack_begin unbound published)

/-- Where a step leads to: the end, a stage in the same state, or the next state. -/
theorem Steps.phases {cycle next : Cycle} (steps : Steps c cycle next)
    (going : cycle.stage.outcome? = none)
    (checking : cycle.orchestrator.options.typeChecking = checks) :
    (∃ outcome, next.stage = .ended outcome) ∨
      (next.stage.state = cycle.stage.state ∧
        next.stage.phases checks = cycle.stage.phases checks) ∨
      (next.stage.state ≠ cycle.stage.state ∧
        cycle.stage.phases checks = cycle.stage.state :: next.stage.phases checks) := by
  cases steps with
  | invalidate o s =>
    rw [stage_goTo]
    split
    · exact .inr (.inr ⟨by simp [Stage.state], rfl⟩)
    · exact .inr (.inl ⟨rfl, rfl⟩)
  | keep => exact .inr (.inl ⟨rfl, rfl⟩)
  | prepare => exact .inr (.inl ⟨rfl, rfl⟩)
  | unprepared => exact .inl ⟨_, rfl⟩
  | generate => exact .inr (.inr ⟨by simp [Stage.state], rfl⟩)
  | ungenerated => exact .inl ⟨_, rfl⟩
  | @build o s P =>
    have hchecks : o.options.typeChecking = checks := checking
    rw [stage_goTo, checkStage, hchecks]
    cases checks with
    | true => exact .inr (.inr ⟨by simp [Stage.state], rfl⟩)
    | false => exact .inr (.inr ⟨by simp [Stage.state], rfl⟩)
  | unbuilt => exact .inl ⟨_, rfl⟩
  | check => exact .inr (.inr ⟨by simp [Stage.state], rfl⟩)
  | unchecked => exact .inl ⟨_, rfl⟩
  | discoverAll => exact .inr (.inl ⟨rfl, rfl⟩)
  | discoverChanged => exact .inr (.inl ⟨rfl, rfl⟩)
  | merge => exact .inr (.inr ⟨by simp [Cycle.merge, Stage.state], rfl⟩)
  | publish => exact .inr (.inl ⟨rfl, rfl⟩)
  | unregistered => exact .inr (.inl ⟨rfl, rfl⟩)
  | register => exact .inr (.inl ⟨rfl, rfl⟩)
  | settle => exact .inl ⟨_, rfl⟩
  | ended => cases going

theorem phases_of_going (checks : Bool) {stage : Stage} (going : stage.outcome? = none) :
    ∃ rest, stage.phases checks = stage.state :: rest ∧ stage.state ≠ .idle := by
  cases stage with
  | ended => cases going
  | _ => exact ⟨_, rfl, nofun⟩

/-- A cycle goes through its states in order, as far as it gets. -/
theorem visited_eq {cycle : Cycle} (track : OnTrack first checks errors cycle) :
    ∃ states, visited c cycle = states ++ [.idle] ∧ states <+: cycle.stage.phases checks := by
  fun_induction run c cycle with
  | case2 cycle ended =>
    refine ⟨[], ?_, List.nil_prefix⟩
    rw [visited_of_ended ended, track.state]
    cases hs : cycle.stage with
    | ended => rfl
    | _ => simp [hs, Stage.outcome?] at ended
  | case1 cycle going _ ih =>
    have track' := (steps_step (c := c) cycle).onTrack going track
    obtain ⟨states, hvisited, hprefix⟩ := ih track'
    rcases (steps_step (c := c) cycle).phases going track.checking with
      ⟨outcome, hended⟩ | ⟨hsame, hphases⟩ | ⟨hmove, hphases⟩
    · -- the cycle ends here, so this state is the last one before it is idle again
      rw [hended] at hprefix
      obtain ⟨rest, hphases, hbusy⟩ := phases_of_going checks going
      have hidle : (step c cycle).orchestrator.state = .idle := by
        rw [track'.state, hended]
        rfl
      refine ⟨[cycle.stage.state], ?_, ?_⟩
      · rw [visited_of_move going (by rw [hidle, track.state]; exact hbusy.symm), hvisited,
          List.prefix_nil.mp hprefix, track.state]
        rfl
      · rw [hphases]
        exact ⟨rest, rfl⟩
    · refine ⟨states, ?_, hphases ▸ hprefix⟩
      rw [visited_of_stay going (by rw [track'.state, track.state, hsame]), hvisited]
    · refine ⟨cycle.stage.state :: states, ?_, ?_⟩
      · rw [visited_of_move going (by rw [track'.state, track.state]; exact hmove), hvisited,
          track.state]
        rfl
      · rw [hphases]
        exact List.cons_prefix_cons.mpr ⟨rfl, hprefix⟩

/-! ### One cycle -/

theorem exists_ended_run (cycle : Cycle) : ∃ outcome, (run c cycle).stage = .ended outcome := by
  have ended := outcome?_run (c := c) cycle
  cases hs : (run c cycle).stage with
  | ended outcome => exact ⟨outcome, rfl⟩
  | _ => simp [hs, Stage.outcome?] at ended

/-- What a cycle does. -/
structure Makes (c : Collaborators) (o : Orchestrator) (s : Session) : Prop where
  returns : ∃ outcome, (o.make c s).stage = .ended outcome
  traced : (trace c (begin o s)).getLast? = some (o.make c s)
  succeeds : (o.make c s).stage = .ended .succeeded → (o.make c s).session.errors = s.errors
  fails : (o.make c s).stage = .ended .failed →
    ∃ message, (o.make c s).session.errors = s.errors ++ [message]
  -- Nothing but the signal and the errors of the session changes.
  bound : s.bound = true → o.make c s = ⟨{ o with ready := .done .failed },
    { s with errors := s.errors ++ [BuildError.duplicateSession.message] }, .ended .failed⟩
  unbound : s.bound = false → ∃ states, visited c (begin o s) = states ++ [.idle] ∧
    states <+: BuildState.phases o.options.typeChecking

theorem makes (c : Collaborators) {o : Orchestrator} (s : Session)
    (published : o.published = o.routes) : Makes c o s := by
  cases hs : s.bound with
  | true =>
    have hmake := make_of_bound (c := c) o hs
    constructor
    · exact ⟨.failed, by rw [hmake]⟩
    · exact getLast?_trace _
    · intro succeeded
      rw [hmake] at succeeded
      cases succeeded
    · intro _
      exact ⟨_, by rw [hmake]; rfl⟩
    · exact fun _ => hmake
    · intro unbound
      cases hs.symm.trans unbound
  | false =>
    have herrors := (onTrack_make c hs published).errors
    constructor
    · exact exists_ended_run _
    · exact getLast?_trace _
    · intro succeeded
      rw [succeeded] at herrors
      exact herrors
    · intro failed
      rw [failed] at herrors
      exact herrors
    · intro bound
      cases hs.symm.trans bound
    · intro _
      obtain ⟨states, hvisited, hprefix⟩ := visited_eq (c := c) (onTrack_begin hs published)
      refine ⟨states, hvisited, ?_⟩
      rw [begin, if_neg (by simp [hs])] at hprefix
      exact hprefix

end Cycle

namespace Lifecycle

/-! ### Between two calls -/

/-- What holds between two calls. -/
structure Settled (l : Lifecycle) : Prop where
  resting : l.orchestrator.state = .idle ∨ l.orchestrator.state = .invalidated
  -- The signal carries the latest outcome.
  ready : l.orchestrator.ready =
    match l.outcomes.head? with
    | none => .notStarted
    | some outcome => .done outcome
  published : l.orchestrator.published = l.orchestrator.routes
  firstRun : l.orchestrator.firstRun = true ↔ .succeeded ∉ l.outcomes

variable {l : Lifecycle}

theorem settled_start (c : Collaborators) (o : BuildOptions) (h : Host) (sessions : Nat → Session) :
    Settled (start c o h sessions) :=
  ⟨.inl rfl, rfl, rfl, by simp [start, Orchestrator.ofHost]⟩

theorem Settled.make (settled : l.Settled) (c : Collaborators) (id : Nat) :
    (l.after (.make c id)).Settled := by
  cases hs : (l.sessions id).bound with
  | true =>
    simp only [after, Cycle.make_of_bound l.orchestrator hs]
    refine ⟨settled.resting, rfl, settled.published, ?_⟩
    simpa [Stage.outcome?] using settled.firstRun
  | false =>
    have track := Cycle.onTrack_make c hs settled.published
    obtain ⟨outcome, hended⟩ : ∃ outcome, (l.orchestrator.make c (l.sessions id)).stage =
      .ended outcome := Cycle.exists_ended_run _
    have hstate := track.state
    have hready := track.ready
    have hfirst := track.firstRun
    rw [hended] at hstate hready hfirst
    simp only [after, hended]
    refine ⟨.inl hstate, hready, track.published.resolve_left (by simp [hended]), ?_⟩
    -- a success ends the first run for good, and a failure leaves it as it was
    cases outcome with
    | succeeded =>
      rw [hfirst]
      simp [Stage.outcome?]
    | failed =>
      rw [hfirst]
      simpa [Stage.outcome?] using settled.firstRun

theorem Settled.after (settled : l.Settled) (call : Call) : (l.after call).Settled := by
  cases call with
  | make c id => exact settled.make c id
  | onInvalid =>
    refine ⟨?_, settled.ready, settled.published, settled.firstRun⟩
    rcases settled.resting with hstate | hstate
    · exact .inr (by simp [Lifecycle.after, Orchestrator.onInvalid, hstate, BuildState.isBusy])
    · exact .inr (by simp [Lifecycle.after, Orchestrator.onInvalid, hstate, BuildState.isBusy])
  | afterEmit id => exact ⟨settled.resting, settled.ready, settled.published, settled.firstRun⟩
  | diagnose c path id =>
    obtain ⟨diagnosed, same⟩ := Orchestrator.diagnose_eq c path (l.sessions id) l.orchestrator
    simp only [Lifecycle.after, same]
    exact ⟨settled.resting, settled.ready, settled.published, settled.firstRun⟩
  | attach r => exact ⟨settled.resting, settled.ready, settled.published, settled.firstRun⟩
  | report ps => exact ⟨settled.resting, settled.ready, settled.published, settled.firstRun⟩
  | edit files => exact ⟨settled.resting, settled.ready, settled.published, settled.firstRun⟩

theorem Settled.run (settled : l.Settled) (calls : List Call) : (l.run calls).Settled := by
  unfold Lifecycle.run
  induction calls generalizing l with
  | nil => exact settled
  | cons call calls ih => exact ih (settled.after call)

/-- What holds between two calls, and what the next cycle does on each session. -/
structure Behaves (l : Lifecycle) : Prop extends l.Settled where
  makes : ∀ c id, Cycle.Makes c l.orchestrator (l.sessions id)

/-- However an orchestrator is used, and whatever its collaborators do, it behaves after each
call. -/
theorem behaves_run (c : Collaborators) (o : BuildOptions) (h : Host) (sessions : Nat → Session)
    (calls : List Call) : Behaves ((start c o h sessions).run calls) := by
  have settled := (settled_start c o h sessions).run calls
  exact ⟨settled, fun c id => Cycle.makes c _ settled.published⟩

end Lifecycle

end Precompile
