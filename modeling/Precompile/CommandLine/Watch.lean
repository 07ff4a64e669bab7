import Precompile.CommandLine.Project
import Precompile.CommandLine.Report
import Precompile.Sources.Fingerprint

/-!
Rebuilding whenever files change, one step at a time.

A watcher compares the watched files with a snapshot that was taken after the last cycle. When they
differ, the paths that do are reported, a cycle is run on a fresh session, and a new snapshot is
taken. Files may be edited between any two steps.
-/

namespace Precompile.CommandLine

/-- What a watcher is about to do. -/
inductive WatchStage where
  -- The watched files are looked at.
  | polling
  -- They are compared with the snapshot.
  | comparing (seen : Snapshot)
  -- The paths that differ are reported.
  | queueing (dirty : List Path)
  -- The orchestrator is told that files have changed.
  | notifying
  -- A cycle is on its way.
  | rebuilding (session : Session) (stage : Stage)
  -- The snapshot is taken.
  | recording
  deriving Inhabited

namespace WatchStage

/-- A bound for the number of steps until files are looked at. -/
def remaining : WatchStage → Nat
  | polling => 0
  | recording => 1
  | rebuilding _ stage => stage.remaining + 2
  | notifying => 13
  | queueing _ => 14
  | comparing _ => 15

def isPolling : WatchStage → Bool
  | polling => true
  | _ => false

end WatchStage

/-- A watcher: the build, the last snapshot, the number of cycles that have ended, and whether the
last one of them had no errors. -/
structure Watcher where
  orchestrator : Orchestrator
  snapshot : Snapshot
  cycles : Nat
  succeeded : Bool
  stage : WatchStage
  deriving Inhabited

namespace Watcher

/-- The files that are looked at: those of the program that are not generated, and the roots. -/
def watchedPaths (o : Orchestrator) : List Path :=
  let paths := (o.programs.current.map Program.paths).getD [] ++ o.options.roots
  Path.sortDedup (paths.filter fun p => !p.startsWith o.options.genDir)

def look (o : Orchestrator) : Snapshot := Snapshot.capture o.host.cache.files (watchedPaths o)

/-- The stage of a cycle that has just begun on a fresh session. -/
def beginCycle (o : Orchestrator) : Orchestrator × WatchStage :=
  let cycle := Cycle.begin o .fresh
  (cycle.orchestrator, .rebuilding cycle.session cycle.stage)

def ofOrchestrator (o : Orchestrator) : Watcher :=
  let (orchestrator, stage) := beginCycle o
  ⟨orchestrator, .empty, 0, true, stage⟩

def rebuilds (w : Watcher) : Nat := w.cycles - 1

def rebuiltLine (o : Orchestrator) (s : Session) : String :=
  s!"   Rebuilt: {s.errors.length} error(s), {o.routes.size} route(s)"

def cycleOutput (style : Style) (o : Orchestrator) (s : Session) : Output :=
  sessionOutput style s ++ style.unlessQuiet (.message (rebuiltLine o s))

/-- Takes a step. -/
def step (c : Collaborators) (style : Style) (w : Watcher) : Watcher × Output :=
  match w.stage with
  | .polling => ({ w with stage := .comparing (look w.orchestrator) }, .empty)
  | .comparing seen =>
    let changes := w.snapshot.diff seen
    let stage := if changes.isEmpty then .polling else .queueing changes.dirty
    ({ w with stage }, .empty)
  | .queueing dirty =>
    ({ w with orchestrator := w.orchestrator.queueAll dirty, stage := .notifying }, .empty)
  | .notifying =>
    let (orchestrator, stage) := beginCycle w.orchestrator.onInvalid
    ({ w with orchestrator, stage }, .empty)
  | .rebuilding session stage =>
    match stage.outcome? with
    | none =>
      let cycle := Cycle.step c ⟨w.orchestrator, session, stage⟩
      ({ w with
        orchestrator := cycle.orchestrator
        stage := .rebuilding cycle.session cycle.stage }, .empty)
    | some _ =>
      ({ w with cycles := w.cycles + 1, succeeded := !session.hasErrors, stage := .recording },
        cycleOutput style w.orchestrator session)
  | .recording => ({ w with snapshot := look w.orchestrator, stage := .polling }, .empty)

/-- A cycle that has begun has at most ten steps ahead. -/
theorem remaining_beginCycle_le (o : Orchestrator) :
    (beginCycle o).2.remaining ≤ 12 := by
  simp only [beginCycle, Cycle.begin]
  split <;> simp [WatchStage.remaining, Stage.remaining, Cycle.goTo]

/-- Every step but a look at the files brings the next look nearer. -/
theorem remaining_step_lt (c : Collaborators) (style : Style) (w : Watcher)
    (h : w.stage.isPolling = false) :
    (step c style w).1.stage.remaining < w.stage.remaining := by
  unfold step
  cases hs : w.stage with
  | polling => simp [hs, WatchStage.isPolling] at h
  | comparing seen =>
    simp only
    split <;> simp [WatchStage.remaining]
  | queueing dirty => simp [WatchStage.remaining]
  | notifying =>
    have := remaining_beginCycle_le w.orchestrator.onInvalid
    simpa [WatchStage.remaining] using Nat.lt_succ_of_le this
  | rebuilding session stage =>
    simp only
    split
    next ho =>
      have := Cycle.remaining_step_lt c ⟨w.orchestrator, session, stage⟩ ho
      simpa [WatchStage.remaining] using this
    next => simp [WatchStage.remaining]
  | recording => simp [WatchStage.remaining]

/-- Takes steps until files are to be looked at. -/
def settle (c : Collaborators) (style : Style) (w : Watcher) : Watcher × Output :=
  if h : w.stage.isPolling = false then
    have := remaining_step_lt c style w h
    let taken := step c style w
    let settled := settle c style taken.1
    (settled.1, taken.2 ++ settled.2)
  else (w, .empty)
termination_by w.stage.remaining

/-- Looks at the files once, and runs a cycle if they have changed. -/
def poll (c : Collaborators) (style : Style) (w : Watcher) : Watcher × Output :=
  settle c style (step c style w).1

def mapFiles (w : Watcher) (f : FileSystem → FileSystem) : Watcher :=
  { w with orchestrator := w.orchestrator.mapHost fun h => h.mapFiles f }

/-- So many cycles were run after the first as were asked for. -/
def isDone (limit : Option Nat) (w : Watcher) : Bool :=
  match limit with
  | some n => n ≤ w.rebuilds
  | none => false

def exitCode (w : Watcher) : Nat := if w.succeeded then 0 else 1

end Watcher

end Precompile.CommandLine
