import Precompile.Build.Collaborators
import Precompile.Build.Context
import Precompile.Build.Queue
import Precompile.Build.Ready
import Precompile.Build.Session
import Precompile.Build.State
import Precompile.Route.Entry
import Precompile.Route.Factory

/-!
The orchestrator of a build: how it is set up, and what can be asked of it between cycles.

Its collaborators are handed to each operation, so that nothing is assumed about them from one to
the next.
-/

namespace Precompile

/-- How routes were last looked for. -/
inductive Discovery where
  -- In the whole program; so many were found.
  | full (routes : Nat)
  -- In these files, which had changed.
  | incremental (scanned : List Path)
  deriving DecidableEq, Repr, Inhabited

/-- The state of a build. -/
structure Orchestrator where
  options : BuildOptions
  host : Host
  programs : Programs
  -- How often the generator was run.
  runs : Nat
  -- The routes that were found in all passes so far.
  routes : RouteMap
  -- The routes that requests for modules are answered with.
  published : RouteMap
  -- The modules handed on to a bundler, if one is there.
  registry : Option Registry
  ready : Ready
  queue : InvalidationQueue
  state : BuildState
  -- No cycle has succeeded yet.
  firstRun : Bool
  -- The files that were diagnosed since the markers were last cleared.
  diagnosed : PathSet
  entryModule : Option ModuleReference
  lastDiscovery : Option Discovery
  deriving Inhabited

namespace Orchestrator

/-! ### Setting up -/

/-- The text of the configuration, as the host serves it. -/
def configText (h : Host) (p : Path) : Except ConfigError String :=
  match h.read p with
  | .ok (some content) => .ok content
  | .ok none => .error (.unreadable p .absent)
  | .error e => .error (.unreadable p (.refused e))

/-- The error of a setup whose configuration the checker refuses. -/
def refusal (p : Path) : HostError → ConfigError
  | .config e => e
  | e => .tsConfig p (.refused e.message)

/-- The host with texts written over files. They are held in memory and are no output. -/
def writeOverrides (h : Host) (overrides : PathMap String) : Host :=
  overrides.entries.foldl (fun h (p, content) => h.mapCache fun c => c.write p content false) h

/-- The entry module: the one that is set, or else the one that the main file names. -/
def findEntry (o : BuildOptions) (h : Host) : Option ModuleReference × Host :=
  match o.entryModule, o.mainPath with
  | some e, _ => (some e, h)
  | none, some main => Route.entryOfMain main h
  | none, none => (none, h)

/-- The orchestrator of a host whose configuration was understood. A first program is created before
the host retains anything; if that fails, the first cycle tries again. -/
def ofHost (c : Collaborators) (o : BuildOptions) (h : Host) : Orchestrator :=
  let seeded := writeOverrides h o.overrides
  let (_, programs, used) := Programs.empty.create c.checker o.roots o.compiler seeded
  let (entryModule, host) := findEntry o (used.mapCache SourceCache.enableCaching)
  { options := o, host, programs, runs := 0, routes := .empty, published := .empty,
    registry := none, ready := .notStarted, queue := .empty, state := .idle, firstRun := true,
    diagnosed := .empty, entryModule, lastDiscovery := none }

/-- Sets up a build seen from a working directory. Only the configuration can make this fail. -/
def setUp (c : Collaborators) (given : UserOptions) (cwd : Path) (files : FileSystem) :
    Except ConfigError Orchestrator :=
  match ConfigLocation.find given cwd files with
  | .error e => .error e
  | .ok location =>
    let host := Host.ofFiles files location.basePath
    let path := location.tsConfigPath
    match configText host path with
    | .error e => .error e
    | .ok content =>
      match readTsConfig path content with
      | .error e => .error e
      | .ok raw =>
        match c.checker.parseConfig raw location.basePath host with
        | (.error e, _) => .error (refusal path e)
        | (.ok parsed, used) =>
          (BuildOptions.resolve given location parsed).map fun o => ofHost c o used

/-! ### Hooks between cycles -/

def mapHost (o : Orchestrator) (f : Host → Host) : Orchestrator := { o with host := f o.host }

def queueAll (o : Orchestrator) (ps : List Path) : Orchestrator :=
  { o with queue := o.queue.pushAll ps }

/-- A bundler is there: modules are handed on to it from the next successful cycle on. -/
def attach (o : Orchestrator) (r : Registry) : Orchestrator := { o with registry := some r }

/-- Files have changed: each may be diagnosed again. -/
def onInvalid (o : Orchestrator) : Orchestrator :=
  { o with
    diagnosed := .empty
    state := if o.state.isBusy then o.state else .invalidated }

/-- What is wrong with a file of a program, in the order in which it is reported. -/
def fileDiagnostics (c : Collaborators) (o : BuildOptions) (P : Program) (p : Path) :
    List Diagnostic :=
  (if o.compiler.declaration then c.checker.declarationDiagnostics P p else []) ++
    c.checker.syntacticDiagnostics P p ++ c.checker.semanticDiagnostics P p

/-- Diagnostics reported to a session: together as one error, and each in its full form. -/
def report (s : Session) : List Diagnostic → Session
  | [] => s
  | ds => (s.pushError (Diagnostic.aggregate ds)).record ds

/-- Diagnoses a file of the current program, unless that was done since the markers were last
cleared. -/
def diagnose (c : Collaborators) (path : Path) (s : Session) (o : Orchestrator) :
    Orchestrator × Session :=
  let p := path.normalize
  if o.diagnosed.contains p then (o, s)
  else match o.programs.current with
    | none => (o, s)
    | some P =>
      if P.contains p then
        ({ o with diagnosed := OrderedSet.insert o.diagnosed p },
          report s (fileDiagnostics c o.options P p))
      else (o, s)

/-! ### Requests for modules -/

/-- The requests that wait for the cycle on its way. -/
def waitsFor (request : String) : Bool := request.endsWith ".ts"

def mustWait (o : Orchestrator) (request : String) : Bool := waitsFor request && o.ready.isPending

/-- Where requests that list the lazy routes are led to. -/
def contextTarget (o : BuildOptions) : Path :=
  if o.skipCodeGeneration then o.basePath else o.genDir

/-- The answer to a request for the modules below a directory. There is none as long as it has to
wait for the cycle on its way. -/
def answerContext? (o : Orchestrator) (r : ContextRequest) : Option ContextRequest :=
  if r.listsRoutes then
    if o.ready.isPending then none
    else some (r.answer (contextTarget o.options) o.published)
  else some r

end Orchestrator

end Precompile
