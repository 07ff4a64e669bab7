import Precompile.CommandLine.Watch

/-!
The commands that run a single cycle.
-/

namespace Precompile.CommandLine

/-- What a command printed, and its exit code. -/
structure Answer where
  exit : Nat
  output : Output
  deriving DecidableEq, Repr, Inhabited

def versionLine : String := "aot 0.1.0"

def versionAnswer : Answer := ⟨0, .result versionLine⟩

/-- The answer where there is no project to work on. -/
def refusal (e : ProjectError) : Answer := ⟨1, errorLine e.message⟩

def diagnoseRoots (o : Orchestrator) (s : Session) : Orchestrator × Session :=
  o.options.roots.foldl (fun (o, s) p => o.diagnose collaborators p s) (o, s)

/-- Runs one cycle and reports. The roots are diagnosed if that is asked for and the cycle
succeeds. -/
def runOnce (format : ReportFormat) (checkRoots : Bool) (style : Style) (o : Orchestrator) : Answer :=
  let announced := style.unlessQuiet (.message ("   Building " ++ o.options.tsConfigPath.text))
  let cycle := o.make collaborators .fresh
  let (o, s) :=
    if checkRoots && cycle.stage.outcome? = some .succeeded then
      diagnoseRoots cycle.orchestrator cycle.session
    else (cycle.orchestrator, cycle.session)
  ⟨exitCode s, announced ++ report format style o s⟩

/-- Runs one cycle and prints the routes. -/
def runRoutes (o : Orchestrator) : Answer :=
  let cycle := o.make collaborators .fresh
  ⟨exitCode cycle.session,
    Output.join (cycle.session.errors.map errorLine) ++
      .result (routesJson cycle.orchestrator.routes).pretty⟩

/-- What is left to do after the project was opened. -/
inductive Work where
  | answered (a : Answer)
  -- Files are watched until so many cycles were run after the first.
  | watching (interval : Nat) (limit : Option Nat) (w : Watcher)

/-- Does in a working directory what a command asks for, as far as that needs no waiting. -/
def perform (i : Invocation) (style : Style) (d : Disk) (cwd : Path) : Work :=
  match openProject d cwd i.config with
  | .error e => .answered (refusal e)
  | .ok o =>
    match i.command with
    | .build format => .answered (runOnce format false style o)
    | .check format => .answered (runOnce format true style o)
    | .routes => .answered (runRoutes o)
    | .watch interval limit => .watching interval limit (.ofOrchestrator o)

end Precompile.CommandLine
