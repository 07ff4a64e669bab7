import Precompile.Config.Resolve
import Precompile.Diagnostic.Rendering
import Precompile.Program.Checker
import Precompile.Route.Map
import Precompile.Route.Reference

/-!
The collaborators of a build besides the type checker, and what can go wrong in a cycle.
-/

namespace Precompile

/-- Why factories could not be generated. -/
inductive GenerationError where
  -- A resource that a template names could not be loaded.
  | resource (path : Path) (reason : String)
  -- The generator failed on its own account.
  | failed (reason : String)
  -- The host failed.
  | host (e : HostError)
  deriving Repr, Inhabited

/-- The wording of an error. -/
def GenerationError.message : GenerationError → String
  | resource path reason => s!"failed to load resource {path.text}: {reason}"
  | failed reason => s!"code generation failed: {reason}"
  | host e => e.message

/-- Why a cycle failed. -/
inductive BuildError where
  -- The session has an orchestrator bound to it already.
  | duplicateSession
  | generation (e : GenerationError)
  -- There are diagnostics of the program as a whole.
  | typeCheck (ds : List Diagnostic)
  -- No program could be created.
  | host (e : HostError)
  deriving Repr, Inhabited

/-- The wording of an error. -/
def BuildError.message : BuildError → String
  | duplicateSession => "An orchestrator already exists for this compilation."
  | generation e => e.message
  | typeCheck ds => Diagnostic.aggregate ds
  | host e => e.message

/-- Loads the resources that templates name. -/
structure ResourceLoader where
  load : FileSystem → Path → Except GenerationError String

/-- What a build asks of a code generator. Writing and reading go through the host. -/
structure CodeGenerator where
  -- Generates what belongs to a program.
  generate : BuildOptions → ResourceLoader → Program → Host → Except GenerationError Unit × Host
  -- Lists the routes of the program as a whole.
  listAllRoutes : Program → Option ModuleReference → Host → RouteMap × Host

/-- What came of a run of the generator, the host afterwards, and the number of runs so far. -/
structure GeneratorRun where
  result : Except GenerationError Unit
  host : Host
  runs : Nat

/-- Runs the generator once more, unless generation is switched off. -/
def CodeGenerator.run (g : CodeGenerator) (o : BuildOptions) (loader : ResourceLoader) (P : Program)
    (h : Host) (runs : Nat) : GeneratorRun :=
  if o.skipCodeGeneration then ⟨.ok (), h, runs⟩
  else
    let (result, after) := g.generate o loader P h
    ⟨result, after, runs + 1⟩

/-- The collaborators of a build. -/
structure Collaborators where
  checker : TypeChecker
  generator : CodeGenerator
  resources : ResourceLoader

namespace ResourceLoader

def ofFiles : ResourceLoader where
  load files p := (files.read p).mapError fun e => .resource p e.message

/-- Reads resources from the disk, with the disk's own words where that fails. -/
def ofDisk : ResourceLoader where
  load files p :=
    (files.read p).mapError fun e => .resource p (UnreadableCause.ofReadError e).message

end ResourceLoader

end Precompile
