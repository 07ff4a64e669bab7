import Precompile.Build.Cycle
import Precompile.Factory.Generator
import Precompile.Scanning.Findings

/-!
Finding the project that a command works on.

Its configuration is in the nearest `aot.toml` above the working directory, unless another file or
directory is named. Paths in it are seen from the directory it is in.
-/

namespace Precompile.CommandLine

/-- The name of the file with the options of a project. -/
def configName : String := "aot.toml"

/-- Why there is no project to work on. -/
inductive ProjectError where
  -- There is no configuration above a directory.
  | noConfig (start : Path)
  | config (e : ConfigError)
  deriving Repr, Inhabited

def ProjectError.message : ProjectError → String
  | noConfig start => s!"could not find {configName} in {start.text} or any parent directory"
  | config e => e.message

/-- A path and `n` directories above it. -/
def ascend : Nat → Path → List Path
  | 0, p => [p]
  | n + 1, p =>
    match p.parent? with
    | some dir => p :: ascend n dir
    | none => [p]

/-- The nearest directory, from a start upward, with a configuration in it. -/
def findRoot? (d : Disk) (start : Path) : Option Path :=
  (ascend start.components.length start).find? fun dir => d.isThere (dir.join ⟨configName⟩)

/-- The file with the options of the project, as it is named. -/
def configFile (d : Disk) (cwd : Path) (named : Option String) : Except ProjectError Path :=
  match named with
  | some text =>
    if d.isDir (Disk.seenFrom cwd ⟨text⟩) then .ok ((Path.mk text).join ⟨configName⟩)
    else .ok ⟨text⟩
  | none =>
    match findRoot? d cwd with
    | some dir => .ok (dir.join ⟨configName⟩)
    | none => .error (.noConfig cwd)

/-- The directory that paths of the configuration are seen from. -/
def projectDir (cwd config : Path) : Path :=
  match config.parent? with
  | some dir => if dir.text = "" then cwd else cwd.join dir
  | none => cwd

def collaborators : Collaborators := ⟨Scanning.checker, Factory.generator, .ofDisk⟩

/-- The options of the project, and the directory that their paths are seen from. -/
def loadOptions (d : Disk) (cwd : Path) (named : Option String) :
    Except ProjectError (UserOptions × Path) :=
  match configFile d cwd named with
  | .error e => .error e
  | .ok config =>
    match UserOptions.loadFile d cwd config with
    | .ok given => .ok (given, projectDir cwd config)
    | .error e => .error (.config e)

/-- Sets up the build of the project. -/
def openProject (d : Disk) (cwd : Path) (named : Option String) :
    Except ProjectError Orchestrator :=
  match loadOptions d cwd named with
  | .error e => .error e
  | .ok (given, dir) =>
    (Orchestrator.setUp collaborators given dir (.disk d)).mapError .config

end Precompile.CommandLine
