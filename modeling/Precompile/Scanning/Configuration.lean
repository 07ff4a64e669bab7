import Precompile.Config.Resolve
import Precompile.Host.Basic
import Precompile.Path.Exploration

/-!
The roots and options that a configuration names.

Listed files come first, in the order in which they are written. They are followed by the scripts
below the base path that some glob includes and none excludes, in the order of their paths.
-/

namespace Precompile.Scanning

/-! ### Lists of texts -/

/-- The list of texts under a key. -/
def textList? (raw : Json) (key : String) : Except ConfigError (Option (List String)) :=
  match raw.get? key with
  | none | some .null => .ok none
  | some (.array items) =>
    match items.mapM Json.string? with
    | some texts => .ok (some texts)
    | none => .error (.invalid (.notStrings key))
  | some _ => .error (.invalid (.notArray key))

/-! ### Scripts below a directory -/

/-- The names of directories that are not looked into. -/
def skippedNames : List String := ["node_modules", ".git"]

def scriptEnding : String := ".ts"

def isScript (p : Path) : Bool := p.text.endsWith scriptEnding

/-- What a directory holds: scripts, and directories to be looked into. -/
structure Folder where
  scripts : List Path
  folders : List Path
  deriving Repr, Inhabited

/-- Looks into a directory. -/
def openFolder (h : Host) (dir : Path) : Folder :=
  let children := (h.cache.list dir).map fun p => (p, p.fileName?.getD "", h.cache.isDir p)
  { scripts := children.filterMap fun (p, name, isDir) =>
      if !isDir && name.endsWith scriptEnding then some p else none
    folders := children.filterMap fun (p, name, isDir) =>
      if isDir && !skippedNames.contains name then some p else none }

/-- The scripts below a directory in order. -/
def scriptsBelow (h : Host) (base : Path) : List Path :=
  let explored : Explored Folder Empty :=
    Path.explore (fun dir => .ok (some (openFolder h dir))) Folder.folders h.cache.extent [base]
      .empty
  Path.sortDedup (explored.found.flatMap Folder.scripts)

/-! ### The configuration -/

/-- What is included when neither files nor globs are given. -/
def defaultInclude : List String := ["**/*"]

def defaultExclude : List String := ["node_modules/**"]

/-- The globs that are included, given those that are written and whether files are listed. -/
def includeOrDefault (written : Option (List String)) (hasFiles : Bool) : List String :=
  written.getD (if hasFiles then [] else defaultInclude)

/-- The roots: the listed files, and the scripts that globs select. Globs of excluded files are read
only if some files are included by globs. -/
def rootsOf (base : Path) (h : Host) (files : Option (List String))
    (included excluded : List String) : Except ConfigError (List Path) :=
  let listed := (files.getD []).map base.lexicalJoin
  if included.isEmpty then .ok listed
  else do
    let included ← Glob.readAll included base
    let excluded ← Glob.readAll excluded base
    return listed ++ (scriptsBelow h base).filter fun p =>
      Glob.someMatches included p && !Glob.someMatches excluded p && !p.isAmong listed

/-- The compiler's options in a configuration. -/
def compilerOptions (raw : Json) : Except ConfigError CompilerOptions :=
  match raw.get? "compilerOptions" with
  | none | some .null => .ok .empty
  | some (.object members) => .ok ⟨members⟩
  | some _ => .error (.invalid (.notObject "compilerOptions"))

/-- The options of code generation in a configuration. -/
def codegenOptions (raw : Json) : Except ConfigError CodegenOptions :=
  match raw.get? "angularCompilerOptions" with
  | none | some .null => .ok .empty
  | some value =>
    match CodegenOptions.ofJson value with
    | .ok o => .ok o
    | .error m => .error (.invalid (.mismatch "angularCompilerOptions" m))

/-- Interprets a configuration. Of several faults, the first one in the order of this definition is
told. -/
def readConfig (raw : Json) (base : Path) (h : Host) : Except ConfigError ParsedConfig := do
  let files ← textList? raw "files"
  let included ← textList? raw "include"
  let excluded ← textList? raw "exclude"
  let roots ← rootsOf base h files (includeOrDefault included files.isSome)
    (excluded.getD defaultExclude)
  let compiler ← compilerOptions raw
  let codegen ← codegenOptions raw
  return { roots, compiler, codegen }

end Precompile.Scanning
