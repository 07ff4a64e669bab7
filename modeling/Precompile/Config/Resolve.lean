import Precompile.Config.Compiler
import Precompile.Config.Options
import Precompile.Pattern.Glob
import Precompile.Path.Map
import Precompile.Route.Reference

/-!
From options as they are given to what a build works with.

Relative paths are seen from the base path, which is the directory of the compiler's configuration
unless it is set.
-/

namespace Precompile

/-! ### Checking options -/

namespace UserOptions

/-- The first thing that is wrong with the options. -/
def validate (o : UserOptions) : Except ConfigError Unit :=
  if o.tsConfigPath = none ∨ o.tsConfigPath = some "" then .error .missingTsConfigPath
  else match o.entryModule.filter fun e => e = "" || e.startsWith "#" with
    | some e => .error (.invalid (.entryWithoutModule e))
    | none =>
      if o.i18nFormat.isSome && o.i18nFile.isNone then .error (.invalid .formatWithoutFile)
      else .ok ()

/-- Reads and checks the text of a table of settings. -/
def load (content : String) : Except ConfigError UserOptions :=
  match ofToml? content with
  | none => .error .malformedOptions
  | some o => o.validate.map fun _ => o

/-- Reads and checks a table of settings on the disk, seen from a working directory. -/
def loadFile (d : Disk) (cwd path : Path) : Except ConfigError UserOptions :=
  match d.read (Disk.seenFrom cwd path) with
  | .ok content => load content
  | .error e => .error (.unreadable path (.ofReadError e))

end UserOptions

/-! ### Locating the configuration -/

/-- Where the compiler's configuration is, and what paths are relative to. -/
structure ConfigLocation where
  tsConfigPath : Path
  basePath : Path
  deriving DecidableEq, Repr, Inhabited

def Path.lexicalJoin (base : Path) (relative : String) : Path := (base.join ⟨relative⟩).normalize

/-- Finds the configuration, seen from a working directory. -/
def ConfigLocation.find (o : UserOptions) (cwd : Path) (files : FileSystem) :
    Except ConfigError ConfigLocation :=
  match o.validate with
  | .error e => .error e
  | .ok () =>
    let tsConfigPath := cwd.lexicalJoin (o.tsConfigPath.getD "")
    let basePath := match o.basePath with
      | some base => cwd.lexicalJoin base
      | none =>
        if files.isDir tsConfigPath then tsConfigPath else tsConfigPath.parent?.getD cwd
    .ok ⟨tsConfigPath, basePath⟩

/-! ### Excluding roots -/

/-- Reads globs, seen from a base. -/
def Glob.readAll (patterns : List String) (base : Path) : Except ConfigError (List Glob) :=
  patterns.mapM fun pattern =>
    let g := parse pattern (some base)
    if g.fits then .ok g else .error (.oversizedGlob pattern)

/-- The globs of files that are no roots. -/
structure ExcludeFilter where
  patterns : List String
  globs : List Glob
  deriving Repr, Inhabited

namespace ExcludeFilter

def defaultPatterns : List String := ["**/*.spec.ts"]

/-- The filter of the given globs, seen from a base. -/
def make (patterns : Option (List String)) (base : Path) : Except ConfigError ExcludeFilter :=
  let patterns := patterns.getD defaultPatterns
  (Glob.readAll patterns base).map fun globs => ⟨patterns, globs⟩

def isExcluded (f : ExcludeFilter) (p : Path) : Bool := Glob.someMatches f.globs p

def keep (f : ExcludeFilter) (ps : List Path) : List Path := ps.filter fun p => !f.isExcluded p

end ExcludeFilter

/-! ### Resolved options -/

/-- Messages in another language. -/
structure Messages where
  file : Option String
  format : Option String
  locale : Option String
  deriving DecidableEq, Repr, Inhabited

/-- What a build works with. It is fixed when the build is set up. -/
structure BuildOptions where
  tsConfigPath : Path
  basePath : Path
  roots : List Path
  compiler : CompilerOptions
  codegen : CodegenOptions
  -- Where generated files are put.
  genDir : Path
  skipCodeGeneration : Bool
  typeChecking : Bool
  i18n : Messages
  entryModule : Option ModuleReference
  mainPath : Option Path
  -- Texts that take the place of files.
  overrides : PathMap String
  deriving Inhabited

namespace BuildOptions

/-- The name of the directory of generated files, unless it is set. -/
def defaultGenDir : String := "$$_gendir"

/-- The directory of generated files. -/
def genDirOf (base : Path) (codegen : CodegenOptions) : Path :=
  match codegen.genDir with
  | some dir => base.lexicalJoin dir
  | none => base.join ⟨defaultGenDir⟩

/-- The entry module: the one of the options as it is written, or else that of the configuration
with its path seen from the base. -/
def entryModuleOf (base : Path) (given configured : Option String) : Option ModuleReference :=
  match given, configured with
  | some entry, _ => some (.parse entry)
  | none, some entry =>
    let r := ModuleReference.parse entry
    some { r with module := (base.lexicalJoin r.module).text }
  | none, none => none

/-- What the options, the place of the configuration and its content come to. -/
def resolve (o : UserOptions) (l : ConfigLocation) (parsed : ParsedConfig) :
    Except ConfigError BuildOptions :=
  let base := l.basePath
  let genDir := genDirOf base parsed.codegen
  (ExcludeFilter.make o.exclude base).map fun filter => {
    tsConfigPath := l.tsConfigPath
    basePath := base
    roots := filter.keep parsed.roots
    compiler := parsed.compiler
    codegen := { parsed.codegen with genDir := some genDir.text }
    genDir
    skipCodeGeneration := o.skipCodeGeneration.getD false
    typeChecking := o.typeChecking.getD true
    i18n := ⟨o.i18nFile, o.i18nFormat, o.locale⟩
    entryModule := entryModuleOf base o.entryModule parsed.codegen.entryModule
    mainPath := o.mainPath.map base.lexicalJoin
    overrides := .ofList
      (o.hostOverrideFileSystem.entries.map fun (path, content) =>
        (base.lexicalJoin path, content)) }

end BuildOptions

end Precompile
