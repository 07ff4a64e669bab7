import Precompile.Sources.Cache
import Precompile.Script.Imports

/-!
The host: what a compiler asks about files and modules.

Modules written for the compiler alone are handed on to a registry, from which a bundler takes them.
-/

namespace Precompile

/-- The modules that a bundler takes from memory. -/
abbrev Registry := PathMap String

/-- A cache, the directory that specifiers are looked up from, and the modules handed on so far. -/
structure Host where
  cache : SourceCache
  base : Path
  published : List Path
  deriving Inhabited

namespace Host

def ofFiles (files : FileSystem) (base : Path) : Host := ⟨.ofFiles files, base.normalize, []⟩

def mapCache (h : Host) (f : SourceCache → SourceCache) : Host := { h with cache := f h.cache }

def mapFiles (h : Host) (f : FileSystem → FileSystem) : Host :=
  h.mapCache fun c => { c with files := f c.files }

/-! ### Reading -/

/-- An answer in which a missing file is not an error. -/
def orMissing {α : Type} : Except ReadError α → Except ReadError (Option α)
  | .ok a => .ok (some a)
  | .error e => if e.isNotFound then .ok none else .error e

def read (h : Host) (p : Path) : Except ReadError (Option String) := orMissing (h.cache.serve p)

def source (h : Host) (p : Path) : Except ReadError (Option SourceFile) :=
  orMissing (h.cache.source p)

def retainAll (h : Host) (ps : List Path) : Host := h.mapCache (·.retainAll ps)

/-- Specifiers that are looked up from the directory of the file that names them. -/
def isRelative (specifier : String) : Bool :=
  Script.isRelativeSpecifier specifier || specifier = "." || specifier = ".."

/-- What may be added to a specifier to make it a file, in the order in which it is tried. -/
def moduleEndings : List String := ["", ".ts", ".d.ts", "/index.ts"]

/-- The path that a specifier stands for before anything is added. -/
def moduleStem (h : Host) (specifier : String) (containing : Path) : Path :=
  let anchor := if isRelative specifier then containing.parent?.getD h.base else h.base
  (anchor.join ⟨specifier⟩).normalize

/-- The file that a specifier stands for in a containing file. -/
def resolve? (h : Host) (specifier : String) (containing : Path) : Option Path :=
  let stem := h.moduleStem specifier containing
  (moduleEndings.map fun ending => Path.mk (stem.text ++ ending)).find? h.cache.isFile

/-- The files that the relative imports of a source lead to, in order. -/
def importTargets (h : Host) (f : SourceFile) : List Path :=
  ((Script.scanImports f.tokens).filter (·.isRelative)).filterMap
    fun i => h.resolve? i.specifier f.path

/-! ### Handing on -/

/-- The written files that are not output of the build. -/
def virtualModules (h : Host) : List WrittenFile := h.cache.writtenFiles.filter fun f => !f.emit

/-- What comes of handing modules on. -/
structure Handover where
  registry : Registry
  -- The number of modules that were handed on.
  count : Nat
  host : Host
  deriving Inhabited

/-- Registers the modules held in memory, and withdraws those handed on before that are there no
longer. -/
def populate (h : Host) (r : Registry) : Handover :=
  let current := h.virtualModules
  let paths := current.map (·.path)
  let registered := current.foldl (fun (r : Registry) f => r.insert f.path f.content) r
  let gone := h.published.filter fun p => !p.isAmong paths
  ⟨gone.foldl (fun (r : Registry) p => r.erase p) registered, current.length,
    { h with published := paths }⟩

end Host

end Precompile
