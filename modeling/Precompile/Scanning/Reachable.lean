import Precompile.Path.Exploration
import Precompile.Program.Checker
import Precompile.Scanning.Configuration
import Precompile.Sources.Fingerprint

/-!
The program of a list of roots: the roots, the scripts held in memory, and everything that their
relative imports lead to.
-/

namespace Precompile.Scanning

/-- The file as it is found, or the file of an earlier program if that has the same fingerprint. -/
def reuse (previous : Option Program) (fresh : SourceFile) : SourceFile :=
  match previous.bind fun P => P.file? fresh.path with
  | some old =>
    if Fingerprint.ofText old.content = Fingerprint.ofText fresh.content then
      { fresh with content := old.content }
    else fresh
  | none => fresh

def visitSource (previous : Option Program) (h : Host) (p : Path) :
    Except ReadError (Option SourceFile) :=
  (h.source p).map fun found => found.map (reuse previous)

/-- The normal paths that the relative imports of a file lead to. -/
def importsOf (h : Host) (f : SourceFile) : List Path := (h.importTargets f).map Path.normalize

/-- The normal paths that the exploration starts with: the roots and the scripts in memory. -/
def startingPaths (roots : List Path) (h : Host) : List Path :=
  (roots ++ (h.virtualModules.map WrittenFile.path).filter isScript).map Path.normalize

def exploreSources (roots : List Path) (previous : Option Program) (h : Host) :
    Explored SourceFile ReadError :=
  Path.explore (visitSource previous h) (importsOf h) h.cache.extent (startingPaths roots h) .empty

/-- Creates the program of the roots. It fails at the first file that is there but cannot be read;
what was read before is retained by the host either way. -/
def createProgram (roots : List Path) (options : CompilerOptions) (previous : Option Program)
    (h : Host) : Except HostError Program × Host :=
  let explored := exploreSources roots previous h
  let after := h.retainAll (explored.found.map SourceFile.path)
  match explored.failure with
  | some e => (.error (.source e), after)
  | none =>
    let files := OrderedMap.ofList (explored.found.map fun f => (f.path, f.content))
    (.ok ⟨roots, files, options⟩, after)

end Precompile.Scanning
