import Precompile.Host.Basic
import Precompile.Path.Exploration
import Precompile.Program.Basic
import Precompile.Route.Map
import Precompile.Route.Scan

/-!
Finding the routes of files, and the files that routes and imports lead to.

Routes can be looked for in all files that are reached from a start, or in those files of a program
that changed.
-/

namespace Precompile.Route

/-! ### One file -/

/-- The routes of a file, with the files that the host finds for them. Of two routes with one key,
the later one counts. -/
def ofFile (h : Host) (f : SourceFile) : RouteMap :=
  .ofList ((scan f.tokens).map fun s =>
    (s.reference.storageKey, h.resolve? s.reference.module f.path))

/-- The routes of several files, a later file winning. -/
def ofFiles (h : Host) (fs : List SourceFile) : RouteMap :=
  fs.foldl (fun (m : RouteMap) f => m.insertAll (ofFile h f).entries) .empty

/-! ### The files that changed -/

/-- The changed paths that are files of the program. -/
def scannedOf (P : Program) (changed : List Path) : List Path := changed.filter P.contains

def ofChanged (P : Program) (h : Host) (changed : List Path) : RouteMap :=
  ofFiles h (changed.filterMap P.file?)

/-! ### The files that are reached -/

/-- The file at a path: the program's, or else the host's. Files that cannot be read are passed
over. -/
def fileAt? (P : Program) (h : Host) (p : Path) : Option SourceFile :=
  match P.file? p with
  | some f => some f
  | none =>
    match h.source p with
    | .ok found => found
    | .error _ => none

/-- The files that a file leads to: those of its routes in the order of their keys, then those of
its relative imports. -/
def successors (h : Host) (f : SourceFile) : List Path :=
  (ofFile h f).resolved.map Prod.snd ++ h.importTargets f

/-- The files that are reached from a start, each once, in the order in which they are reached. -/
def reach (P : Program) (h : Host) (start : List Path) : List SourceFile :=
  let explored : Explored SourceFile Empty :=
    Path.explore (fun p => .ok (fileAt? P h p)) (successors h) (P.files.size + h.cache.extent) start
      .empty
  explored.found

/-- The host after files were reached: those that are not the program's were read. -/
def afterReach (P : Program) (h : Host) (reached : List SourceFile) : Host :=
  h.retainAll ((reached.map SourceFile.path).filter fun p => !P.contains p)

/-- Where the search for all routes starts: at the entry module, if the program contains it, and
otherwise at every file of the program. -/
def startOfAll (P : Program) (entry : Option ModuleReference) (h : Host) : List Path :=
  match entry.bind fun e => h.resolve? e.module (h.base.join ⟨"index.ts"⟩) with
  | some p => if P.contains p then [p] else P.paths
  | none => P.paths

/-- All routes that are reached from the entry module. -/
def listAll (P : Program) (entry : Option ModuleReference) (h : Host) : RouteMap × Host :=
  let reached := reach P h (startOfAll P entry h)
  (ofFiles h reached, afterReach P h reached)

end Precompile.Route
