import Precompile.Build.Collaborators
import Precompile.Factory.Rendering
import Precompile.Route.Discovery
import Precompile.Route.Factory
import Precompile.Scanning.Configuration

/-!
The generator of factories.

Every decorated class that is reached from the program gets a factory, also one that only a lazy
route leads to. A factory that is there already with the same text is not written again, and
factories that no longer belong to a class are retired.
-/

namespace Precompile.Factory

def declarationEnding : String := ".d.ts"

/-- A script that may get a factory: no declaration file, and not generated itself. -/
def isInput (o : BuildOptions) (p : Path) : Bool :=
  Scanning.isScript p && !p.text.endsWith declarationEnding && !p.startsWith o.genDir

def planOf (o : BuildOptions) : FactoryPlan := ⟨o.basePath, o.genDir, o.skipCodeGeneration⟩

/-- The place of a resource that is named by a file. -/
def resourcePath (source : Path) (url : String) : Path :=
  (directoryOf source).lexicalJoin url

/-- Loads resources one after the other. -/
def loadAll (load : Path → Except GenerationError String) :
    List Path → Except GenerationError Unit
  | [] => .ok ()
  | p :: ps =>
    match load p with
    | .ok _ => loadAll load ps
    | .error e => .error e

/-- Has the host serve a text at a path. Nothing is written where it does so already. -/
def provide (target : Path) (content : String) (h : Host) : Except GenerationError Unit × Host :=
  match h.read target with
  | .error e => (.error (.host (.source e)), h)
  | .ok served =>
    let read := h.retainAll [target]
    if served = some content then (.ok (), read)
    else (.ok (), read.mapCache fun c => c.write target content false)

/-- Generates the factory of a file, if it has decorated classes, and gives its place. -/
def generateFor (o : BuildOptions) (loader : ResourceLoader) (f : SourceFile) (h : Host) :
    Except GenerationError (Option Path) × Host :=
  let classes := decoratedClasses f
  if !isInput o f.path || classes.isEmpty then (.ok none, h)
  else
    let urls := classes.flatMap DecoratedClass.templateUrls
    match loadAll (loader.load h.cache.files) (urls.map (resourcePath f.path)) with
    | .error e => (.error e, h)
    | .ok () =>
      let target := (planOf o).factoryPath f.path
      match provide target (render f.path target classes o.i18n.locale) h with
      | (.ok (), after) => (.ok (some target), after)
      | (.error e, after) => (.error e, after)

/-- Generates the factories of several files, and gives their places. -/
def generateAll (o : BuildOptions) (loader : ResourceLoader) :
    List SourceFile → Host → Except GenerationError (List Path) × Host
  | [], h => (.ok [], h)
  | f :: fs, h =>
    match generateFor o loader f h with
    | (.error e, after) => (.error e, after)
    | (.ok target, after) =>
      match generateAll o loader fs after with
      | (.error e, last) => (.error e, last)
      | (.ok targets, last) => (.ok (target.toList ++ targets), last)

/-- Loads the messages in another language, if there are any. -/
def loadMessages (o : BuildOptions) (loader : ResourceLoader) (h : Host) :
    Except GenerationError Unit :=
  loadAll (loader.load h.cache.files) (o.i18n.file.map fun f => o.basePath.join ⟨f⟩).toList

/-- The files that are reached from the program's inputs. -/
def reachedFiles (o : BuildOptions) (P : Program) (h : Host) : List SourceFile :=
  Route.reach P h (P.paths.filter (isInput o))

/-- Generates the factories that belong to a program and retires the others. Nothing is retired
where something fails. -/
def generate (o : BuildOptions) (loader : ResourceLoader) (P : Program) (h : Host) :
    Except GenerationError Unit × Host :=
  match loadMessages o loader h with
  | .error e => (.error e, h)
  | .ok () =>
    let reached := reachedFiles o P h
    match generateAll o loader reached (Route.afterReach P h reached) with
    | (.error e, after) => (.error e, after)
    | (.ok produced, after) => (.ok (), after.mapCache fun c => c.retire o.genDir produced)

def generator : CodeGenerator where
  generate := generate
  listAllRoutes := Route.listAll

end Precompile.Factory
