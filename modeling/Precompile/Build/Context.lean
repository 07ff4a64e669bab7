import Precompile.Route.Map

/-!
Requests to resolve the modules that a dynamic import may name.

Those of the linker are answered with the lazy routes.
-/

namespace Precompile

/-- A dependency that was found before. -/
structure Dependency where
  request : String
  -- Whether it is an error if the target is missing.
  critical : Bool
  deriving DecidableEq, Repr, Inhabited

/-- A lazy route that a request is answered with. -/
structure ContextDependency where
  request : String
  path : Path
  deriving DecidableEq, Repr, Inhabited

/-- A request to resolve the modules below a directory. -/
structure ContextRequest where
  resource : Path
  recursive : Bool
  dependencies : List Dependency
  contextDependencies : List ContextDependency
  deriving DecidableEq, Repr, Inhabited

namespace ContextRequest

/-- The end of the resources whose requests list the lazy routes. -/
def marker : String := "@angular/core/src/linker"

/-- The text of a path with forward slashes, and without those at its end. -/
def trimmedText (p : Path) : List Char :=
  let forward := p.text.toList.map fun c => if c = '\\' then '/' else c
  (forward.reverse.dropWhile (· == '/')).reverse

def listsRoutes (r : ContextRequest) : Bool := marker.toList.isSuffixOf (trimmedText r.resource)

/-- The request as it is handed on: it asks for what is below a target, and lists the routes that
lead to a file. -/
def answer (r : ContextRequest) (target : Path) (routes : RouteMap) : ContextRequest where
  resource := target
  recursive := true
  dependencies := r.dependencies.map fun d => { d with critical := false }
  contextDependencies := routes.resolved.map fun (key, path) => ⟨key, path⟩

end ContextRequest

end Precompile
