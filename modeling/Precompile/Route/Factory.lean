import Precompile.Route.Map
import Precompile.Route.Reference

/-!
Leading routes to the generated factories of their modules.
-/

namespace Precompile

/-- Where generated files are put, and whether any are generated. -/
structure FactoryPlan where
  base : Path
  genDir : Path
  skip : Bool
  deriving DecidableEq, Repr, Inhabited

namespace FactoryPlan

/-- The mark of route keys and file names that belong to factories. -/
def mark : String := ".ngfactory"

/-- A file name without the ending of scripts or of declaration files. -/
def stem (name : List Char) : List Char :=
  (ModuleReference.stripSuffix? ".d.ts".toList name).getD <|
    (ModuleReference.stripSuffix? ".ts".toList name).getD name

/-- The factory of a module: the same place as seen from the base, below the directory of generated
files, with the mark in its name. -/
def factoryPath (plan : FactoryPlan) (source : Path) : Path :=
  let relative := (source.relativeTo plan.base).text.toList
  (plan.genDir.join ⟨String.ofList (stem relative) ++ mark ++ ".ts"⟩).normalize

/-- The routes as they are published: each key is marked and each file is replaced by its factory.
Without generation they stay as they are. -/
def apply (plan : FactoryPlan) (routes : RouteMap) : RouteMap :=
  if plan.skip then routes
  else .ofList (routes.entries.map fun (key, path) => (key ++ mark, path.map plan.factoryPath))

end FactoryPlan

end Precompile
