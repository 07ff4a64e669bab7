import Precompile.Path.Map
import Precompile.Diagnostic.Basic

/-!
Route maps, and the table in which the maps of successive passes are merged.
-/

namespace Precompile

/-- The file that each route key leads to, in the order of the keys; none where the target could
not be resolved. -/
abbrev RouteMap := TextMap (Option Path)

namespace RouteMap

def resolved (m : RouteMap) : List (String × Path) :=
  m.entries.filterMap fun (key, path) => path.map (key, ·)

end RouteMap

/-- A route that led to one file before and leads to another one now. -/
structure RouteConflict where
  key : String
  previous : Path
  current : Path
  deriving DecidableEq, Repr, Inhabited

namespace RouteConflict

/-- The wording of the warning. -/
def warningText : String :=
  "Duplicated path in loadChildren detected during a rebuild. " ++
  "We will take the latest version detected and override it to save rebuild time. " ++
  "You should perform a full build to validate that your routes don't overlap."

def toDiagnostic (c : RouteConflict) : Diagnostic :=
  (Diagnostic.warning .build 1 warningText).withNote
    s!"route '{c.key}' moved from {c.previous.text} to {c.current.text}"

end RouteConflict

namespace RouteMap

/-- The conflict between an earlier and a later value of a key: both are files, and not the
same. -/
def conflict? (key : String) : Option (Option Path) → Option Path → Option RouteConflict
  | some (some previous), some current =>
    if previous.Same current then none else some ⟨key, previous, current⟩
  | _, _ => none

/-- Takes over the routes that were found. Those found win; those not found stay as they are. -/
def merge (table found : RouteMap) : RouteMap := table.insertAll found.entries

/-- The conflicts between a table and what was found, in the order of the keys. -/
def conflicts (table found : RouteMap) : List RouteConflict :=
  found.entries.filterMap fun (key, current) => conflict? key (table.get? key) current

end RouteMap

end Precompile
