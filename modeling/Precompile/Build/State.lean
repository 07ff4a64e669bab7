/-!
What an orchestrator is doing.
-/

namespace Precompile

/-- The states of an orchestrator. -/
inductive BuildState where
  -- No cycle is on its way.
  | idle
  -- No cycle is on its way, and files have changed since the last one.
  | invalidated
  -- Factories are generated.
  | generating
  -- The program is created that is checked.
  | programBuilding
  -- The program is checked.
  | typeChecking
  -- Routes are looked for.
  | routeDiscovery
  -- What was found is published.
  | finalizing
  deriving DecidableEq, Repr, Inhabited

namespace BuildState

def isBusy : BuildState → Bool
  | idle | invalidated => false
  | _ => true

/-- The name of a state. -/
def text : BuildState → String
  | idle => "idle"
  | invalidated => "invalidated"
  | generating => "generating"
  | programBuilding => "program-building"
  | typeChecking => "type-checking"
  | routeDiscovery => "route-discovery"
  | finalizing => "finalizing"

end BuildState

end Precompile
