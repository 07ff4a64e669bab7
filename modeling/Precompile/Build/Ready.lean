/-!
The signal by which others wait for a cycle to end.
-/

namespace Precompile

/-- How a cycle ended. -/
inductive CycleOutcome where
  | succeeded
  | failed
  deriving DecidableEq, Repr, Inhabited

/-- The signal: no cycle was started, one is on its way, or the last one has ended. -/
inductive Ready where
  | notStarted
  | pending
  | done (outcome : CycleOutcome)
  deriving DecidableEq, Repr, Inhabited

namespace Ready

def isPending : Ready → Bool
  | pending => true
  | _ => false

def outcome? : Ready → Option CycleOutcome
  | done outcome => some outcome
  | _ => none

/-- What a waiter hears. As long as a cycle is on its way it hears nothing. -/
def heard? (r : Ready) : Option (Option CycleOutcome) :=
  if r.isPending then none else some r.outcome?

/-- The signal once nobody can complete it any more. A cycle that is on its way has failed. -/
def abandon : Ready → Ready
  | pending => done .failed
  | r => r

end Ready

end Precompile
