import Precompile.Diagnostic.Basic

/-!
The sessions that cycles report to.
-/

namespace Precompile

/-- What was reported to a session, and whether an orchestrator is bound to it. -/
structure Session where
  bound : Bool
  errors : List String
  warnings : List String
  diagnostics : List Diagnostic
  deriving DecidableEq, Repr, Inhabited

namespace Session

def fresh : Session := ⟨false, [], [], []⟩

def bind (s : Session) : Session := { s with bound := true }

/-- The session without an orchestrator bound to it. -/
def release (s : Session) : Session := { s with bound := false }

def pushError (s : Session) (message : String) : Session :=
  { s with errors := s.errors ++ [message] }

def pushWarning (s : Session) (message : String) : Session :=
  { s with warnings := s.warnings ++ [message] }

def record (s : Session) (ds : List Diagnostic) : Session :=
  { s with diagnostics := s.diagnostics ++ ds }

def hasErrors (s : Session) : Bool := !s.errors.isEmpty

end Session

end Precompile
