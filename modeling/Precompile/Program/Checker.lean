import Precompile.Diagnostic.Basic
import Precompile.Host.Basic
import Precompile.Program.Basic

/-!
Type checkers, and the programs that were created with one.

A checker is a collaborator: nothing is assumed about how it answers. It may read and write through
the host, so its answers come together with the host afterwards.
-/

namespace Precompile

/-- Why the host or the checker could not answer. -/
inductive HostError where
  -- A file could not be read.
  | source (e : ReadError)
  -- The configuration is malformed.
  | config (e : ConfigError)
  -- No program could be built.
  | program (reason : String)
  deriving Repr, Inhabited

/-- The wording of an error. -/
def HostError.message : HostError → String
  | source e => e.message
  | config e => e.message
  | program reason => s!"program creation failed: {reason}"

/-- What a build asks of a type checker. -/
structure TypeChecker where
  -- Interprets a configuration, seen from a base path.
  parseConfig : Json → Path → Host → Except HostError ParsedConfig × Host
  -- Creates a program from roots and options. Files may be taken over from an earlier program.
  createProgram :
    List Path → CompilerOptions → Option Program → Host → Except HostError Program × Host
  -- What is wrong with the program as a whole.
  globalDiagnostics : Program → List Diagnostic
  -- What is wrong with the form of a file.
  syntacticDiagnostics : Program → Path → List Diagnostic
  -- What is wrong with the meaning of a file.
  semanticDiagnostics : Program → Path → List Diagnostic
  -- What is wrong with the declarations that a file gives.
  declarationDiagnostics : Program → Path → List Diagnostic

/-- The last program that was created, how many were, and the revision of the host's cache that the
last one was created at. -/
structure Programs where
  current : Option Program
  creations : Nat
  createdAt : Option Nat
  deriving Inhabited

namespace Programs

def empty : Programs := ⟨none, 0, none⟩

/-- The cache has moved on since the last program was created. -/
def isStale (ps : Programs) (h : Host) : Bool := ps.createdAt ≠ some h.cache.revision

/-- Creates a program. Where that fails, the last program stays. -/
def create (ps : Programs) (checker : TypeChecker) (roots : List Path) (options : CompilerOptions)
    (h : Host) : Except HostError Program × Programs × Host :=
  match checker.createProgram roots options ps.current h with
  | (.ok P, after) => (.ok P, ⟨some P, ps.creations + 1, some h.cache.revision⟩, after)
  | (.error e, after) => (.error e, ps, after)

end Programs

end Precompile
