import Precompile.Path.Normal

/-!
Normalizing a path while it is written.

No list of components is kept: what was read so far is a path itself, written further with each
component, and a climb cuts its last name off.
-/

namespace Precompile

namespace Path

/-- The path after a climb, if there is something to climb out of: a name is cut off, and the root
stays. -/
def climbed? (done : Path) : Option Path :=
  match done.components.getLast? with
  | some (.name _) => done.parent?
  | some .root => some done
  | _ => none

/-- Writes the path further. A `.` is not written, and a `..` only where there is nothing to climb
out of. -/
def extend (done : Path) : Component → Path
  | .here => done
  | .up => done.climbed?.getD (done.join ⟨Component.up.text⟩)
  | c => done.join ⟨c.text⟩

def normalizeStepwise (p : Path) : Path := p.components.foldl extend ⟨""⟩

end Path

end Precompile
