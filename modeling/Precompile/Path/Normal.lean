import Precompile.Path.Basic

/-!
Normal paths and relative paths, computed from the text alone.

A normal path has no `.`, no doubled or trailing slash, and `..` only where nothing is left to
climb out of. Every key of a store of sources is normal, so that all spellings of a path find the
same entry.
-/

namespace Precompile

namespace Path

/-- Puts a component on the components read so far, the last one first. A `.` is dropped; a `..`
takes away a name, stays at the root, and is kept otherwise. -/
def pushComponent (done : List Component) : Component → List Component
  | .here => done
  | .up =>
    match done with
    | .name _ :: rest => rest
    | .root :: _ => done
    | _ => .up :: done
  | c => c :: done

def normalComponents (cs : List Component) : List Component :=
  (cs.foldl pushComponent []).reverse

def normalize (p : Path) : Path :=
  ofComponents (normalComponents p.components)

def IsNormal (p : Path) : Prop := p.normalize = p

instance (p : Path) : Decidable p.IsNormal :=
  inferInstanceAs (Decidable (p.normalize = p))

/-- The number of components that two lists have in common at their beginning. -/
def commonPrefix : List Component → List Component → Nat
  | a :: as, b :: bs => if a = b then commonPrefix as bs + 1 else 0
  | _, _ => 0

/-- `p` as seen from `base`: one climb for each component of `base` that is not shared, and then
what is left of `p`. -/
def relativeTo (p base : Path) : Path :=
  match p.stripPrefix? base with
  | some rest => rest
  | none =>
    let shared := commonPrefix p.components base.components
    ofComponents (List.replicate (base.components.length - shared) .up ++ p.components.drop shared)

end Path

end Precompile
