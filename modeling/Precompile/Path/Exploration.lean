import Precompile.Path.Map

/-!
Exploring a graph of paths that comes to light while it is read.

Paths wait in a queue. Each one is visited once: it may hold nothing, hold something that leads on
to further paths, or fail and end the exploration.
-/

namespace Precompile

/-- What an exploration found, in the order of the visits, and the failure that ended it early. -/
structure Explored (β ε : Type) where
  found : List β
  failure : Option ε
  deriving Repr, Inhabited

namespace Explored

variable {β ε : Type}

def cons (b : β) (e : Explored β ε) : Explored β ε := { e with found := b :: e.found }

end Explored

namespace Path

variable {β ε : Type}

/-- What comes of looking for a path that holds something: there is none, a visit failed, or
something was found, and then what still waits and what was seen. -/
inductive Search (β ε : Type) where
  | finished
  | failed (e : ε)
  | found (b : β) (waiting : List Path) (seen : PathSet)

/-- Visits the waiting paths in order up to the first find. Paths in `seen` are passed over. -/
def search (visit : Path → Except ε (Option β)) : List Path → PathSet → Search β ε
  | [], _ => .finished
  | p :: waiting, seen =>
    if seen.contains p then search visit waiting seen
    else match visit p with
      | .error e => .failed e
      | .ok none => search visit waiting (OrderedSet.insert seen p)
      | .ok (some b) => .found b waiting (OrderedSet.insert seen p)

/-- Visits the waiting paths in order, and behind them those that each find leads on to. `budget`
bounds the number of finds, so that every chain of visits ends; it is taken from the number of things
that there are to be found. -/
def explore (visit : Path → Except ε (Option β)) (next : β → List Path)
    (budget : Nat) (waiting : List Path) (seen : PathSet) : Explored β ε :=
  match search visit waiting seen with
  | .finished => ⟨[], none⟩
  | .failed e => ⟨[], some e⟩
  | .found b waiting seen =>
    match budget with
    | 0 => ⟨[], none⟩
    | budget + 1 => (explore visit next budget (waiting ++ next b) seen).cons b

end Path

end Precompile
