import Precompile.Path.Map

/-!
The queue of paths that changed between cycles.
-/

namespace Precompile

/-- Paths that were reported as changed and wait for the next cycle. -/
structure InvalidationQueue where
  pending : PathSet
  deriving Inhabited

namespace InvalidationQueue

def empty : InvalidationQueue := ⟨.empty⟩

def push (q : InvalidationQueue) (p : Path) : InvalidationQueue := ⟨OrderedSet.insert q.pending p⟩

def pushAll (q : InvalidationQueue) (ps : List Path) : InvalidationQueue :=
  ⟨OrderedSet.insertAll q.pending ps⟩

def toList (q : InvalidationQueue) : List Path := q.pending.keys

def size (q : InvalidationQueue) : Nat := q.pending.size

end InvalidationQueue

end Precompile
