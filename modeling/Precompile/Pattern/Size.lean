import Precompile.Pattern.Glob

/-!
How large the matcher of a glob is.

A glob is matched by two automata: one reads a path from its beginning, the other one from its end.
They read bytes, so a character that is not fixed is spelled out as the sequences of bytes that may
encode it. A glob is refused if one of its automata is too large.
-/

namespace Precompile

/-- The way in which an automaton reads a path. -/
inductive Direction where
  | forward
  | backward
  deriving DecidableEq, Repr, Inhabited

def totalSize (sizes : List Nat) : Nat := sizes.foldr (· + ·) 0

/-! ### Parts of an automaton -/

def stateSize : Nat := 32

/-- The bytes of a way out of a state that branches. -/
def branchSize : Nat := 4

/-- The bytes of a way out of a state that depends on the next byte. -/
def byteRangeSize : Nat := 8

/-- The lengths of the sequences of bytes that encode all characters but one of a single byte. A
sequence stands for all encodings whose bytes lie in the same ranges. -/
def encodingLengths : List Nat := [1, 1, 2, 3, 3, 3, 3, 4, 4, 4]

/-- The bytes for any character but one of a single byte. From its beginning, sequences with the
same remaining bytes share their states; from its end, every sequence has states of its own. -/
def Direction.characterSize : Direction → Nat
  | forward =>
    let shared := 7
    (shared + 2) * stateSize + (encodingLengths.length + shared) * byteRangeSize
  | backward => (totalSize encodingLengths + 2) * stateSize + encodingLengths.length * branchSize

/-- The bytes for something that may be repeated: it is entered and left at a state that
branches. -/
def repeatedSize (inner : Nat) : Nat := stateSize + 2 * branchSize + inner

/-- The bytes for something that may be left out: both ways meet again. -/
def optionalSize (inner : Nat) : Nat := stateSize + 2 * branchSize + inner + stateSize

/-! ### The whole -/

/-- The bytes for a part of a glob. -/
def GlobPart.size (d : Direction) : GlobPart → Nat
  | literal c => c.utf8Size * stateSize
  | single => d.characterSize
  | segment => repeatedSize d.characterSize
  | anything => repeatedSize d.characterSize
  | directories => optionalSize (repeatedSize d.characterSize + stateSize)

namespace Glob

/-- The bytes around the parts: a start, a match, and a test for either end of the path. Only the
automaton that reads forward marks where a match begins and ends. -/
def frameSize : Direction → Nat
  | .forward => 6 * stateSize
  | .backward => 4 * stateSize

/-- The bytes for the base and the slash after it. -/
def baseSize : Option (List Char) → Nat
  | some b => optionalSize ((totalSize (b.map Char.utf8Size) + 1) * stateSize)
  | none => 0

/-- The bytes of an automaton that matches a glob. -/
def size (d : Direction) (g : Glob) : Nat :=
  frameSize d + baseSize g.base + totalSize (g.parts.map (GlobPart.size d))

def sizeLimit : Nat := 10 * 1024 * 1024

def fits (g : Glob) : Bool :=
  decide (g.size .forward ≤ sizeLimit) && decide (g.size .backward ≤ sizeLimit)

end Glob

end Precompile
