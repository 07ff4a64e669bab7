import Precompile.Diagnostic.Basic
import Precompile.Script.Bytewise

/-!
Places of a text, looked up in an index of its lines.

The index holds the place where each line starts, and the line of a place is found by halving. What
is shown of the line is cut out of the text between the line breaks around the place. Numbers are
kept in 32 bits. The look-up breaks off (`none`) where a difference would go below zero, where a sum
would not fit, where it would leave the index, and where it would cut a character.
-/

namespace Precompile.Script.LineIndex

open Bytewise (bytes kept)

/-- The places behind the line breaks among the bytes from `i` on. -/
def behindBreaks (i : Nat) : List UInt8 → List Nat
  | [] => []
  | b :: bs =>
    if b = 10 then kept (i + 1) :: behindBreaks (i + 1) bs else behindBreaks (i + 1) bs

def ofText (cs : List Char) : List Nat := 0 :: behindBreaks 0 (bytes cs)

/-! ### Lines and columns -/

/-- Looks for a place among ascending ones from number `lo` up to number `hi`: the number that it
has, or else the number that it would have if it were put in. -/
def search (starts : List Nat) (i lo hi : Nat) : Except Nat Nat :=
  if lo < hi then
    let mid := (lo + hi) / 2
    let start := starts.getD mid 0
    if start < i then search starts i (mid + 1) hi
    else if start = i then .ok mid
    else search starts i lo mid
  else .error lo
termination_by hi - lo

def minus? (m n : Nat) : Option Nat := if n ≤ m then some (m - n) else none

def plus? (m n : Nat) : Option Nat := if m + n < Nat.pow 2 32 then some (m + n) else none

/-- The number of the last line that does not start behind a place, counted from zero. -/
def lineOf? (starts : List Nat) (i : Nat) : Option Nat :=
  match search starts i 0 starts.length with
  | .ok n => some n
  | .error n => minus? n 1

/-- The 1-based line and column of a place. -/
def lineColumn? (starts : List Nat) (i : Nat) : Option (Nat × Nat) := do
  let n ← lineOf? starts i
  let line ← plus? (kept n) 1
  let start ← starts[n]?
  let column ← plus? (← minus? i start) 1
  return (line, column)

/-! ### The line that is shown -/

/-- The place of the first line break. -/
def firstBreak? : List Char → Option Nat
  | [] => none
  | c :: cs => if c = '\n' then some 0 else (firstBreak? cs).map (charWidth c + ·)

/-- The place of the last line break. -/
def lastBreak? : List Char → Option Nat
  | [] => none
  | c :: cs => match lastBreak? cs with
    | some i => some (charWidth c + i)
    | none => if c = '\n' then some 0 else none

/-- The text between the line breaks around a place. A place past the end counts as the end. -/
def shownAround? (cs : List Char) (i : Nat) : Option (List Char) := do
  let i := min i (width cs)
  let before ← takeBytes? i cs
  let after ← dropBytes? i cs
  let start := ((lastBreak? before).map (· + 1)).getD 0
  let stop := ((firstBreak? after).map (i + ·)).getD (width cs)
  slice? start stop cs

end Precompile.Script.LineIndex

namespace Precompile.Diagnostic

open Script

/-- The diagnostic for the bytes from `start` to `stop` of a file, with the line and the column that
the index of the file's lines gives. -/
def placed? (d : Diagnostic) (f : SourceFile) (start stop : Nat) : Option Diagnostic := do
  let (line, column) ← LineIndex.lineColumn? (LineIndex.ofText f.content.toList) start
  let shown ← LineIndex.shownAround? f.content.toList start
  return { d with
    location := some ⟨f.path, line, column⟩
    sourceLine := some (String.ofList shown)
    spanLength := stop - start }

end Precompile.Diagnostic
