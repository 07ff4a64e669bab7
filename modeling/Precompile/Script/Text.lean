/-!
Positions in a text, counted in bytes of its UTF-8 form.
-/

namespace Precompile.Script

def charWidth (c : Char) : Nat := c.utf8Size

def width : List Char → Nat
  | [] => 0
  | c :: cs => charWidth c + width cs

/-- What is left of a text after its first `n` bytes; nothing if they end inside a character or
past the end. -/
def dropBytes? : Nat → List Char → Option (List Char)
  | 0, cs => some cs
  | _ + 1, [] => none
  | n + 1, c :: cs => if charWidth c ≤ n + 1 then dropBytes? (n + 1 - charWidth c) cs else none
termination_by _ cs => cs.length

/-- The first `n` bytes of a text, if they are whole characters. -/
def takeBytes? : Nat → List Char → Option (List Char)
  | 0, _ => some []
  | _ + 1, [] => none
  | n + 1, c :: cs =>
    if charWidth c ≤ n + 1 then (takeBytes? (n + 1 - charWidth c) cs).map (c :: ·) else none
termination_by _ cs => cs.length

/-- The bytes from `start` up to `stop`, if both lie between characters and in this order. -/
def slice? (start stop : Nat) (cs : List Char) : Option (List Char) :=
  if start ≤ stop then (dropBytes? start cs).bind (takeBytes? (stop - start)) else none

/-- The offsets at which the lines of a text start; `pos` is the offset of the text. -/
def lineStartsFrom (pos : Nat) : List Char → List Nat
  | [] => []
  | c :: cs =>
    let next := pos + charWidth c
    if c = '\n' then next :: lineStartsFrom next cs else lineStartsFrom next cs

/-- The offsets at which the lines of a text start. -/
def lineStarts (cs : List Char) : List Nat := 0 :: lineStartsFrom 0 cs

def columnBound : Nat := Nat.pow 2 32

/-- The 1-based line and column of an offset, among the given line starts: the line is that of
the last start that is not after the offset. -/
def lineColumnIn (starts : List Nat) (offset : Nat) : Nat × Nat :=
  let before := starts.takeWhile (· ≤ offset)
  (before.length, (offset - before.getLast?.getD 0 + 1) % columnBound)

/-- The 1-based line and column of an offset in a text. -/
def lineColumn (cs : List Char) (offset : Nat) : Nat × Nat :=
  lineColumnIn (lineStarts cs) offset

/-- The line of text around an offset, from the line break before it to the one after it. An
offset past the end counts as the end. -/
def lineAround? (offset : Nat) (cs : List Char) : Option (List Char) :=
  let offset := min offset (width cs)
  (takeBytes? offset cs).bind fun before =>
    (dropBytes? offset cs).map fun after =>
      (before.reverse.takeWhile (· != '\n')).reverse ++ after.takeWhile (· != '\n')

end Precompile.Script
