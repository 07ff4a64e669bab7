import Precompile.Script.Lexing

/-!
Splitting a script into tokens by its bytes.

A place is a number of bytes of the UTF-8 form of a text. Most of the reading looks at single bytes
and moves on by one. A character is taken out at a place between two characters only, and a part of
the text between two such places. The reading breaks off (`none`) where it would cut a character or
leave the text, and where it would not get on. Offsets are kept in 32 bits.
-/

namespace Precompile.Script.Bytewise

/-- The bytes of a text. -/
def bytes (cs : List Char) : List UInt8 := cs.flatMap String.utf8EncodeChar

def size (cs : List Char) : Nat := (bytes cs).length

/-- The byte at a place, as the character with its number. Past the end it is zero. -/
def byteAt (cs : List Char) (i : Nat) : Char := ((bytes cs)[i]?.map Char.ofUInt8).getD '\x00'

/-- The character at a place, if it is not the end of the text. Fails inside a character and past
the end. -/
def charAt? (cs : List Char) (i : Nat) : Option (Option Char) := (dropBytes? i cs).map List.head?

/-- An offset as it is kept. -/
def kept (i : Nat) : Nat := i % Nat.pow 2 32

theorem lt_size_of_byteAt {cs : List Char} {i : Nat} {c : Char} (h : byteAt cs i = c)
    (nonzero : c ≠ '\x00') : i < size cs := by
  refine Nat.lt_of_not_le fun past => nonzero ?_
  rw [← h, byteAt, List.getElem?_eq_none past]
  rfl

variable (cs : List Char)

/-! ### Gaps -/

/-- The first place from `i` on whose byte does not satisfy `p`. -/
def skipWhile (p : Char → Bool) (i : Nat) : Nat :=
  if i < size cs ∧ p (byteAt cs i) then skipWhile p (i + 1) else i
termination_by size cs - i

theorem le_skipWhile (p : Char → Bool) (i : Nat) : i ≤ skipWhile cs p i := by
  fun_induction skipWhile cs p i with
  | case1 i _ ih => omega
  | case2 => exact Nat.le_refl _

theorem lt_skipWhile {p : Char → Bool} {i : Nat} (h : i < size cs ∧ p (byteAt cs i)) :
    i < skipWhile cs p i := by
  rw [skipWhile, if_pos h]
  exact le_skipWhile cs p (i + 1)

/-- The place behind the end of a block comment that goes on at `i`, if it has an end. -/
def commentEnd? (i : Nat) : Option Nat :=
  if i < size cs then
    if byteAt cs i = '*' ∧ byteAt cs (i + 1) = '/' then some (i + 2) else commentEnd? (i + 1)
  else none
termination_by size cs - i

theorem lt_of_commentEnd? {i j : Nat} (h : commentEnd? cs i = some j) : i < j := by
  fun_induction commentEnd? cs i with
  | case1 i _ _ => cases h; omega
  | case2 i _ _ ih => exact Nat.lt_of_succ_lt (ih h)
  | case3 => cases h

/-- The place behind the gap that starts at `i`, and the place of a comment in it that is not
closed. -/
def skipGap (i : Nat) : Nat × Option Nat :=
  let j := skipWhile cs isBlank i
  if _line : byteAt cs j = '/' ∧ byteAt cs (j + 1) = '/' then
    skipGap (skipWhile cs (· != '\n') j)
  else if _block : byteAt cs j = '/' ∧ byteAt cs (j + 1) = '*' then
    match _h : commentEnd? cs (j + 2) with
    | some k => skipGap k
    | none => (size cs, some j)
  else (j, none)
termination_by size cs - i
decreasing_by
  · have hj := le_skipWhile cs isBlank i
    have inside := lt_size_of_byteAt _line.1 (by decide)
    have further := lt_skipWhile cs (p := (· != '\n')) ⟨inside, by rw [_line.1]; rfl⟩
    exact Nat.sub_lt_sub_left (Nat.lt_of_le_of_lt hj inside) (Nat.lt_of_le_of_lt hj further)
  · have hj := le_skipWhile cs isBlank i
    have inside := lt_size_of_byteAt _block.1 (by decide)
    have further := lt_of_commentEnd? cs _h
    omega

/-! ### Literals and templates -/

/-- What was read of a quoted text after its opening quote, and the place behind it. -/
structure Quotation where
  stop : Nat
  -- The characters between the quotes, with escapes resolved.
  value : List Char
  -- Whether the closing quote was found.
  closed : Bool
  -- Whether a substitution was found.
  substituted : Bool
  deriving DecidableEq, Repr

/-- Puts a character in front of the value. -/
def Quotation.cons (c : Char) (q : Quotation) : Quotation := { q with value := c :: q.value }

/-- Reads a string from `i` on up to its closing quote, or up to the end of its line. -/
def readString? (quote : Char) (i : Nat) : Option Quotation :=
  if i < size cs ∧ byteAt cs i ≠ '\n' then
    if byteAt cs i = quote then some ⟨i + 1, [], true, false⟩
    else if byteAt cs i = '\\' then
      match charAt? cs (i + 1) with
      | some (some e) => (readString? quote (i + 1 + charWidth e)).map (·.cons (unescape e))
      | some none => readString? quote (i + 1)
      | none => none
    else
      match charAt? cs i with
      | some (some c) => (readString? quote (i + charWidth c)).map (·.cons c)
      | _ => none
  else some ⟨i, [], false, false⟩
termination_by size cs - i
decreasing_by
  · omega
  · omega
  · have := Char.utf8Size_pos c; unfold charWidth; omega

/-- Reads a template from `i` on up to its closing quote. `depth` is the number of open braces of
the substitution that is being read, zero outside. -/
def readTemplate? (depth : Nat) (substituted : Bool) (i : Nat) : Option Quotation :=
  if i < size cs then
    if depth = 0 ∧ byteAt cs i = '`' then some ⟨i + 1, [], true, substituted⟩
    else if byteAt cs i = '$' ∧ byteAt cs (i + 1) = '{' then
      readTemplate? (depth + 1) true (i + 2)
    else if 0 < depth then
      let depth :=
        if byteAt cs i = '{' then depth + 1 else if byteAt cs i = '}' then depth - 1 else depth
      readTemplate? depth substituted (i + 1)
    else if byteAt cs i = '\\' then
      match charAt? cs (i + 1) with
      | some (some e) =>
        (readTemplate? depth substituted (i + 1 + charWidth e)).map (·.cons (unescape e))
      | some none => readTemplate? depth substituted (i + 1)
      | none => none
    else
      match charAt? cs i with
      | some (some c) => (readTemplate? depth substituted (i + charWidth c)).map (·.cons c)
      | _ => none
  else some ⟨i, [], false, substituted⟩
termination_by size cs - i
decreasing_by
  · omega
  · omega
  · omega
  · omega
  · have := Char.utf8Size_pos c; unfold charWidth; omega

/-! ### Tokens -/

/-- A token that was read, the place behind it, and what is malformed in it. -/
structure Placed where
  token : Token
  stop : Nat
  fault : Option LexicalFault
  deriving DecidableEq, Repr

/-- The token of a kind and text between two places. -/
def placed (kind : TokenKind) (text : List Char) (start stop : Nat) (fault : Option LexicalFault) :
    Placed :=
  ⟨⟨kind, String.ofList text, kept start, kept stop⟩, stop, fault⟩

/-- The token whose text is what is written from `i` up to `stop`. -/
def placedAsWritten? (kind : TokenKind) (i stop : Nat) (fault : Option LexicalFault) :
    Option Placed :=
  (slice? i stop cs).map fun text => placed kind text i stop fault

/-- The token that a quoted text makes which starts at `i`. -/
def placedQuoted? (i : Nat) (fault : LexicalFault) (q : Quotation) : Option Placed :=
  let fault := if q.closed then none else some fault
  if q.substituted then placedAsWritten? cs .template i q.stop fault
  else some (placed .literal q.value i q.stop fault)

/-- Reads the token at a place that is not the end of the text. -/
def readToken? (i : Nat) : Option Placed :=
  let b := byteAt cs i
  if b = '\'' ∨ b = '"' then (readString? cs b (i + 1)).bind (placedQuoted? cs i .openString)
  else if b = '`' then
    (readTemplate? cs 0 false (i + 1)).bind (placedQuoted? cs i .openTemplate)
  else if b.isDigit then placedAsWritten? cs .number i (skipWhile cs isNumberPart i) none
  else if isIdentStart b then placedAsWritten? cs .ident i (skipWhile cs isIdentPart i) none
  else
    match charAt? cs i with
    | some (some c) => some (placed (.punct c) [c] i (i + charWidth c) none)
    | _ => none

/-! ### The whole text -/

/-- Splits a text into tokens from a place on. -/
def lexFrom? (i : Nat) : Option Lexed :=
  let gap := skipGap cs i
  let unclosed := (gap.2.map fun at_ => LexicalError.mk (kept at_) .openComment).toList
  if size cs ≤ gap.1 then some ⟨[], unclosed⟩
  else
    (readToken? cs gap.1).bind fun t =>
      if i < t.stop ∧ t.stop ≤ size cs then
        (lexFrom? t.stop).map fun later =>
          let fault := (t.fault.map fun fault => LexicalError.mk t.token.start fault).toList
          ⟨t.token :: later.tokens, unclosed ++ fault ++ later.errors⟩
      else none
termination_by size cs - i

def lex? (source : String) : Option Lexed := lexFrom? source.toList 0

end Precompile.Script.Bytewise
