import Precompile.Script.Text
import Precompile.Script.Token

/-!
Splitting a script into tokens.

A text is gaps and tokens by turns. A gap holds white space and comments. Malformed parts do not
end the reading: a string that is not closed ends with its line, a template or a comment that is
not closed ends with the text, and each leaves an error behind. A slash is always a token of its
own unless it opens a comment.
-/

namespace Precompile.Script

/-! ### Gaps -/

def isBlank (c : Char) : Bool :=
  c = ' ' || c = '\t' || c = '\n' || c = '\r' || c = '\x0c'

/-- The text between two tokens. -/
structure Gap where
  -- What is written in the gap.
  written : List Char
  -- What is left of the text.
  rest : List Char
  -- Where in the gap a comment starts that is not closed.
  openAt : Option Nat

def Gap.after (before : List Char) (g : Gap) : Gap :=
  { g with written := before ++ g.written, openAt := g.openAt.map (width before + ·) }

/-- Splits a text after the end of a block comment, if it has one. -/
def splitBlockComment? : List Char → Option (List Char × List Char)
  | '*' :: '/' :: rest => some (['*', '/'], rest)
  | c :: rest => (splitBlockComment? rest).map fun (body, rest) => (c :: body, rest)
  | [] => none

theorem splitBlockComment?_append {cs body rest : List Char}
    (h : splitBlockComment? cs = some (body, rest)) : body ++ rest = cs := by
  fun_induction splitBlockComment? cs generalizing body with
  | case1 tail => simp at h; simp [← h.1, ← h.2]
  | case2 c tail _ ih =>
    obtain ⟨⟨body', rest'⟩, h', heq⟩ := Option.map_eq_some_iff.mp h
    simp only [Prod.mk.injEq] at heq
    obtain ⟨rfl, rfl⟩ := heq
    simp [ih h']
  | case3 => simp at h

theorem length_splitBlockComment?_le {cs body rest : List Char}
    (h : splitBlockComment? cs = some (body, rest)) : rest.length ≤ cs.length := by
  rw [← splitBlockComment?_append h]
  simp

/-- Reads the gap at the beginning of a text: white space, line comments up to their line break
and block comments. -/
def readGap (cs : List Char) : Gap :=
  match cs with
  | '/' :: '/' :: rest =>
    (readGap (rest.dropWhile (· != '\n'))).after ('/' :: '/' :: rest.takeWhile (· != '\n'))
  | '/' :: '*' :: rest =>
    match _h : splitBlockComment? rest with
    | some (body, rest') => (readGap rest').after ('/' :: '*' :: body)
    | none => ⟨cs, [], some 0⟩
  | c :: rest => if isBlank c then (readGap rest).after [c] else ⟨[], c :: rest, none⟩
  | [] => ⟨[], [], none⟩
termination_by cs.length
decreasing_by
  · have := (List.dropWhile_suffix (l := rest) (· != '\n')).length_le; simp at *; omega
  · have := length_splitBlockComment?_le _h; simp; omega
  · simp

theorem readGap_block {cs body rest : List Char} (h : splitBlockComment? cs = some (body, rest)) :
    readGap ('/' :: '*' :: cs) = (readGap rest).after ('/' :: '*' :: body) := by
  rw [readGap]
  split
  next h' => rw [h] at h'; cases h'; rfl
  next h' => rw [h] at h'; cases h'

theorem readGap_blank {c : Char} {cs : List Char} (h : isBlank c = true) : readGap (c :: cs) = (readGap cs).after [c] := by
  have other : c ≠ '/' := by
    rintro rfl
    cases h
  rw [readGap, if_pos h]
  · exact fun _ slash => absurd slash other
  · exact fun _ slash => absurd slash other

/-! ### Literals and templates -/

/-- The character that an escape stands for. -/
def unescape : Char → Char
  | 'n' => '\n'
  | 't' => '\t'
  | 'r' => '\r'
  | '0' => '\x00'
  | c => c

/-- What was read of a quoted text after its opening quote. -/
structure Quoted where
  -- What is written, with the closing quote.
  written : List Char
  -- The characters between the quotes, with escapes resolved.
  value : List Char
  -- Whether the closing quote was found.
  closed : Bool
  -- Whether a substitution was found.
  substituted : Bool
  -- What is left of the text.
  rest : List Char

namespace Quoted

/-- A quoted text that ends without its quote, after the given characters. -/
def unclosed (written rest : List Char) : Quoted := ⟨written, [], false, false, rest⟩

/-- Puts characters in front that stand for one character of the value. -/
def cons (written : List Char) (c : Char) (q : Quoted) : Quoted :=
  { q with written := written ++ q.written, value := c :: q.value }

/-- Puts characters in front that belong to a substitution. -/
def skip (written : List Char) (q : Quoted) : Quoted :=
  { q with written := written ++ q.written, substituted := true }

end Quoted

/-- Reads a string up to its closing quote, or up to the end of its line. -/
def readString (quote : Char) : List Char → Quoted
  | [] => .unclosed [] []
  | c :: rest =>
    if c = '\n' then .unclosed [] (c :: rest)
    else if c = quote then ⟨[c], [], true, false, rest⟩
    else if c = '\\' then
      match rest with
      | [] => .unclosed [c] []
      | e :: rest => (readString quote rest).cons [c, e] (unescape e)
    else (readString quote rest).cons [c] c

/-- Reads a template up to its closing quote. `depth` is the number of open braces of the
substitution that is being read, zero outside. -/
def readTemplate (depth : Nat) : List Char → Quoted
  | [] => .unclosed [] []
  | '$' :: '{' :: rest => (readTemplate (depth + 1) rest).skip ['$', '{']
  | c :: rest =>
    match depth with
    | 0 =>
      if c = '`' then ⟨[c], [], true, false, rest⟩
      else if c = '\\' then
        match rest with
        | [] => .unclosed [c] []
        | e :: rest => (readTemplate 0 rest).cons [c, e] (unescape e)
      else (readTemplate 0 rest).cons [c] c
    | depth + 1 =>
      let depth := if c = '{' then depth + 2 else if c = '}' then depth else depth + 1
      (readTemplate depth rest).skip [c]

/-! ### Tokens -/

def isIdentStart (c : Char) : Bool := c.isAlpha || c = '_' || c = '$'

def isIdentPart (c : Char) : Bool := c.isAlphanum || c = '_' || c = '$'

def isNumberPart (c : Char) : Bool := c.isAlphanum || c = '.' || c = '_'

/-- A token without its place. -/
structure Reading where
  kind : TokenKind
  -- What is written.
  written : List Char
  -- The text of the token.
  text : List Char
  -- What is malformed in it.
  fault : Option LexicalFault
  -- What is left of the text.
  rest : List Char

namespace Reading

/-- A token whose text is what is written: `c` and the characters after it that satisfy `p`. -/
def plain (kind : TokenKind) (c : Char) (p : Char → Bool) (rest : List Char) : Reading :=
  let written := c :: rest.takeWhile p
  ⟨kind, written, written, none, rest.dropWhile p⟩

/-- The token that a quoted text makes; one with substitutions is kept as it is written. -/
def quoted (c : Char) (fault : LexicalFault) (q : Quoted) : Reading :=
  let written := c :: q.written
  let fault := if q.closed then none else some fault
  if q.substituted then ⟨.template, written, written, fault, q.rest⟩
  else ⟨.literal, written, q.value, fault, q.rest⟩

end Reading

/-- Reads the token that starts with `c`. -/
def readToken (c : Char) (rest : List Char) : Reading :=
  if c = '\'' ∨ c = '"' then .quoted c .openString (readString c rest)
  else if c = '`' then .quoted c .openTemplate (readTemplate 0 rest)
  else if c.isDigit then .plain .number c isNumberPart rest
  else if isIdentStart c then .plain .ident c isIdentPart rest
  else .plain (.punct c) c (fun _ => false) rest

/-! ### Nothing is lost -/

theorem readGap_append (cs : List Char) : (readGap cs).written ++ (readGap cs).rest = cs := by
  fun_induction readGap cs with
  | case1 rest ih => simp [Gap.after, ih]
  | case2 rest body rest' h ih => simp [Gap.after, ih, splitBlockComment?_append h]
  | case3 => simp
  | case4 c rest _ _ _ ih => simp [Gap.after, ih]
  | case5 => simp
  | case6 => simp

theorem readString_append (quote : Char) (cs : List Char) :
    (readString quote cs).written ++ (readString quote cs).rest = cs := by
  fun_induction readString quote cs <;> simp_all [Quoted.cons, Quoted.unclosed]

theorem readTemplate_append (depth : Nat) (cs : List Char) :
    (readTemplate depth cs).written ++ (readTemplate depth cs).rest = cs := by
  fun_induction readTemplate depth cs <;>
    simp_all [Quoted.cons, Quoted.skip, Quoted.unclosed]

@[simp] theorem Reading.written_quoted (c : Char) (fault : LexicalFault) (q : Quoted) :
    (Reading.quoted c fault q).written = c :: q.written := by
  simp only [Reading.quoted]
  split <;> rfl

@[simp] theorem Reading.rest_quoted (c : Char) (fault : LexicalFault) (q : Quoted) :
    (Reading.quoted c fault q).rest = q.rest := by
  simp only [Reading.quoted]
  split <;> rfl

theorem readToken_append (c : Char) (rest : List Char) :
    (readToken c rest).written ++ (readToken c rest).rest = c :: rest := by
  unfold readToken
  split
  · simp [readString_append]
  split
  · simp [readTemplate_append]
  split
  · simp [Reading.plain]
  split <;> simp [Reading.plain]

theorem readToken_written_ne_nil (c : Char) (rest : List Char) :
    (readToken c rest).written ≠ [] := by
  unfold readToken
  split
  · simp
  split
  · simp
  split
  · simp [Reading.plain]
  split <;> simp [Reading.plain]

/-- A token takes at least one character. -/
theorem length_readToken_rest_le (c : Char) (rest : List Char) :
    (readToken c rest).rest.length ≤ rest.length := by
  have h := congrArg List.length (readToken_append c rest)
  have h' := List.length_pos_iff.mpr (readToken_written_ne_nil c rest)
  simp at h
  omega

/-! ### The whole text -/

/-- What lexing yields: tokens and errors, both in the order of the text. -/
structure Lexed where
  tokens : List Token
  errors : List LexicalError
  deriving DecidableEq, Repr, Inhabited

/-- Splits a text into tokens; `pos` is its offset. -/
def lexFrom (pos : Nat) (cs : List Char) : Lexed :=
  match _h : (readGap cs).rest with
  | [] => ⟨[], ((readGap cs).openAt.map fun at_ => ⟨pos + at_, .openComment⟩).toList⟩
  | c :: rest =>
    let r := readToken c rest
    let start := pos + width (readGap cs).written
    let stop := start + width r.written
    let later := lexFrom stop r.rest
    ⟨⟨r.kind, String.ofList r.text, start, stop⟩ :: later.tokens,
      (r.fault.map fun fault => ⟨start, fault⟩).toList ++ later.errors⟩
termination_by cs.length
decreasing_by
  have hgap := congrArg List.length (readGap_append cs)
  have hread := length_readToken_rest_le c rest
  rw [_h] at hgap
  simp at hgap hread ⊢
  omega

/-- The last gap of a text. -/
theorem lexFrom_of_end {pos : Nat} {cs : List Char} (h : (readGap cs).rest = []) :
    lexFrom pos cs =
      ⟨[], ((readGap cs).openAt.map fun at_ => ⟨pos + at_, .openComment⟩).toList⟩ := by
  rw [lexFrom]
  split
  next => rfl
  next h' => rw [h] at h'; cases h'

def lex (source : String) : Lexed := lexFrom 0 source.toList

end Precompile.Script
