import Precompile.Pattern.Glob

/-!
Regular expressions as globs are written in them.

An expression is read from its text from left to right. A match may begin anywhere in a text, unless
the expression asks for its start.
-/

namespace Precompile

/-- A regular expression. -/
inductive Regex where
  -- The start of the text.
  | start
  -- The end of the text.
  | stop
  -- The character itself.
  | char (c : Char)
  -- Any character but a line break.
  | line
  -- Any character but the given one.
  | except (c : Char)
  | empty
  -- One expression after the other.
  | seq (r s : Regex)
  -- The expression any number of times.
  | star (r : Regex)
  -- The expression or nothing.
  | optional (r : Regex)
  deriving DecidableEq, Repr, Inhabited

namespace Regex

/-! ### Meaning -/

/-- The expression matches a part of a text, given what stands before and after it. -/
inductive Spans : Regex → List Char → List Char → List Char → Prop where
  | start {after : List Char} : Spans .start [] [] after
  | stop {before : List Char} : Spans .stop before [] []
  | char {c : Char} {before after : List Char} : Spans (.char c) before [c] after
  | line {c : Char} {before after : List Char} : c ≠ '\n' → Spans .line before [c] after
  | except {c d : Char} {before after : List Char} : c ≠ d → Spans (.except d) before [c] after
  | empty {before after : List Char} : Spans .empty before [] after
  | seq {r s : Regex} {before u v after : List Char} : Spans r before u (v ++ after) →
      Spans s (before ++ u) v after → Spans (.seq r s) before (u ++ v) after
  | starNone {r : Regex} {before after : List Char} : Spans (.star r) before [] after
  | starMore {r : Regex} {before u v after : List Char} : Spans r before u (v ++ after) →
      Spans (.star r) (before ++ u) v after → Spans (.star r) before (u ++ v) after
  | optionalNone {r : Regex} {before after : List Char} : Spans (.optional r) before [] after
  | optionalSome {r : Regex} {before u after : List Char} : Spans r before u after →
      Spans (.optional r) before u after

/-- The expression matches somewhere in a text. -/
def Finds (r : Regex) (text : List Char) : Prop :=
  ∃ before matched after, text = before ++ (matched ++ after) ∧ r.Spans before matched after

/-! ### Reading -/

def isSpecial (c : Char) : Bool := c ∈ GlobPart.regexSpecials

/-- The expressions one after the other. -/
def seqOf (rs : List Regex) : Regex := rs.foldr .seq .empty

/-- Applies a mark of repetition to the last expression that was read. Only one such mark may follow
an expression. -/
def repeatLast? (mark : Regex → Regex) : List Regex → Option (List Regex)
  | [] => none
  | .star _ :: _ => none
  | .optional _ :: _ => none
  | r :: rs => some (mark r :: rs)

/-- Reads an expression from what is left of a text. `pieces` were read before in the same group and
`outer` in the groups around it, the last one first. -/
def readFrom? (outer : List (List Regex)) (pieces : List Regex) : List Char → Option Regex
  | [] => if outer.isEmpty then some (seqOf pieces.reverse) else none
  | '\\' :: c :: rest => if isSpecial c then readFrom? outer (.char c :: pieces) rest else none
  | '[' :: '^' :: c :: ']' :: rest =>
    if isSpecial c then none else readFrom? outer (.except c :: pieces) rest
  | '(' :: '?' :: ':' :: rest => readFrom? (pieces :: outer) [] rest
  | ')' :: rest =>
    match outer with
    | [] => none
    | around :: outer => readFrom? outer (seqOf pieces.reverse :: around) rest
  | '*' :: rest =>
    match repeatLast? .star pieces with
    | none => none
    | some pieces => readFrom? outer pieces rest
  | '?' :: rest =>
    match repeatLast? .optional pieces with
    | none => none
    | some pieces => readFrom? outer pieces rest
  | '^' :: rest => readFrom? outer (.start :: pieces) rest
  | '$' :: rest => readFrom? outer (.stop :: pieces) rest
  | '.' :: rest => readFrom? outer (.line :: pieces) rest
  | c :: rest => if isSpecial c then none else readFrom? outer (.char c :: pieces) rest

/-- A special character stands for itself behind a backslash. -/
theorem readFrom?_escaped {c : Char} (special : isSpecial c = true) (outer : List (List Regex))
    (pieces : List Regex) (rest : List Char) :
    readFrom? outer pieces ('\\' :: c :: rest) = readFrom? outer (.char c :: pieces) rest := by
  simp [readFrom?, special]

theorem readFrom?_plain {c : Char} (plain : isSpecial c = false) (outer : List (List Regex))
    (pieces : List Regex) (rest : List Char) :
    readFrom? outer pieces (c :: rest) = readFrom? outer (.char c :: pieces) rest := by
  rw [readFrom?]
  · simp [plain]
  all_goals
    intros
    subst_vars
    exact absurd plain (by decide)

/-- The expression that a text is. -/
def read? (text : String) : Option Regex := readFrom? [] [] text.toList

end Regex

end Precompile
