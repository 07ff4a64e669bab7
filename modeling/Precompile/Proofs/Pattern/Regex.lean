import Precompile.Pattern.Regex
import Precompile.Proofs.Pattern.Glob

/-!
Globs as regular expressions.

The text that a glob is written as is read as one expression only (`read?_regex`), and this
expression finds the texts that the glob selects (`finds_parse_iff`): characters with a meaning of
their own are escaped one by one, and both ends of a text are asked for.
-/

namespace Precompile

/-! ### Expressions -/

namespace Regex

variable {r s : Regex} {before t after : List Char}

theorem spans_seq_iff : (seq r s).Spans before t after ↔
    ∃ u v, t = u ++ v ∧ r.Spans before u (v ++ after) ∧ s.Spans (before ++ u) v after := by
  constructor
  · intro spans
    cases spans with
    | seq first second => exact ⟨_, _, rfl, first, second⟩
  · rintro ⟨u, v, rfl, first, second⟩
    exact .seq first second

theorem spans_optional_iff :
    (optional r).Spans before t after ↔ t = [] ∨ r.Spans before t after := by
  constructor
  · intro spans
    cases spans with
    | optionalNone => exact .inl rfl
    | optionalSome spans => exact .inr spans
  · rintro (rfl | spans)
    · exact .optionalNone
    · exact .optionalSome spans

@[simp] theorem spans_char_iff {c : Char} : (char c).Spans before t after ↔ t = [c] :=
  ⟨fun spans => by cases spans; rfl, fun h => h ▸ .char⟩

@[simp] theorem spans_empty_iff : Regex.empty.Spans before t after ↔ t = [] :=
  ⟨fun spans => by cases spans; rfl, fun h => h ▸ .empty⟩

@[simp] theorem spans_line_iff : line.Spans before t after ↔ ∃ c, t = [c] ∧ c ≠ '\n' := by
  constructor
  · intro spans
    cases spans with
    | line other => exact ⟨_, rfl, other⟩
  · rintro ⟨c, rfl, other⟩
    exact .line other

@[simp] theorem spans_except_iff {d : Char} :
    (except d).Spans before t after ↔ ∃ c, t = [c] ∧ c ≠ d := by
  constructor
  · intro spans
    cases spans with
    | except other => exact ⟨_, rfl, other⟩
  · rintro ⟨c, rfl, other⟩
    exact .except other

/-- One of several characters, any number of times. -/
theorem spans_star_iff {p : Char → Prop}
    (one : ∀ before t after, r.Spans before t after ↔ ∃ c, t = [c] ∧ p c) :
    (star r).Spans before t after ↔ ∀ c ∈ t, p c := by
  constructor
  · intro spans
    generalize hstar : star r = e at spans
    induction spans with
    | starNone => simp
    | starMore first _ _ ih =>
      cases hstar
      obtain ⟨c, rfl, hc⟩ := (one _ _ _).mp first
      exact List.forall_mem_cons.mpr ⟨hc, ih rfl⟩
    | _ => cases hstar
  · intro all
    induction t generalizing before with
    | nil => exact .starNone
    | cons c t ih =>
      obtain ⟨hc, all⟩ := List.forall_mem_cons.mp all
      exact .starMore (u := [c]) ((one _ _ _).mpr ⟨c, rfl, hc⟩) (ih all)

theorem spans_chars_iff {cs : List Char} :
    (seqOf (cs.map char)).Spans before t after ↔ t = cs := by
  induction cs generalizing before t with
  | nil => exact spans_empty_iff
  | cons c cs ih =>
    show (seq (char c) (seqOf (cs.map char))).Spans before t after ↔ _
    simp [spans_seq_iff, ih]

/-- A group may be repeated as a whole. -/
theorem repeatLast?_seqOf (mark : Regex → Regex) (rs pieces : List Regex) :
    repeatLast? mark (seqOf rs :: pieces) = some (mark (seqOf rs) :: pieces) := by
  cases rs <;> rfl

theorem readFrom?_escape (outer : List (List Regex)) (pieces : List Regex) (c : Char)
    (rest : List Char) : readFrom? outer pieces (GlobPart.escapeRegex c ++ rest) =
      readFrom? outer (.char c :: pieces) rest := by
  unfold GlobPart.escapeRegex
  split
  next special => exact readFrom?_escaped (by simp [isSpecial, special]) outer pieces rest
  next plain => exact readFrom?_plain (by simp [isSpecial, plain]) outer pieces rest

theorem readFrom?_chars (outer : List (List Regex)) (pieces : List Regex) (cs rest : List Char) :
    readFrom? outer pieces (cs.flatMap GlobPart.escapeRegex ++ rest) =
      readFrom? outer ((cs.map char).reverse ++ pieces) rest := by
  induction cs generalizing pieces with
  | nil => rfl
  | cons c cs ih =>
    rw [List.flatMap_cons, List.append_assoc, readFrom?_escape, ih, List.map_cons,
      List.reverse_cons, List.append_assoc]
    rfl

end Regex

/-! ### Parts -/

namespace GlobPart

open Regex

/-- The part as the expression that its text is. -/
def toRegex : GlobPart → Regex
  | literal c => .char c
  | single => .except '/'
  | segment => .star (.except '/')
  | anything => .star .line
  | directories => .optional (seqOf [.star .line, .char '/'])

theorem spans_lines_iff {before t after : List Char} :
    (star line).Spans before t after ↔ '\n' ∉ t :=
  (spans_star_iff fun _ _ _ => spans_line_iff).trans List.forall_mem_ne'

theorem spans_toRegex_iff (part : GlobPart) {before t after : List Char} :
    part.toRegex.Spans before t after ↔ part.Takes t := by
  cases part with
  | literal c => exact spans_char_iff
  | single => exact spans_except_iff
  | segment => exact (spans_star_iff fun _ _ _ => spans_except_iff).trans List.forall_mem_ne'
  | anything => exact spans_lines_iff
  | directories =>
    rw [toRegex, Takes, spans_optional_iff]
    refine or_congr_right ?_
    show (seq (star line) (seq (char '/') .empty)).Spans before t after ↔ _
    constructor
    · intro spans
      obtain ⟨dirs, u, rfl, first, second⟩ := spans_seq_iff.mp spans
      obtain ⟨slash, v, rfl, third, last⟩ := spans_seq_iff.mp second
      obtain rfl := spans_char_iff.mp third
      obtain rfl := spans_empty_iff.mp last
      exact ⟨dirs, rfl, spans_lines_iff.mp first⟩
    · rintro ⟨dirs, rfl, oneLine⟩
      exact .seq (spans_lines_iff.mpr oneLine) (.seq (u := ['/']) (v := []) .char .empty)

theorem readFrom?_regex (part : GlobPart) (outer : List (List Regex)) (pieces : List Regex)
    (rest : List Char) : readFrom? outer pieces (part.regex ++ rest) =
      readFrom? outer (part.toRegex :: pieces) rest := by
  cases part with
  | literal c => exact readFrom?_escape outer pieces c rest
  | single => rfl
  | segment => rfl
  | anything => rfl
  | directories => rfl

theorem readFrom?_parts (parts : List GlobPart) (outer : List (List Regex)) (pieces : List Regex)
    (rest : List Char) : readFrom? outer pieces (parts.flatMap regex ++ rest) =
      readFrom? outer ((parts.map toRegex).reverse ++ pieces) rest := by
  induction parts generalizing pieces with
  | nil => rfl
  | cons part parts ih =>
    rw [List.flatMap_cons, List.append_assoc, readFrom?_regex, ih, List.map_cons,
      List.reverse_cons, List.append_assoc]
    rfl

/-- The expression of the parts asks for the end of the text. -/
theorem spans_parts_iff {parts : List GlobPart} {before t after : List Char} :
    (seqOf (parts.map toRegex ++ [.stop])).Spans before t after ↔ after = [] ∧ Fits parts t := by
  induction parts generalizing before t with
  | nil =>
    show (seq .stop .empty).Spans before t after ↔ _
    constructor
    · intro spans
      obtain ⟨u, v, rfl, first, second⟩ := spans_seq_iff.mp spans
      obtain rfl := spans_empty_iff.mp second
      cases first
      exact ⟨rfl, .nil⟩
    · rintro ⟨rfl, fits⟩
      cases fits
      exact .seq (u := []) (v := []) .stop .empty
  | cons part parts ih =>
    show (seq part.toRegex (seqOf (parts.map toRegex ++ [.stop]))).Spans before t after ↔ _
    rw [spans_seq_iff, fits_cons_iff]
    simp only [spans_toRegex_iff, ih]
    constructor
    · rintro ⟨u, v, rfl, takes, rfl, fits⟩
      exact ⟨rfl, u, v, rfl, takes, fits⟩
    · rintro ⟨rfl, u, v, rfl, takes, fits⟩
      exact ⟨u, v, rfl, takes, rfl, fits⟩

end GlobPart

/-! ### Globs -/

namespace Glob

open GlobPart (Fits)
open Regex

/-- The glob as the expression that its text is. -/
def toRegex (g : Glob) : Regex :=
  let base := g.base.map fun b => .optional (seqOf ((b ++ ['/']).map .char))
  seqOf (.start :: (base.toList ++ (g.parts.map GlobPart.toRegex ++ [.stop])))

/-- The text of a glob is read as its expression. -/
theorem read?_regex (g : Glob) : Regex.read? g.regex = some g.toRegex := by
  obtain ⟨base, parts⟩ := g
  have tail : ∀ pieces, readFrom? [] pieces (parts.flatMap GlobPart.regex ++ ['$']) =
      some (seqOf (pieces.reverse ++ (parts.map GlobPart.toRegex ++ [.stop]))) := by
    intro pieces
    rw [GlobPart.readFrom?_parts, readFrom?, readFrom?]
    simp
  rw [Regex.read?, regex, String.toList_ofList]
  cases base with
  | none => exact tail [.start]
  | some b =>
    have group : ∀ rest, readFrom? [[.start]] []
        ((b ++ ['/']).flatMap GlobPart.escapeRegex ++ (')' :: '?' :: rest)) =
        readFrom? [] [.optional (seqOf ((b ++ ['/']).map .char)), .start] rest := by
      intro rest
      rw [readFrom?_chars, List.append_nil]
      show readFrom? [] [seqOf ((b ++ ['/']).map .char).reverse.reverse, .start] ('?' :: rest) = _
      rw [List.reverse_reverse, readFrom?, repeatLast?_seqOf]
    have text : '^' :: ("(?:".toList ++ b.flatMap GlobPart.escapeRegex ++ "/)?".toList) ++
        parts.flatMap GlobPart.regex ++ ['$'] =
        '^' :: '(' :: '?' :: ':' :: ((b ++ ['/']).flatMap GlobPart.escapeRegex ++
          (')' :: '?' :: (parts.flatMap GlobPart.regex ++ ['$']))) := by
      simp [show GlobPart.escapeRegex '/' = ['/'] by decide]
    dsimp only
    rw [text]
    exact (group _).trans (tail _)

/-- The expression of a glob matches a text as a whole or not at all. -/
theorem finds_toRegex_iff (g : Glob) (text : List Char) :
    g.toRegex.Finds text ↔ ∃ rest, Below g.base text rest ∧ Fits g.parts rest := by
  obtain ⟨base, parts⟩ := g
  have whole : ∀ {r : Regex}, (seq .start r).Finds text ↔
      ∃ t after, text = t ++ after ∧ r.Spans [] t after := by
    intro r
    constructor
    · rintro ⟨before, t, after, rfl, spans⟩
      obtain ⟨u, v, rfl, first, second⟩ := spans_seq_iff.mp spans
      cases first
      exact ⟨v, after, rfl, second⟩
    · rintro ⟨t, after, rfl, spans⟩
      exact ⟨[], t, after, rfl, .seq (u := []) .start spans⟩
  cases base with
  | none =>
    refine whole.trans ?_
    show (∃ t after, text = t ++ after ∧
      (seqOf (parts.map GlobPart.toRegex ++ [.stop])).Spans [] t after) ↔ _
    simp only [GlobPart.spans_parts_iff]
    constructor
    · rintro ⟨t, _, rfl, rfl, fits⟩
      exact ⟨t, .inl (List.append_nil t), fits⟩
    · rintro ⟨rest, rfl | ⟨b, hb, -⟩, fits⟩
      · exact ⟨text, [], (List.append_nil text).symm, rfl, fits⟩
      · cases hb
  | some b =>
    refine whole.trans ?_
    show (∃ t after, text = t ++ after ∧ (seq (.optional (seqOf ((b ++ ['/']).map .char)))
      (seqOf (parts.map GlobPart.toRegex ++ [.stop]))).Spans [] t after) ↔ _
    simp only [spans_seq_iff, spans_optional_iff, spans_chars_iff, GlobPart.spans_parts_iff]
    constructor
    · rintro ⟨_, _, rfl, u, v, rfl, rfl | rfl, rfl, fits⟩
      · exact ⟨v, .inl (by simp), fits⟩
      · exact ⟨v, .inr ⟨b, rfl, by simp⟩, fits⟩
    · rintro ⟨rest, rfl | ⟨_, hb, rfl⟩, fits⟩
      · exact ⟨text, [], by simp, [], text, rfl, .inl rfl, rfl, fits⟩
      · cases hb
        exact ⟨b ++ '/' :: rest, [], by simp, b ++ ['/'], rest, by simp, .inr rfl, rfl, fits⟩

theorem finds_parse_iff {pattern : String} {base : Path} {text : List Char} :
    (parse pattern (some base)).toRegex.Finds text ↔
      Selects (trimSlashes (forwardSlashes base.text.toList)) pattern text :=
  (finds_toRegex_iff _ _).trans selects_iff.symm

end Glob

end Precompile
