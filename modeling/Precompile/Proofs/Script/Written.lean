import Precompile.Proofs.Script.Appending

/-!
Texts that are written token by token.

A text is written as a list of tokens if it consists of them in this order, with white space and
comments in between. Lexing such a text gives these tokens (`tokens_of_written`).
-/

namespace Precompile.Script

/-! ### Single tokens -/

/-- What may be written between quotes, and the text that it stands for. -/
inductive Quotes (quote : Char) : List Char → List Char → Prop where
  | nil : Quotes quote [] []
  | plain {c : Char} {body value : List Char} : c ≠ quote → c ≠ '\\' → c ≠ '\n' →
      Quotes quote body value → Quotes quote (c :: body) (c :: value)
  | escape {c : Char} {body value : List Char} : Quotes quote body value →
      Quotes quote ('\\' :: c :: body) (unescape c :: value)

/-- The character starts neither a gap nor a token of several characters. -/
def IsSign (c : Char) : Prop :=
  isBlank c = false ∧ c ≠ '/' ∧ c ∉ ['\'', '"', '`'] ∧ c.isDigit = false ∧ isIdentStart c = false

instance (c : Char) : Decidable (IsSign c) := instDecidableAnd

/-- What is written for a token, given what follows it. -/
inductive Spelled : List Char → List Char → TokenKind → List Char → Prop where
  -- A name goes on as long as it can.
  | name {c : Char} {cs after : List Char} : isIdentStart c = true →
      (∀ d ∈ cs, isIdentPart d = true) → (∀ d ∈ after.head?, isIdentPart d = false) →
      Spelled (c :: cs) after .ident (c :: cs)
  | number {c : Char} {cs after : List Char} : c.isDigit = true →
      (∀ d ∈ cs, isNumberPart d = true) → (∀ d ∈ after.head?, isNumberPart d = false) →
      Spelled (c :: cs) after .number (c :: cs)
  | literal {quote : Char} {body value after : List Char} : quote = '\'' ∨ quote = '"' →
      Quotes quote body value → Spelled (quote :: (body ++ [quote])) after .literal value
  | sign {c : Char} {after : List Char} : IsSign c → Spelled [c] after (.punct c) [c]

/-- The text from a place on is written as the tokens, with gaps before, between and behind them. -/
inductive Written : Nat → List Char → List Token → Prop where
  | nil {pos : Nat} : Written pos [] []
  | skipped {pos : Nat} {piece rest : List Char} {ts : List Token} : IsSkipped piece rest →
      Written (pos + width piece) rest ts → Written pos (piece ++ rest) ts
  | token {pos : Nat} {written value rest : List Char} {kind : TokenKind} {ts : List Token} :
      Spelled written rest kind value → Written (pos + width written) rest ts →
      Written pos (written ++ rest)
        (⟨kind, String.ofList value, pos, pos + width written⟩ :: ts)

/-! ### Gaps -/

variable {piece rest body value : List Char} {quote : Char}

theorem takeWhile_append_stop {p : Char → Bool} {cs after : List Char} (all : ∀ c ∈ cs, p c = true)
    (stop : ∀ c ∈ after.head?, p c = false) : (cs ++ after).takeWhile p = cs := by
  rw [List.takeWhile_append_of_pos all]
  cases after with
  | nil => simp
  | cons c after => simp [stop c rfl]

theorem dropWhile_append_stop {p : Char → Bool} {cs after : List Char} (all : ∀ c ∈ cs, p c = true)
    (stop : ∀ c ∈ after.head?, p c = false) : (cs ++ after).dropWhile p = after := by
  rw [List.dropWhile_append_of_pos all]
  cases after with
  | nil => rfl
  | cons c after => simp [stop c rfl]

/-- The first mark of an end is not behind any other one. -/
theorem length_le_of_unclosed {inner cs : List Char} (hinner : inner ++ ['*', '/'] <+: cs)
    (hbody : body ++ ['*'] <+: cs) (first : ¬ ['*', '/'] <:+: body ++ ['*']) :
    body.length ≤ inner.length := by
  apply Nat.le_of_not_lt
  intro shorter
  have inside : inner ++ ['*', '/'] <+: body ++ ['*'] :=
    List.prefix_of_prefix_length_le hinner hbody (by simp; omega)
  exact first ((List.suffix_append inner _).isInfix.trans inside.isInfix)

theorem splitBlockComment?_of_first (first : ¬ ['*', '/'] <:+: body ++ ['*']) (rest : List Char) :
    splitBlockComment? (body ++ ['*', '/'] ++ rest) = some (body ++ ['*', '/'], rest) := by
  cases hsplit : splitBlockComment? (body ++ ['*', '/'] ++ rest) with
  | none =>
    refine absurd ?_ (not_infix_of_splitBlockComment? hsplit)
    exact ⟨body, rest, rfl⟩
  | some found =>
    obtain ⟨body', rest'⟩ := found
    have parts := splitBlockComment?_append hsplit
    obtain ⟨inner, rfl, first'⟩ := exists_of_splitBlockComment? hsplit
    have le : body.length ≤ inner.length :=
      length_le_of_unclosed ⟨rest', parts⟩ ⟨'/' :: rest, by simp⟩ first
    have ge : inner.length ≤ body.length :=
      length_le_of_unclosed ⟨rest, rfl⟩ ⟨'/' :: rest', by simp [← parts]⟩ first'
    obtain ⟨same, rfl⟩ := List.append_inj parts (by simp; omega)
    rw [same]

theorem splitBlockComment?_of_unclosed (h : ¬ ['*', '/'] <:+: body) :
    splitBlockComment? body = none := by
  cases hsplit : splitBlockComment? body with
  | none => rfl
  | some found =>
    obtain ⟨body', rest'⟩ := found
    have parts := splitBlockComment?_append hsplit
    obtain ⟨inner, rfl, -⟩ := exists_of_splitBlockComment? hsplit
    exact absurd ⟨inner, rest', parts⟩ h

theorem lexFrom_blank {c : Char} (hc : isBlank c = true) (pos : Nat) (rest : List Char) :
    lexFrom pos (c :: rest) = lexFrom (pos + width [c]) rest :=
  lexFrom_of_after pos (readGap_blank hc)

theorem lexFrom_line (noBreak : '\n' ∉ body) (stops : ∀ c ∈ rest.head?, c = '\n') (pos : Nat) :
    lexFrom pos ('/' :: '/' :: body ++ rest) =
      lexFrom (pos + width ('/' :: '/' :: body)) rest := by
  have all : ∀ c ∈ body, (c != '\n') = true := fun c hc => by
    simpa using fun h : c = '\n' => noBreak (h ▸ hc)
  have stop : ∀ c ∈ rest.head?, (c != '\n') = false := fun c hc => by simp [stops c hc]
  have gap : readGap ('/' :: '/' :: body ++ rest) = (readGap rest).after ('/' :: '/' :: body) := by
    rw [List.cons_append, List.cons_append, readGap, takeWhile_append_stop all stop,
      dropWhile_append_stop all stop]
  exact lexFrom_of_after pos gap

/-- The tokens of a text do not change with a gap in front. -/
theorem tokens_lexFrom_skipped (h : IsSkipped piece rest) (pos : Nat) :
    (lexFrom pos (piece ++ rest)).tokens = (lexFrom (pos + width piece) rest).tokens := by
  cases h with
  | @blank c _ hc => exact congrArg Lexed.tokens (lexFrom_blank hc pos rest)
  | @line body _ noBreak stops => rw [lexFrom_line noBreak stops]
  | @block body _ first =>
    exact congrArg Lexed.tokens
      (lexFrom_of_after pos (readGap_block (splitBlockComment?_of_first first rest)))
  | @unclosed body notClosed =>
    have gap : (readGap ('/' :: '*' :: body ++ [])).rest = [] := by
      rw [List.append_nil, readGap]
      split
      next h => rw [splitBlockComment?_of_unclosed notClosed] at h; cases h
      next => rfl
    rw [lexFrom_of_end gap, lexFrom_of_end (by simp [readGap])]

/-! ### Tokens -/

theorem readGap_of_token {c : Char} (hblank : isBlank c = false) (hslash : c ≠ '/')
    (cs : List Char) : readGap (c :: cs) = ⟨[], c :: cs, none⟩ := by
  rw [readGap]
  · simp [hblank]
  · exact fun _ h => absurd h hslash
  · exact fun _ h => absurd h hslash

theorem readString_append_quote (h : Quotes quote body value) (notBreak : quote ≠ '\n')
    (notEscape : quote ≠ '\\') (rest : List Char) :
    readString quote (body ++ quote :: rest) = ⟨body ++ [quote], value, true, false, rest⟩ := by
  induction h with
  | nil =>
    rw [List.nil_append, readString.eq_def]
    simp [notBreak]
  | @plain c body value hquote hescape hbreak h ih =>
    rw [List.cons_append, readString.eq_def]
    simp [hbreak, hquote, hescape, ih, Quoted.cons]
  | @escape c body value h ih =>
    rw [List.cons_append, List.cons_append, readString, if_neg (by decide), if_neg notEscape.symm,
      if_pos rfl, ih]
    simp [Quoted.cons]

variable {c d : Char} {p : Char → Bool}

theorem ne_of_bool (hc : p c = true) (hd : p d = false) : c ≠ d := by
  rintro rfl
  cases hc.symm.trans hd

theorem not_isBlank_of_bool (hc : p c = true)
    (none : [' ', '\t', '\n', '\r', '\x0c'].any p = false) : isBlank c = false := by
  simp only [List.any_cons, List.any_nil, Bool.or_eq_false_iff] at none
  obtain ⟨space, tab, newline, carriage, feed, -⟩ := none
  simp [isBlank, ne_of_bool hc space, ne_of_bool hc tab, ne_of_bool hc newline,
    ne_of_bool hc carriage, ne_of_bool hc feed]

theorem toNat_le_of_isDigit (h : c.isDigit = true) : c.toNat ≤ '9'.toNat :=
  UInt32.le_iff_toNat_le.mp (of_decide_eq_true (Bool.and_eq_true_iff.mp h).2)

theorem le_toNat_of_isAlpha (h : c.isAlpha = true) : 'A'.toNat ≤ c.toNat := by
  rcases Bool.or_eq_true_iff.mp h with upper | lower
  · exact UInt32.le_iff_toNat_le.mp (of_decide_eq_true upper).1
  · have above : 'a'.toNat ≤ c.toNat :=
      UInt32.le_iff_toNat_le.mp (of_decide_eq_true (Bool.and_eq_true_iff.mp lower).1)
    exact Nat.le_trans (by decide) above

theorem not_isDigit_of_isIdentStart (h : isIdentStart c = true) : c.isDigit = false := by
  simp only [isIdentStart, Bool.or_eq_true, decide_eq_true_iff] at h
  rcases h with (h | rfl) | rfl
  · refine Bool.eq_false_iff.mpr fun digit => ?_
    -- the digits stand before the letters
    have crossed : 'A'.toNat ≤ '9'.toNat :=
      Nat.le_trans (le_toNat_of_isAlpha h) (toNat_le_of_isDigit digit)
    exact absurd crossed (by decide)
  · rfl
  · rfl

/-- What is written for a token is read as one. -/
theorem Spelled.read {written after value : List Char} {kind : TokenKind}
    (h : Spelled written after kind value) :
    ∃ c cs, written = c :: cs ∧ isBlank c = false ∧ c ≠ '/' ∧
      readToken c (cs ++ after) = ⟨kind, written, value, none, after⟩ := by
  cases h with
  | @name c cs _ hc hcs stop =>
    refine ⟨c, cs, rfl, not_isBlank_of_bool hc rfl, ne_of_bool hc rfl, ?_⟩
    rw [readToken, if_neg (not_or.mpr ⟨ne_of_bool hc rfl, ne_of_bool hc rfl⟩),
      if_neg (ne_of_bool hc rfl), if_neg (by simp [not_isDigit_of_isIdentStart hc]), if_pos hc,
      Reading.plain, takeWhile_append_stop hcs stop, dropWhile_append_stop hcs stop]
  | @number c cs _ hc hcs stop =>
    refine ⟨c, cs, rfl, not_isBlank_of_bool hc rfl, ne_of_bool hc rfl, ?_⟩
    rw [readToken, if_neg (not_or.mpr ⟨ne_of_bool hc rfl, ne_of_bool hc rfl⟩),
      if_neg (ne_of_bool hc rfl), if_pos hc, Reading.plain, takeWhile_append_stop hcs stop,
      dropWhile_append_stop hcs stop]
  | @literal quote body _ _ hquote hbody =>
    refine ⟨quote, body ++ [quote], rfl, ?_, ?_, ?_⟩
    · rcases hquote with rfl | rfl <;> rfl
    · rcases hquote with rfl | rfl <;> decide
    · have notBreak : quote ≠ '\n' := by rcases hquote with rfl | rfl <;> decide
      have notEscape : quote ≠ '\\' := by rcases hquote with rfl | rfl <;> decide
      rw [readToken, if_pos hquote, List.append_assoc, List.singleton_append,
        readString_append_quote hbody notBreak notEscape]
      rfl
  | @sign c _ hc =>
    obtain ⟨hblank, hslash, hquote, hdigit, hident⟩ := hc
    simp only [List.mem_cons, List.not_mem_nil, or_false, not_or] at hquote
    refine ⟨c, [], rfl, hblank, hslash, ?_⟩
    rw [readToken, if_neg (by simp [hquote]), if_neg hquote.2.2, if_neg (by simp [hdigit]),
      if_neg (by simp [hident])]
    simp [Reading.plain]

/-- A token in front of a text, and no error. -/
theorem lexFrom_spelled {written : List Char} {kind : TokenKind}
    (h : Spelled written rest kind value) (pos : Nat) :
    lexFrom pos (written ++ rest) =
      ⟨⟨kind, String.ofList value, pos, pos + width written⟩ ::
        (lexFrom (pos + width written) rest).tokens, (lexFrom (pos + width written) rest).errors⟩ := by
  obtain ⟨c, cs, rfl, hblank, hslash, hread⟩ := h.read
  have gap : readGap (c :: cs ++ rest) = ⟨[], c :: (cs ++ rest), none⟩ :=
    readGap_of_token hblank hslash _
  have start : pos + width (readGap (c :: cs ++ rest)).written = pos := by
    rw [gap]
    rfl
  rw [lexFrom_of_token (congrArg Gap.rest gap) start, hread]
  rfl

/-- A text that is written as some tokens is split into these. -/
theorem tokens_of_written {pos : Nat} {cs : List Char} {ts : List Token} (h : Written pos cs ts) :
    (lexFrom pos cs).tokens = ts := by
  induction h with
  | nil => rw [lexFrom_of_end (by simp [readGap])]
  | skipped hpiece _ ih => rw [tokens_lexFrom_skipped hpiece, ih]
  | token htoken _ ih => rw [lexFrom_spelled htoken, ih]

/-- The bytes between two places are a literal in quotes. -/
def IsQuoted (cs : List Char) (start stop : Nat) (value : List Char) : Prop :=
  ∃ quote body, (quote = '\'' ∨ quote = '"') ∧
    slice? start stop cs = some (quote :: (body ++ [quote])) ∧ Quotes quote body value

/-- A literal starts at its opening quote and stops behind its closing one. -/
theorem isQuoted_of_written {cs text : List Char} {pos : Nat} {ts : List Token}
    (h : Written pos text ts) (ahead : Ahead cs pos text) :
    ∀ t ∈ ts, t.kind = .literal → IsQuoted cs t.start t.stop t.text.toList := by
  induction h with
  | nil => nofun
  | skipped _ _ ih => exact ih (ahead.append _ rfl)
  | @token pos written value rest kind ts htoken _ ih =>
    refine List.forall_mem_cons.mpr ⟨fun hkind => ?_, ih (ahead.append _ rfl)⟩
    have slice : slice? pos (pos + width written) cs = some written := ahead.slice?_eq rfl
    cases htoken with
    | literal hquote hbody =>
      exact ⟨_, _, hquote, slice, by simpa using hbody⟩
    | name => cases hkind
    | number => cases hkind
    | sign => cases hkind

end Precompile.Script
