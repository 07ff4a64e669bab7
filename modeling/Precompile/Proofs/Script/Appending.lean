import Precompile.Proofs.Script.Segmentation

/-!
What is appended to a text on a new line.

A token that is well formed ends before its line does or at a mark of its own, so it is read the
same whatever follows on the next line (`readToken_append_line`). A text without errors is therefore
read the same with anything below it, and what is below as if it stood alone (`lexFrom_append_line`).
-/

namespace Precompile.Script

/-! ### Moving places -/

def Token.shift (n : Nat) (t : Token) : Token := { t with start := t.start + n, stop := t.stop + n }

def LexicalError.shift (n : Nat) (e : LexicalError) : LexicalError :=
  { e with offset := e.offset + n }

/-- What lexing yields for a text that starts `n` bytes later. -/
def Lexed.shift (n : Nat) (l : Lexed) : Lexed :=
  ⟨l.tokens.map (·.shift n), l.errors.map (·.shift n)⟩

/-- What a token and its fault add to what lexing yields for the text behind it. -/
def Reading.before (r : Reading) (start : Nat) (l : Lexed) : Lexed :=
  ⟨r.token start :: l.tokens, (r.fault.map fun fault => ⟨start, fault⟩).toList ++ l.errors⟩

theorem Reading.before_shift (r : Reading) (start n : Nat) (l : Lexed) :
    r.before (start + n) (l.shift n) = (r.before start l).shift n := by
  have hstop : start + n + width r.written = start + width r.written + n := Nat.add_right_comm ..
  cases hfault : r.fault <;>
    simp [Reading.before, Lexed.shift, Reading.token, Token.shift, LexicalError.shift, hfault, hstop]

/-- A token behind a gap. -/
theorem lexFrom_of_token {pos start : Nat} {cs rest : List Char} {c : Char}
    (h : (readGap cs).rest = c :: rest) (hstart : pos + width (readGap cs).written = start) :
    lexFrom pos cs = (readToken c rest).before start
      (lexFrom (start + width (readToken c rest).written) (readToken c rest).rest) := by
  subst hstart
  rw [lexFrom]
  split
  next h' => rw [h] at h'; cases h'
  next h' => rw [h] at h'; cases h'; rfl

theorem lexFrom_add (n pos : Nat) (cs : List Char) :
    lexFrom (pos + n) cs = (lexFrom pos cs).shift n := by
  fun_induction lexFrom pos cs with
  | case1 pos cs hgap =>
    rw [lexFrom_of_end hgap]
    cases (readGap cs).openAt with
    | none => rfl
    | some at_ => simp [Lexed.shift, LexicalError.shift, Nat.add_right_comm]
  | case2 pos cs c rest hgap r start stop later ih =>
    have hstop : start + n + width r.written = stop + n := Nat.add_right_comm ..
    have hstart : pos + n + width (readGap cs).written = start + n := Nat.add_right_comm ..
    rw [lexFrom_of_token hgap hstart]
    exact (congrArg _ ((congrArg (lexFrom · r.rest) hstop).trans ih)).trans
      (r.before_shift start n later)

/-! ### Gaps -/

variable {cs rest : List Char} {c : Char}

/-- What stops at a line break does not see past it. -/
theorem takeWhile_append_line {p : Char → Bool} (stops : p '\n' = false) (cs b : List Char) :
    (cs ++ '\n' :: b).takeWhile p = cs.takeWhile p := by
  induction cs with
  | nil => simp [stops]
  | cons c cs ih => simp [List.takeWhile_cons, ih]

theorem dropWhile_append_line {p : Char → Bool} (stops : p '\n' = false) (cs b : List Char) :
    (cs ++ '\n' :: b).dropWhile p = cs.dropWhile p ++ '\n' :: b := by
  induction cs with
  | nil => simp [stops]
  | cons c cs ih =>
    rw [List.cons_append, List.dropWhile_cons, List.dropWhile_cons, ih]
    split <;> rfl

theorem splitBlockComment?_append_right {body : List Char}
    (h : splitBlockComment? cs = some (body, rest)) (later : List Char) :
    splitBlockComment? (cs ++ later) = some (body, rest ++ later) := by
  fun_induction splitBlockComment? cs generalizing body with
  | case1 tail => cases h; rfl
  | case2 c tail hopen ih =>
    obtain ⟨⟨body', rest'⟩, h', heq⟩ := Option.map_eq_some_iff.mp h
    simp only [Prod.mk.injEq] at heq
    obtain ⟨rfl, rfl⟩ := heq
    have still : ∀ tail', c = '*' → tail ++ later = '/' :: tail' → False := by
      intro tail' hstar htail
      cases tail with
      | nil => cases h'
      | cons d tail =>
        cases htail
        exact hopen _ hstar rfl
    rw [List.cons_append, splitBlockComment?, ih h']
    · rfl
    · exact still
  | case3 => cases h

@[simp] theorem Gap.after_after (g : Gap) (v w : List Char) :
    (g.after w).after v = g.after (v ++ w) := by
  simp [Gap.after, Option.map_map, List.append_assoc, width_append, Function.comp_def,
    Nat.add_assoc]

theorem Gap.written_after_congr {g g' : Gap} (v : List Char) (h : g.written = g'.written) :
    (g.after v).written = (g'.after v).written := congrArg (v ++ ·) h

/-- The line break below a text that ends in a gap belongs to the gap. -/
theorem readGap_append_line (hend : (readGap cs).rest = []) (closed : (readGap cs).openAt = none)
    (b : List Char) : readGap (cs ++ '\n' :: b) = (readGap b).after (cs ++ ['\n']) := by
  fun_induction readGap cs with
  | case1 rest ih =>
    have hopen : (readGap (rest.dropWhile (· != '\n'))).openAt = none :=
      Option.map_eq_none_iff.mp closed
    rw [List.cons_append, List.cons_append, readGap, dropWhile_append_line rfl,
      takeWhile_append_line rfl, ih hend hopen, Gap.after_after, List.cons_append, List.cons_append,
      ← List.append_assoc, List.takeWhile_append_dropWhile]
    rfl
  | case2 rest body rest' hclosed ih =>
    have hopen : (readGap rest').openAt = none := Option.map_eq_none_iff.mp closed
    rw [List.cons_append, List.cons_append,
      readGap_block (splitBlockComment?_append_right hclosed _), ih hend hopen, Gap.after_after,
      ← splitBlockComment?_append hclosed]
    simp
  | case3 rest hopen => cases closed
  | case4 c rest hline hblock hc ih =>
    have hopen : (readGap rest).openAt = none := Option.map_eq_none_iff.mp closed
    rw [List.cons_append, readGap_blank hc, ih hend hopen, Gap.after_after]
    rfl
  | case5 c rest hline hblock hc => cases hend
  | case6 => exact readGap_blank rfl

/-- A gap in front of a token does not change with what is written below. -/
theorem readGap_append_line_of_token (htoken : (readGap cs).rest = c :: rest) (b : List Char) :
    (readGap (cs ++ '\n' :: b)).rest = c :: (rest ++ '\n' :: b) ∧
      (readGap (cs ++ '\n' :: b)).written = (readGap cs).written := by
  fun_induction readGap cs with
  | case1 rest' ih =>
    rw [List.cons_append, List.cons_append, readGap, dropWhile_append_line rfl,
      takeWhile_append_line rfl]
    exact (ih htoken).imp id (Gap.written_after_congr _)
  | case2 rest' body rest'' hclosed ih =>
    rw [List.cons_append, List.cons_append,
      readGap_block (splitBlockComment?_append_right hclosed _)]
    exact (ih htoken).imp id (Gap.written_after_congr _)
  | case3 => cases htoken
  | case4 d rest' hline hblock hd ih =>
    rw [List.cons_append, readGap_blank hd]
    exact (ih htoken).imp id (Gap.written_after_congr _)
  | case5 d rest' hline hblock hd =>
    cases htoken
    -- a slash at the end of its line still opens nothing
    have notBelow : ∀ {x : Char} {later : List Char}, x ≠ '\n' →
        (∀ tail, rest = x :: tail → False) → rest ++ '\n' :: b ≠ x :: later := by
      intro x later hx hrest heq
      cases rest with
      | nil => exact hx (List.cons.inj heq).1.symm
      | cons d rest => exact hrest rest ((List.cons.inj heq).1 ▸ rfl)
    rw [List.cons_append, readGap, if_neg hd]
    · exact ⟨rfl, rfl⟩
    · exact fun _ hslash => notBelow (by decide) (hline · hslash)
    · exact fun _ hslash => notBelow (by decide) (hblock · hslash)
  | case6 => cases htoken

/-! ### Tokens -/

theorem readString_append_right {quote : Char} (closed : (readString quote cs).closed = true)
    (later : List Char) : readString quote (cs ++ later) =
      { readString quote cs with rest := (readString quote cs).rest ++ later } := by
  fun_induction readString quote cs with
  | case1 => cases closed
  | case2 => cases closed
  | case3 rest hline =>
    rw [List.cons_append, readString.eq_def]
    dsimp only
    rw [if_neg hline, if_pos rfl]
  | case4 => cases closed
  | case5 e rest hline hquote ih =>
    have inner := ih closed
    rw [List.cons_append, List.cons_append, readString, if_neg hline, if_neg hquote, if_pos rfl,
      inner]
    rfl
  | case6 c rest hline hquote hescape ih =>
    have inner := ih closed
    rw [List.cons_append, readString.eq_def]
    dsimp only
    rw [if_neg hline, if_neg hquote, if_neg hescape, inner]
    rfl

theorem readTemplate_append_right {depth : Nat} (closed : (readTemplate depth cs).closed = true)
    (later : List Char) : readTemplate depth (cs ++ later) =
      { readTemplate depth cs with rest := (readTemplate depth cs).rest ++ later } := by
  -- a dollar sign at the end of a template that is not closed does not count
  have notBelow : ∀ {c : Char} {rest : List Char}, rest ≠ [] →
      (∀ tail, c = '$' → rest = '\x7b' :: tail → False) →
      ∀ tail, c = '$' → rest ++ later = '\x7b' :: tail → False := by
    intro c rest nonempty hopening tail hc heq
    obtain ⟨d, rest, rfl⟩ := List.exists_cons_of_ne_nil nonempty
    cases heq
    exact hopening rest hc rfl
  fun_induction readTemplate depth cs with
  | case1 => cases closed
  | case2 depth rest ih =>
    have inner := ih closed
    rw [List.cons_append, List.cons_append, readTemplate, inner]
    rfl
  | case3 rest hopening =>
    cases rest <;> cases later <;> simp [readTemplate]
  | case4 => cases closed
  | case5 e rest hquote hopening ih =>
    have inner := ih closed
    rw [List.cons_append, List.cons_append, readTemplate, if_neg hquote, if_pos rfl, inner]
    · rfl
    · exact fun _ h => absurd h (by decide)
  | case6 c rest hopening hquote hescape ih =>
    have inner := ih closed
    have nonempty : rest ≠ [] := by
      rintro rfl
      cases closed
    obtain ⟨e, rest, rfl⟩ := List.exists_cons_of_ne_nil nonempty
    rw [List.cons_append, List.cons_append, readTemplate, if_neg hquote, if_neg hescape,
      ← List.cons_append, inner]
    · rfl
    · exact notBelow nonempty hopening
  | case7 =>
    rename_i c rest hopening depth next ih
    have inner := ih closed
    have nonempty : rest ≠ [] := by
      rintro rfl
      rw [readTemplate] at closed
      cases closed
    rw [List.cons_append, readTemplate]
    · exact congrArg (Quoted.skip [c]) inner
    · exact notBelow nonempty hopening

theorem Reading.quoted_append_right {fault : LexicalFault} {q q' : Quoted} {later : List Char}
    (whole : (Reading.quoted c fault q).fault = none)
    (h : q.closed = true → q' = { q with rest := q.rest ++ later }) :
    Reading.quoted c fault q' = { Reading.quoted c fault q with rest := q.rest ++ later } := by
  rw [fault_quoted] at whole
  split at whole
  next closed =>
    rw [h closed]
    simp only [Reading.quoted]
    split <;> rfl
  next => cases whole

theorem Reading.plain_append_line {p : Char → Bool} (stops : p '\n' = false) (kind : TokenKind)
    (b : List Char) : Reading.plain kind c p (cs ++ '\n' :: b) =
      { Reading.plain kind c p cs with rest := (Reading.plain kind c p cs).rest ++ '\n' :: b } := by
  simp only [Reading.plain, takeWhile_append_line stops, dropWhile_append_line stops]

/-- A well-formed token does not change with what is written below. -/
theorem readToken_append_line (whole : (readToken c cs).fault = none) (b : List Char) :
    readToken c (cs ++ '\n' :: b) =
      { readToken c cs with rest := (readToken c cs).rest ++ '\n' :: b } := by
  unfold readToken at whole ⊢
  split
  next quote =>
    rw [if_pos quote] at whole
    rw [Reading.rest_quoted]
    exact Reading.quoted_append_right whole fun closed => readString_append_right closed _
  next quote =>
  rw [if_neg quote] at whole
  split
  next template =>
    rw [if_pos template] at whole
    rw [Reading.rest_quoted]
    exact Reading.quoted_append_right whole fun closed => readTemplate_append_right closed _
  next =>
  split
  · exact Reading.plain_append_line rfl _ b
  split
  · exact Reading.plain_append_line rfl _ b
  · exact Reading.plain_append_line rfl _ b

/-! ### The whole text -/

/-- A text that starts with a piece of a gap is read as what follows the piece. -/
theorem lexFrom_of_after {piece b : List Char} (pos : Nat)
    (h : readGap cs = (readGap b).after piece) : lexFrom pos cs = lexFrom (pos + width piece) b := by
  have written : width (readGap cs).written = width piece + width (readGap b).written := by
    rw [h]
    exact width_append _ _
  cases hrest : (readGap b).rest with
  | nil =>
    rw [lexFrom_of_end hrest, lexFrom_of_end (h ▸ hrest), h]
    cases hopen : (readGap b).openAt <;> simp [Gap.after, hopen, Nat.add_assoc]
  | cons c rest =>
    have hstart :
        pos + width (readGap cs).written = pos + width piece + width (readGap b).written := by
      rw [written, Nat.add_assoc]
    have hrest' : (readGap cs).rest = c :: rest := h ▸ hrest
    rw [lexFrom_of_token hrest rfl, lexFrom_of_token hrest' hstart]

theorem lexFrom_append_line (pos : Nat) (cs b : List Char) (whole : (lexFrom pos cs).errors = []) :
    lexFrom pos (cs ++ '\n' :: b) =
      ⟨(lexFrom pos cs).tokens ++ (lexFrom (pos + (width cs + 1)) b).tokens,
        (lexFrom (pos + (width cs + 1)) b).errors⟩ := by
  fun_induction lexFrom pos cs with
  | case1 pos cs hgap =>
    have closed : (readGap cs).openAt = none := by
      cases hopen : (readGap cs).openAt with
      | none => rfl
      | some at_ => simp [hopen] at whole
    rw [lexFrom_of_after pos (readGap_append_line hgap closed b), width_append]
    rfl
  | case2 pos cs c rest hgap r start stop later ih =>
    obtain ⟨hfault, hlater⟩ := List.append_eq_nil_iff.mp whole
    have token : (readToken c rest).fault = none := by
      cases hf : (readToken c rest).fault with
      | none => rfl
      | some fault => simp [r, hf] at hfault
    obtain ⟨htoken, hwritten⟩ := readGap_append_line_of_token hgap b
    have hend : stop + (width r.rest + 1) = pos + (width cs + 1) := by
      have hgapWidth := congrArg width (readGap_append cs)
      have htokenWidth := congrArg width (readToken_append c rest)
      rw [hgap, width_append] at hgapWidth
      rw [width_append] at htokenWidth
      simp only [stop, start, r]
      omega
    have hstart : pos + width (readGap (cs ++ '\n' :: b)).written = start := by rw [hwritten]
    rw [lexFrom_of_token htoken hstart, readToken_append_line token b, ← hend]
    show Reading.before _ start (lexFrom stop (r.rest ++ '\n' :: b)) = _
    rw [ih hlater]
    simp only [Reading.before, r, token]
    rfl

/-- A text without errors is read the same with more lines below it, and these as if they stood
alone. -/
theorem lex_append_line (a b : String) (whole : (lex a).errors = []) :
    lex (a ++ "\n" ++ b) =
      ⟨(lex a).tokens ++ ((lex b).shift (a.utf8ByteSize + 1)).tokens,
        ((lex b).shift (a.utf8ByteSize + 1)).errors⟩ := by
  have text : (a ++ "\n" ++ b).toList = a.toList ++ '\n' :: b.toList := by
    rw [String.toList_append, String.toList_append, List.append_assoc]
    rfl
  rw [lex, text, lexFrom_append_line 0 _ _ whole, lexFrom_add, width_toList]
  rfl

/-- A slash at the end of a line opens nothing with what stands below it. -/
theorem lex_append_line_slashes :
    (lex "x /").errors = [] ∧
      lex ("x /" ++ "\n" ++ "/*") =
        ⟨(lex "x /").tokens ++ ((lex "/*").shift 4).tokens, ((lex "/*").shift 4).errors⟩ := by
  have name : (readGap ['x', ' ', '/']).rest = 'x' :: [' ', '/'] := by simp [readGap, isBlank]
  have slash : (readGap [' ', '/']).rest = '/' :: [] := by simp [readGap, isBlank, Gap.after]
  have nothing : (readGap []).rest = [] := by simp [readGap]
  have whole : (lex "x /").errors = [] := by
    simp [lex, lexFrom_of_token name rfl, lexFrom_of_token slash rfl, lexFrom_of_end nothing,
      Reading.before, readToken, readGap, isIdentStart, isIdentPart, Reading.plain]
  exact ⟨whole, lex_append_line "x /" "/*" whole⟩

end Precompile.Script
