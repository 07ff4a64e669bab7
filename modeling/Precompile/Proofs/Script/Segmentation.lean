import Mathlib.Data.List.TakeWhile
import Precompile.Proofs.Script.Tokens

/-!
How the tokens of a script divide its text.

Tokens stand between characters, one behind the other, and hold what is written there; what they
leave out is white space and comments; errors are told in the order of the text, each at the
literal, template or comment that is not closed (`segments_lexFrom`).
-/

namespace Precompile.Script

/-! ### Gaps -/

/-- A part of a text that is passed over, given what follows it. -/
inductive IsSkipped : List Char → List Char → Prop where
  -- A white space character.
  | blank {c : Char} {after : List Char} : isBlank c = true → IsSkipped [c] after
  -- A comment up to its line break.
  | line {body after : List Char} : '\n' ∉ body → (∀ c ∈ after.head?, c = '\n') →
      IsSkipped ('/' :: '/' :: body) after
  -- A comment up to the first mark of its end.
  | block {body after : List Char} : ¬ ['*', '/'] <:+: body ++ ['*'] →
      IsSkipped ('/' :: '*' :: (body ++ ['*', '/'])) after
  -- A comment without an end.
  | unclosed {body : List Char} : ¬ ['*', '/'] <:+: body → IsSkipped ('/' :: '*' :: body) []

/-- A block comment ends with the first mark of an end. -/
theorem exists_of_splitBlockComment? {cs body rest : List Char}
    (h : splitBlockComment? cs = some (body, rest)) :
    ∃ inner, body = inner ++ ['*', '/'] ∧ ¬ ['*', '/'] <:+: inner ++ ['*'] := by
  fun_induction splitBlockComment? cs generalizing body with
  | case1 tail =>
    cases h
    exact ⟨[], rfl, by decide⟩
  | case2 c tail hopen ih =>
    obtain ⟨⟨body', rest'⟩, h', heq⟩ := Option.map_eq_some_iff.mp h
    simp only [Prod.mk.injEq] at heq
    obtain ⟨rfl, rfl⟩ := heq
    obtain ⟨inner, rfl, first⟩ := ih h'
    refine ⟨c :: inner, rfl, ?_⟩
    rw [List.cons_append, List.infix_cons_iff, not_or]
    refine ⟨fun hprefix => ?_, first⟩
    have hinner : inner ++ ['*'] <+: tail := by
      refine ⟨'/' :: rest', ?_⟩
      rw [← splitBlockComment?_append h']
      simp
    obtain ⟨later, heq⟩ := hprefix.trans (List.cons_prefix_cons.mpr ⟨rfl, hinner⟩)
    cases heq
    exact hopen later rfl rfl
  | case3 => cases h

theorem not_infix_of_splitBlockComment? {cs : List Char} (h : splitBlockComment? cs = none) :
    ¬ ['*', '/'] <:+: cs := by
  fun_induction splitBlockComment? cs with
  | case1 => cases h
  | case2 c tail hopen ih =>
    rw [List.infix_cons_iff, not_or]
    refine ⟨fun hprefix => ?_, ih (Option.map_eq_none_iff.mp h)⟩
    obtain ⟨later, heq⟩ := hprefix
    cases heq
    exact hopen later rfl rfl
  | case3 => decide

/-- The byte `n` is passed over as a part of white space or of a comment between two places. -/
def IsSkippedAt (cs : List Char) (n lo hi : Nat) : Prop :=
  ∃ start piece rest, Ahead cs start (piece ++ rest) ∧ IsSkipped piece rest ∧ lo ≤ start ∧
    start ≤ n ∧ n < start + width piece ∧ start + width piece ≤ hi

variable {cs text rest : List Char} {i n : Nat}

/-- Where a gap begins with a part that is passed over, its bytes are those of the part and those of
the rest of the gap. -/
theorem IsSkippedAt.after_piece {piece : List Char} {g : Gap} (h : Ahead cs i text)
    (parts : piece ++ rest = text) (skipped : IsSkipped piece rest)
    (behind : i ≤ n) (before : n < i + width (g.after piece).written)
    (later : Ahead cs (i + width piece) rest → i + width piece ≤ n →
      n < i + width piece + width g.written →
      IsSkippedAt cs n (i + width piece) (i + width piece + width g.written)) :
    IsSkippedAt cs n i (i + width (g.after piece).written) := by
  rw [Gap.after, width_append, ← Nat.add_assoc] at before ⊢
  by_cases here : n < i + width piece
  · exact ⟨i, piece, rest, parts ▸ h, skipped, Nat.le_refl i, behind, here, Nat.le_add_right _ _⟩
  · obtain ⟨start, piece', rest', h', skipped', inside, bounds⟩ :=
      later (h.append piece parts) (Nat.le_of_not_lt here) before
    exact ⟨start, piece', rest', h', skipped', Nat.le_of_add_right_le inside, bounds⟩

/-- Each byte of a gap is passed over. -/
theorem isSkippedAt_readGap (h : Ahead cs i text) (behind : i ≤ n)
    (before : n < i + width (readGap text).written) :
    IsSkippedAt cs n i (i + width (readGap text).written) := by
  fun_induction readGap text generalizing i with
  | case1 rest ih =>
    refine .after_piece h (by simp) (.line (fun hmem => ?_) fun c hc => ?_) behind before ih
    · exact absurd (List.mem_takeWhile_imp hmem) (by decide)
    · have stops := List.head?_dropWhile_not (· != '\n') rest
      rw [Option.mem_def] at hc
      simpa [hc] using stops
  | case2 rest body rest' hclosed ih =>
    have parts := splitBlockComment?_append hclosed
    obtain ⟨inner, rfl, first⟩ := exists_of_splitBlockComment? hclosed
    exact .after_piece h (by simp [← parts]) (.block first) behind before ih
  | case3 rest hopen =>
    exact ⟨i, _, [], (List.append_nil _).symm ▸ h, .unclosed (not_infix_of_splitBlockComment? hopen),
      Nat.le_refl i, behind, before, Nat.le_refl _⟩
  | case4 c rest hline hblock hc ih => exact .after_piece h rfl (.blank hc) behind before ih
  | case5 => exact absurd before (Nat.not_lt_of_le behind)
  | case6 => exact absurd before (Nat.not_lt_of_le behind)

/-- A comment that is not closed reaches to the end of the text. -/
theorem openAt_readGap (h : Ahead cs i text) (hopen : (readGap text).openAt = some n) :
    (readGap text).rest = [] ∧
      ∃ body, Ahead cs (i + n) ('/' :: '*' :: body) ∧ ¬ ['*', '/'] <:+: body := by
  have later : ∀ {piece : List Char} {g : Gap} {i n : Nat}, (g.after piece).openAt = some n →
      ∃ k, g.openAt = some k ∧ i + width piece + k = i + n := by
    intro piece g i n hn
    obtain ⟨k, hk, rfl⟩ := Option.map_eq_some_iff.mp hn
    exact ⟨k, hk, Nat.add_assoc ..⟩
  fun_induction readGap text generalizing i n with
  | case1 rest ih =>
    obtain ⟨k, hk, hplace⟩ := later hopen
    exact hplace ▸ ih (h.append _ (by simp)) hk
  | case2 rest body rest' hclosed ih =>
    obtain ⟨k, hk, hplace⟩ := later hopen
    exact hplace ▸ ih (h.append _ (by simp [splitBlockComment?_append hclosed])) hk
  | case3 rest hclosed =>
    cases hopen
    exact ⟨rfl, rest, h, not_infix_of_splitBlockComment? hclosed⟩
  | case4 c rest hline hblock hc ih =>
    obtain ⟨k, hk, hplace⟩ := later hopen
    exact hplace ▸ ih (h.append [c] rfl) hk
  | case5 => cases hopen
  | case6 => cases hopen

/-! ### Tokens -/

/-- A token is a quoted text or one that is kept as it is written. -/
theorem readToken_cases (c : Char) (rest : List Char) :
    (∃ fault q, fault ≠ .openComment ∧ readToken c rest = .quoted c fault q) ∨
      ∃ kind p, readToken c rest = .plain kind c p rest := by
  unfold readToken
  split
  · exact .inl ⟨.openString, _, by decide, rfl⟩
  split
  · exact .inl ⟨.openTemplate, _, by decide, rfl⟩
  split
  · exact .inr ⟨_, _, rfl⟩
  split
  · exact .inr ⟨_, _, rfl⟩
  · exact .inr ⟨_, _, rfl⟩

/-- A token takes at least one byte. -/
theorem width_readToken_pos (c : Char) (rest : List Char) :
    0 < width (readToken c rest).written := by
  obtain ⟨d, written, hwritten⟩ := List.exists_cons_of_ne_nil (readToken_written_ne_nil c rest)
  rw [hwritten, width]
  exact Nat.add_pos_left (charWidth_pos d) _

/-- Only the text of a literal is not what is written. -/
theorem text_readToken (c : Char) (rest : List Char) (h : (readToken c rest).kind ≠ .literal) :
    (readToken c rest).text = (readToken c rest).written := by
  rcases readToken_cases c rest with ⟨fault, q, -, hread⟩ | ⟨kind, p, hread⟩
  · rw [hread] at h ⊢
    unfold Reading.quoted at h ⊢
    cases hsub : q.substituted with
    | true => rfl
    | false => simp [hsub] at h
  · rw [hread]
    rfl

theorem fault_quoted (c : Char) (fault : LexicalFault) (q : Quoted) :
    (Reading.quoted c fault q).fault = if q.closed then none else some fault := by
  simp only [Reading.quoted]
  split <;> rfl

theorem kind_quoted (c : Char) (fault : LexicalFault) (q : Quoted) :
    (Reading.quoted c fault q).kind = .literal ∨ (Reading.quoted c fault q).kind = .template := by
  simp only [Reading.quoted]
  split
  · exact .inr rfl
  · exact .inl rfl

/-- Only literals and templates are malformed. -/
theorem fault_readToken (c : Char) (rest : List Char) (fault : LexicalFault)
    (h : (readToken c rest).fault = some fault) :
    fault ≠ .openComment ∧
      ((readToken c rest).kind = .literal ∨ (readToken c rest).kind = .template) := by
  rcases readToken_cases c rest with ⟨fault', q, hfault', hread⟩ | ⟨kind, p, hread⟩
  · rw [hread] at h ⊢
    rw [fault_quoted] at h
    split at h
    · cases h
    · cases h
      exact ⟨hfault', kind_quoted c _ q⟩
  · rw [hread] at h
    cases h

/-! ### The whole text -/

/-- The tokens and errors of a text account for it from a place on. -/
structure Segments (cs : List Char) (i : Nat) (l : Lexed) : Prop where
  after : ∀ t ∈ l.tokens, i ≤ t.start
  nonempty : ∀ t ∈ l.tokens, t.start < t.stop
  inside : ∀ t ∈ l.tokens, t.stop ≤ width cs
  -- Tokens start and stop between characters.
  between : ∀ t ∈ l.tokens, (∃ rest, Ahead cs t.start rest) ∧ ∃ rest, Ahead cs t.stop rest
  ordered : l.tokens.Pairwise fun t u => t.stop ≤ u.start
  written : ∀ t ∈ l.tokens, t.kind ≠ .literal → slice? t.start t.stop cs = some t.text.toList
  -- Every other byte belongs to white space or a comment that no token touches.
  skipped : ∀ n, i ≤ n → n < width cs → (∀ t ∈ l.tokens, ¬ (t.start ≤ n ∧ n < t.stop)) →
    ∃ lo hi, i ≤ lo ∧ IsSkippedAt cs n lo hi ∧ ∀ t ∈ l.tokens, t.stop ≤ lo ∨ hi ≤ t.start
  errorsAfter : ∀ e ∈ l.errors, i ≤ e.offset
  errorsOrdered : l.errors.Pairwise fun d e => d.offset < e.offset
  -- An error is that of the comment at the end or of a literal or template.
  errors : ∀ e ∈ l.errors,
    (e.fault = .openComment ∧ (∀ t ∈ l.tokens, t.stop ≤ e.offset) ∧
        ∃ body, Ahead cs e.offset ('/' :: '*' :: body) ∧ ¬ ['*', '/'] <:+: body) ∨
      e.fault ≠ .openComment ∧
        ∃ t ∈ l.tokens, t.start = e.offset ∧ (t.kind = .literal ∨ t.kind = .template)

/-- The last gap of a text. -/
theorem segments_of_gap (h : Ahead cs i text) (hgap : (readGap text).rest = []) :
    Segments cs i ⟨[], ((readGap text).openAt.map fun at_ => ⟨i + at_, .openComment⟩).toList⟩ := by
  have atEnd : Ahead cs (i + width (readGap text).written) [] :=
    h.append _ (hgap ▸ readGap_append text)
  have hend : i + width (readGap text).written = width cs := atEnd.add_width
  have comment : ∀ e ∈ ((readGap text).openAt.map fun at_ =>
      LexicalError.mk (i + at_) .openComment).toList,
      ∃ n, (readGap text).openAt = some n ∧ e = ⟨i + n, .openComment⟩ := by
    intro e he
    obtain ⟨n, hn, rfl⟩ := Option.map_eq_some_iff.mp (Option.mem_toList.mp he)
    exact ⟨n, hn, rfl⟩
  constructor
  case skipped =>
    intro n behind before _
    exact ⟨_, _, Nat.le_refl i, isSkippedAt_readGap h behind (hend ▸ before), nofun⟩
  case errorsAfter =>
    intro e he
    obtain ⟨n, -, rfl⟩ := comment e he
    exact Nat.le_add_right i n
  case errorsOrdered => cases (readGap text).openAt <;> simp
  case errors =>
    intro e he
    obtain ⟨n, hn, rfl⟩ := comment e he
    exact .inl ⟨rfl, nofun, (openAt_readGap h hn).2⟩
  all_goals simp

/-- A token behind a gap, and what comes after it. -/
theorem Segments.cons {c : Char} {l : Lexed} (h : Ahead cs i text)
    (hgap : (readGap text).rest = c :: rest)
    (later : Segments cs (i + width (readGap text).written + width (readToken c rest).written) l) :
    Segments cs i ⟨(readToken c rest).token (i + width (readGap text).written) :: l.tokens,
      ((readToken c rest).fault.map fun fault => ⟨i + width (readGap text).written, fault⟩).toList ++
        l.errors⟩ := by
  have here : Ahead cs (i + width (readGap text).written) (c :: rest) :=
    h.append _ (hgap ▸ readGap_append text)
  have skipped := fun n => isSkippedAt_readGap h (n := n)
  have parts := readToken_append c rest
  have taken := width_readToken_pos c rest
  have ofLiteral := text_readToken c rest
  have ofFault := fault_readToken c rest
  have onward : i ≤ i + width (readGap text).written := Nat.le_add_right _ _
  generalize i + width (readGap text).written = start at here later skipped onward ⊢
  generalize readToken c rest = r at parts taken later ofLiteral ofFault ⊢
  have further := here.append _ parts
  have token : ∀ {Q : Token → Prop}, Q (r.token start) → (∀ t ∈ l.tokens, Q t) →
      ∀ t ∈ r.token start :: l.tokens, Q t := fun hr hl => List.forall_mem_cons.mpr ⟨hr, hl⟩
  have fault : ∀ e ∈ (r.fault.map fun fault => LexicalError.mk start fault).toList,
      r.fault = some e.fault ∧ e.offset = start := by
    intro e he
    obtain ⟨f, hf, rfl⟩ := Option.map_eq_some_iff.mp (Option.mem_toList.mp he)
    exact ⟨hf, rfl⟩
  constructor
  case after => exact token onward fun t ht => by have := later.after t ht; omega
  case nonempty => exact token (Nat.lt_add_of_pos_right taken) later.nonempty
  case inside => exact token (Nat.le.intro further.add_width) later.inside
  case between => exact token ⟨⟨_, here⟩, _, further⟩ later.between
  case ordered => exact List.pairwise_cons.mpr ⟨later.after, later.ordered⟩
  case written =>
    refine token (fun hkind => ?_) later.written
    show slice? start (start + width r.written) cs = some (String.ofList r.text).toList
    rw [here.slice?_eq parts, ofLiteral hkind, String.toList_ofList]
  case skipped =>
    intro n behind before outside
    obtain ⟨notHere, outside⟩ := List.forall_mem_cons.mp outside
    by_cases gap : n < start
    · refine ⟨_, _, Nat.le_refl i, skipped n behind gap,
        token (.inr (Nat.le_refl start)) fun t ht => .inr ?_⟩
      exact Nat.le_trans (Nat.le_add_right _ _) (later.after t ht)
    · have beyond : start + width r.written ≤ n :=
        Nat.le_of_not_lt fun inside => notHere ⟨Nat.le_of_not_lt gap, inside⟩
      obtain ⟨lo, hi, behind', passed, apart⟩ := later.skipped n beyond before outside
      exact ⟨lo, hi, by omega, passed, token (.inl behind') apart⟩
  case errorsAfter =>
    refine List.forall_mem_append.mpr ⟨fun e he => (fault e he).2 ▸ onward, fun e he => ?_⟩
    have := later.errorsAfter e he
    omega
  case errorsOrdered =>
    refine List.pairwise_append.mpr ⟨by cases r.fault <;> simp, later.errorsOrdered, ?_⟩
    intro d hd e he
    have := later.errorsAfter e he
    have := (fault d hd).2
    omega
  case errors =>
    refine List.forall_mem_append.mpr ⟨fun e he => ?_, fun e he => ?_⟩
    · obtain ⟨hfault, hplace⟩ := fault e he
      obtain ⟨notComment, hkind⟩ := ofFault _ hfault
      exact .inr ⟨notComment, _, List.mem_cons_self, hplace.symm, hkind⟩
    · have beyond := later.errorsAfter e he
      rcases later.errors e he with ⟨comment, behind, unclosed⟩ | ⟨notComment, t, ht, facts⟩
      · exact .inl ⟨comment, token beyond behind, unclosed⟩
      · exact .inr ⟨notComment, t, List.mem_cons_of_mem _ ht, facts⟩

theorem segments_lexFrom (h : Ahead cs i text) : Segments cs i (lexFrom i text) := by
  fun_induction lexFrom i text with
  | case1 i text hgap => exact segments_of_gap h hgap
  | case2 i text c rest hgap r start stop later ih =>
    have here : Ahead cs start (c :: rest) := h.append _ (hgap ▸ readGap_append text)
    exact .cons h hgap (ih (here.append _ (readToken_append c rest)))

end Precompile.Script
