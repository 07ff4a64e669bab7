import Precompile.Script.File
import Precompile.Script.Imports

/-!
Where tokens and imports stand in a text.

Every token was read at a place between two characters (`exists_of_mem_tokens`), and every module
that a script names is written there as a literal (`exists_literal_of_mem_scanImports`).
-/

namespace Precompile.Script

/-! ### Places between characters -/

theorem charWidth_pos (c : Char) : 0 < charWidth c := Char.utf8Size_pos c

theorem width_append (cs ds : List Char) : width (cs ++ ds) = width cs + width ds := by
  induction cs with
  | nil => simp [width]
  | cons c cs ih => simp [width, ih, Nat.add_assoc]

theorem width_toList (s : String) : width s.toList = s.utf8ByteSize := by
  have ofList : ∀ cs, width cs = (String.ofList cs).utf8ByteSize := by
    intro cs
    induction cs with
    | nil => rfl
    | cons c cs ih =>
      rw [width, ih, String.ofList_cons, String.utf8ByteSize_append, String.utf8ByteSize_singleton]
      rfl
  rw [ofList, String.ofList_toList]

/-- The width of a text that starts with a character is not zero. -/
theorem width_cons (c : Char) (cs : List Char) :
    ∃ n, width (c :: cs) = n + 1 ∧ charWidth c ≤ n + 1 ∧ n + 1 - charWidth c = width cs := by
  have hpos := charWidth_pos c
  exact ⟨charWidth c + width cs - 1, by rw [width]; omega, by omega, by omega⟩

theorem takeBytes?_width (before rest : List Char) :
    takeBytes? (width before) (before ++ rest) = some before := by
  induction before with
  | nil => simp [width, takeBytes?]
  | cons c cs ih =>
    obtain ⟨n, hwidth, hle, hleft⟩ := width_cons c cs
    rw [hwidth, List.cons_append, takeBytes?, if_pos hle, hleft, ih, Option.map_some]

theorem dropBytes?_width (before rest : List Char) :
    dropBytes? (width before) (before ++ rest) = some rest := by
  induction before with
  | nil => simp [width, dropBytes?]
  | cons c cs ih =>
    obtain ⟨n, hwidth, hle, hleft⟩ := width_cons c cs
    rw [hwidth, List.cons_append, dropBytes?, if_pos hle, hleft, ih]

/-- What is left of a text at a place between two characters. -/
def Ahead (cs : List Char) (i : Nat) (rest : List Char) : Prop :=
  ∃ before, cs = before ++ rest ∧ width before = i

namespace Ahead

variable {cs rest : List Char} {i : Nat}

theorem start (cs : List Char) : Ahead cs 0 cs := ⟨[], rfl, rfl⟩

theorem append {later : List Char} (h : Ahead cs i rest) (written : List Char)
    (parts : written ++ later = rest) : Ahead cs (i + width written) later := by
  obtain ⟨before, rfl, rfl⟩ := h
  exact ⟨before ++ written, by rw [List.append_assoc, parts], width_append _ _⟩

theorem next {c : Char} (h : Ahead cs i (c :: rest)) : Ahead cs (i + charWidth c) rest :=
  h.append [c] rfl

theorem add_width (h : Ahead cs i rest) : i + width rest = width cs := by
  obtain ⟨before, rfl, rfl⟩ := h
  exact (width_append _ _).symm

theorem dropBytes?_eq (h : Ahead cs i rest) : dropBytes? i cs = some rest := by
  obtain ⟨before, rfl, rfl⟩ := h
  exact dropBytes?_width before rest

theorem slice?_eq {written later : List Char} (h : Ahead cs i rest)
    (parts : written ++ later = rest) : slice? i (i + width written) cs = some written := by
  subst parts
  rw [slice?, if_pos (Nat.le_add_right _ _), h.dropBytes?_eq, Option.bind_some,
    Nat.add_sub_cancel_left, takeBytes?_width]

end Ahead

/-- There is a line around each place between characters. -/
theorem exists_lineAround? (before rest : List Char) :
    ∃ line, lineAround? (width before) (before ++ rest) = some line := by
  have inside : min (width before) (width (before ++ rest)) = width before := by
    rw [width_append]
    omega
  simp only [lineAround?, inside, takeBytes?_width, dropBytes?_width, Option.bind_some,
    Option.map_some]
  exact ⟨_, rfl⟩

/-! ### Tokens -/

/-- The token that was read at an offset. -/
def Reading.token (r : Reading) (start : Nat) : Token :=
  ⟨r.kind, String.ofList r.text, start, start + width r.written⟩

/-- Each token of a text was read at its place. -/
theorem exists_of_mem_tokens {pos : Nat} {cs : List Char} {t : Token}
    (ht : t ∈ (lexFrom pos cs).tokens) :
    ∃ before c rest, cs = before ++ c :: rest ∧
      t = (readToken c rest).token (pos + width before) := by
  fun_induction lexFrom pos cs with
  | case1 => cases ht
  | case2 pos cs c rest hgap r start stop later ih =>
    have hcs : (readGap cs).written ++ c :: rest = cs := hgap ▸ readGap_append cs
    rcases List.mem_cons.mp ht with rfl | ht
    · exact ⟨_, c, rest, hcs.symm, rfl⟩
    · obtain ⟨before, c', rest', hrest, rfl⟩ := ih ht
      refine ⟨(readGap cs).written ++ (r.written ++ before), c', rest', ?_, ?_⟩
      · have hread : r.written ++ r.rest = c :: rest := readToken_append c rest
        rw [List.append_assoc, List.append_assoc, ← hrest, hread, hcs]
      · simp only [stop, start, width_append, Nat.add_assoc]

/-- A literal starts with a quote. -/
theorem isQuote_of_literal {c : Char} {rest : List Char} (h : (readToken c rest).kind = .literal) :
    c = '\'' ∨ c = '"' ∨ c = '`' := by
  unfold readToken at h
  split at h
  next quote => exact quote.imp_right .inl
  next =>
    split at h
    next template => exact .inr (.inr template)
    next =>
      split at h
      · cases h
      · split at h <;> cases h

/-! ### Imports -/

theorem literalAt?_eq_some {ts : List Token} {t : Token} (h : literalAt? ts = some t) :
    t ∈ ts ∧ t.kind = .literal := by
  cases ts with
  | nil => cases h
  | cons u ts =>
    rw [literalAt?] at h
    split at h
    next literal =>
      cases h
      exact ⟨List.mem_cons_self, literal⟩
    next => cases h

theorem findFrom?_eq_some {n : Nat} {ts : List Token} {t : Token} (h : findFrom? n ts = some t) :
    t ∈ ts ∧ t.kind = .literal := by
  fun_induction findFrom? n ts with
  | case1 => cases h
  | case2 => cases h
  | case3 => cases h
  | case4 n u rest _ _ => exact (literalAt?_eq_some h).imp_left (List.mem_cons_of_mem _)
  | case5 n u rest _ _ ih => exact (ih h).imp_left (List.mem_cons_of_mem _)

theorem importTarget?_eq_some {ts : List Token} {t : Token} (h : importTarget? ts = some t) :
    t ∈ ts ∧ t.kind = .literal := by
  cases ts with
  | nil => cases h
  | cons u ts =>
    rw [importTarget?] at h
    split at h
    next literal =>
      cases h
      exact ⟨List.mem_cons_self, literal⟩
    next =>
      split at h
      · exact (literalAt?_eq_some h).imp_left (List.mem_cons_of_mem _)
      · exact findFrom?_eq_some h

/-- What a script names is one of its literals. -/
theorem exists_literal_of_mem_scanImports {ts : List Token} {i : ImportRef}
    (hi : i ∈ scanImports ts) : ∃ t ∈ ts, t.kind = .literal ∧ i = .ofToken t := by
  induction ts with
  | nil => cases hi
  | cons u ts ih =>
    rw [scanImports, List.mem_append] at hi
    rcases hi with hi | hi
    · obtain ⟨t, htarget, rfl⟩ := Option.map_eq_some_iff.mp (Option.mem_toList.mp hi)
      have found : t ∈ ts ∧ t.kind = .literal := by
        split at htarget
        · exact importTarget?_eq_some htarget
        · split at htarget
          · exact findFrom?_eq_some htarget
          · cases htarget
      exact ⟨t, List.mem_cons_of_mem _ found.1, found.2, rfl⟩
    · obtain ⟨t, ht, facts⟩ := ih hi
      exact ⟨t, List.mem_cons_of_mem _ ht, facts⟩

/-- A reference is written in a text: its offset is that of the quote that opens its literal. -/
def ImportRef.StandsIn (i : ImportRef) (cs : List Char) : Prop :=
  ∃ before quote rest, cs = before ++ quote :: rest ∧ (quote = '\'' ∨ quote = '"' ∨ quote = '`') ∧
    (readToken quote rest).kind = .literal ∧
    i = .ofToken ((readToken quote rest).token (width before))

end Precompile.Script

namespace Precompile.SourceFile

open Script

variable {f : SourceFile} {i : ImportRef}

theorem standsIn_of_mem_scanImports (hi : i ∈ scanImports f.tokens) :
    i.StandsIn f.content.toList := by
  obtain ⟨t, ht, literal, rfl⟩ := exists_literal_of_mem_scanImports hi
  obtain ⟨before, c, rest, hcs, rfl⟩ := exists_of_mem_tokens ht
  rw [Nat.zero_add] at literal ⊢
  exact ⟨before, c, rest, hcs, isQuote_of_literal literal, literal, rfl⟩

theorem exists_lineAt? (stands : i.StandsIn f.content.toList) :
    ∃ line, f.lineAt? i.start = some line := by
  obtain ⟨before, c, rest, hcs, -, -, rfl⟩ := stands
  obtain ⟨line, hline⟩ := exists_lineAround? before (c :: rest)
  refine ⟨String.ofList line, ?_⟩
  unfold lineAt?
  rw [hcs]
  exact congrArg (Option.map String.ofList) hline

end Precompile.SourceFile
