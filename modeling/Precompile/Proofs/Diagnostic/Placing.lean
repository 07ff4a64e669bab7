import Mathlib.Algebra.Ring.Nat
import Precompile.Diagnostic.Placing
import Precompile.Proofs.Script.Bytewise
import Precompile.Scanning.Findings

/-!
# Lines, columns and what is shown of them

The line and the column of a place are looked up in an index of line starts, and the text that is
shown of the line is cut out around the place. Both go back to what is in front of the place: its
line breaks tell the line (`lineColumn_append`), and what is behind the last of them is how the line
begins (`exists_splitOn_append`). The look-up with its index never breaks off
(`LineIndex.lineColumn?_eq`, `LineIndex.shownAround?_eq`), so line, column and shown line belong
together (`Diagnostic.placed?_agrees`).
-/

namespace Precompile.Script

variable {cs before rest : List Char}

/-! ### The line that a text ends in -/

/-- What is behind the last line break. -/
def lastLine (cs : List Char) : List Char := (cs.reverse.takeWhile (· != '\n')).reverse

/-- What is in front of the first line break. -/
def firstLine (cs : List Char) : List Char := cs.takeWhile (· != '\n')

theorem takeWhile_of_not_mem (h : '\n' ∉ cs) : cs.takeWhile (· != '\n') = cs := by
  rw [List.takeWhile_eq_self_iff]
  intro c hc
  simpa using fun heq : c = '\n' => h (heq ▸ hc)

theorem lastLine_of_not_mem (h : '\n' ∉ cs) : lastLine cs = cs := by
  rw [lastLine, takeWhile_of_not_mem (by simpa using h), List.reverse_reverse]

theorem lastLine_append_line (cs : List Char) {tail : List Char} (h : '\n' ∉ tail) :
    lastLine (cs ++ '\n' :: tail) = tail := by
  have last : (cs ++ '\n' :: tail).reverse = tail.reverse ++ '\n' :: cs.reverse := by simp
  rw [lastLine, last, List.takeWhile_append_of_pos, List.takeWhile_cons_of_neg (by simp),
    List.append_nil, List.reverse_reverse]
  intro c hc
  simpa using fun heq : c = '\n' => h (heq ▸ List.mem_reverse.mp hc)

/-- Either there is no line break in a text, or there is a last one. -/
theorem eq_append_lastLine (cs : List Char) :
    '\n' ∉ cs ∨ ∃ head tail, cs = head ++ '\n' :: tail ∧ '\n' ∉ tail := by
  by_cases h : '\n' ∈ cs
  · obtain ⟨tail, head, hcs, hfirst⟩ := List.eq_append_cons_of_mem (List.mem_reverse.mpr h)
    refine .inr ⟨head.reverse, tail.reverse, ?_, by simpa using hfirst⟩
    rw [← List.reverse_reverse cs, hcs]
    simp
  · exact .inl h

/-- A text is what comes up to its last line break, and its last line. -/
theorem append_lastLine (cs : List Char) :
    (cs.reverse.dropWhile (· != '\n')).reverse ++ lastLine cs = cs := by
  rw [lastLine, ← List.reverse_append, List.takeWhile_append_dropWhile, List.reverse_reverse]

theorem width_lastLine_le (cs : List Char) : width (lastLine cs) ≤ width cs := by
  have parts := congrArg width (append_lastLine cs)
  rw [width_append] at parts
  omega

/-! ### The lines of a text -/

/-- The place where a line starts: behind the lines before it and their line breaks. -/
def lineStart (lines : List (List Char)) (n : Nat) : Nat :=
  ((lines.take n).map fun line => width line + 1).sum

theorem length_splitOn (cs : List Char) : (cs.splitOn '\n').length = cs.count '\n' + 1 := by
  induction cs with
  | nil => simp
  | cons c cs ih =>
    rw [List.splitOn_cons_eq_if_modifyHead, List.count_cons]
    split
    · rw [List.length_cons, ih]
    · rw [List.length_modifyHead, ih, Nat.add_zero]

theorem sum_width_splitOn (cs : List Char) :
    ((cs.splitOn '\n').map fun line => width line + 1).sum = width cs + 1 := by
  induction cs with
  | nil => simp [width]
  | cons c cs ih =>
    rw [List.splitOn_cons_eq_if_modifyHead]
    split
    next hc =>
      have ascii : charWidth c = 1 := by
        rw [beq_iff_eq.mp hc]
        rfl
      simp only [List.map_cons, List.sum_cons, ih, width, ascii]
      omega
    next =>
      cases hlines : cs.splitOn '\n' with
      | nil => exact absurd hlines (List.splitOn_ne_nil '\n' cs)
      | cons line lines =>
        rw [hlines] at ih
        simp only [List.modifyHead_cons, List.map_cons, List.sum_cons, width] at ih ⊢
        omega

/-- The first line goes on behind a beginning of its own. -/
theorem exists_splitOn_of_not_mem (h : '\n' ∉ before) (rest : List Char) :
    ∃ later, (before ++ rest).splitOn '\n' = (before ++ firstLine rest) :: later := by
  by_cases hrest : '\n' ∈ rest
  · obtain ⟨front, back, rfl, hfront⟩ := List.eq_append_cons_of_mem hrest
    have first : firstLine (front ++ '\n' :: back) = front := by
      rw [firstLine, List.takeWhile_append_of_pos, List.takeWhile_cons_of_neg (by simp),
        List.append_nil]
      intro c hc
      simpa using fun heq : c = '\n' => hfront (heq ▸ hc)
    refine ⟨back.splitOn '\n', ?_⟩
    rw [first, ← List.append_assoc]
    exact List.splitOn_append_cons_self_of_not_mem (by simp [h, hfront]) back
  · refine ⟨[], ?_⟩
    rw [firstLine, takeWhile_of_not_mem hrest]
    exact List.splitOn_eq_singleton (by simp [h, hrest])

/-- A place is in the line with as many lines before it as there are line breaks, and in front of
it is what those lines and the beginning of its own line are written as. -/
theorem exists_splitOn_append (before rest : List Char) : ∃ earlier later,
    (before ++ rest).splitOn '\n' = earlier ++ (lastLine before ++ firstLine rest) :: later ∧
      earlier.length = before.count '\n' ∧
      (earlier.map fun line => width line + 1).sum + width (lastLine before) = width before := by
  rcases eq_append_lastLine before with none | ⟨head, tail, rfl, last⟩
  · obtain ⟨later, hlater⟩ := exists_splitOn_of_not_mem none rest
    rw [lastLine_of_not_mem none]
    exact ⟨[], later, hlater, (List.count_eq_zero.mpr none).symm, by simp⟩
  · obtain ⟨later, hlater⟩ := exists_splitOn_of_not_mem last rest
    rw [lastLine_append_line head last]
    refine ⟨head.splitOn '\n', later, ?_, ?_, ?_⟩
    · rw [List.append_assoc, List.cons_append, List.splitOn_append_cons_self, hlater]
    · rw [length_splitOn, List.count_append, List.count_cons_self, List.count_eq_zero.mpr last]
    · have one : charWidth '\n' = 1 := rfl
      rw [sum_width_splitOn, width_append, width, one]
      omega

/-! ### The starts of lines -/

theorem lineStartsFrom_append (pos : Nat) (cs ds : List Char) :
    lineStartsFrom pos (cs ++ ds) = lineStartsFrom pos cs ++ lineStartsFrom (pos + width cs) ds := by
  induction cs generalizing pos with
  | nil => rfl
  | cons c cs ih =>
    simp only [List.cons_append, lineStartsFrom, ih, width, Nat.add_assoc]
    split <;> rfl

theorem lt_of_mem_lineStartsFrom {pos s : Nat} (h : s ∈ lineStartsFrom pos cs) :
    pos < s ∧ s ≤ pos + width cs := by
  induction cs generalizing pos with
  | nil => cases h
  | cons c cs ih =>
    have wide := charWidth_pos c
    have later : s ∈ lineStartsFrom (pos + charWidth c) cs → pos < s ∧ s ≤ pos + width (c :: cs) := by
      intro hs
      have bounds := ih hs
      rw [width]
      omega
    rw [lineStartsFrom] at h
    split at h
    · rcases List.mem_cons.mp h with rfl | h
      · rw [width]
        omega
      · exact later h
    · exact later h

theorem pairwise_lineStartsFrom (pos : Nat) (cs : List Char) :
    (lineStartsFrom pos cs).Pairwise (· < ·) := by
  induction cs generalizing pos with
  | nil => exact .nil
  | cons c cs ih =>
    rw [lineStartsFrom]
    split
    · exact .cons (fun s hs => (lt_of_mem_lineStartsFrom hs).1) (ih _)
    · exact ih _

theorem length_lineStartsFrom (pos : Nat) (cs : List Char) :
    (lineStartsFrom pos cs).length = cs.count '\n' := by
  induction cs generalizing pos with
  | nil => rfl
  | cons c cs ih =>
    rw [lineStartsFrom, List.count_cons]
    by_cases hc : c = '\n'
    · simp [hc, ih]
    · simp [hc, ih]

theorem lineStartsFrom_of_not_mem (h : '\n' ∉ cs) (pos : Nat) : lineStartsFrom pos cs = [] := by
  rw [← List.length_eq_zero_iff, length_lineStartsFrom, List.count_eq_zero.mpr h]

/-- The last line starts where what is behind the last line break does. -/
theorem getLast?_lineStarts (cs : List Char) :
    (lineStarts cs).getLast? = some (width cs - width (lastLine cs)) := by
  rcases eq_append_lastLine cs with none | ⟨head, tail, rfl, last⟩
  · simp [lineStarts, lineStartsFrom_of_not_mem none, lastLine_of_not_mem none]
  · have one : charWidth '\n' = 1 := rfl
    have starts : lineStarts (head ++ '\n' :: tail) = lineStarts head ++ [width head + 1] := by
      rw [lineStarts, lineStartsFrom_append, lineStartsFrom, if_pos rfl,
        lineStartsFrom_of_not_mem last, one, Nat.zero_add]
      rfl
    rw [starts, List.getLast?_concat, lastLine_append_line head last, width_append, width, one]
    congr 1
    omega

/-- The lines that do not start behind a place are those of what is in front of it. -/
theorem lineStarts_append (before rest : List Char) : ∃ behind,
    lineStarts (before ++ rest) = lineStarts before ++ behind ∧
      (∀ s ∈ lineStarts before, s ≤ width before) ∧ ∀ s ∈ behind, width before < s := by
  refine ⟨lineStartsFrom (width before) rest, ?_, ?_, ?_⟩
  · rw [lineStarts, lineStartsFrom_append, Nat.zero_add]
    rfl
  · intro s hs
    rcases List.mem_cons.mp hs with rfl | hs
    · exact Nat.zero_le _
    · have bounds := lt_of_mem_lineStartsFrom hs
      omega
  · exact fun s hs => (lt_of_mem_lineStartsFrom hs).1

example : lineStarts "a\n\nb".toList = [0, 2, 3] := by
  decide +kernel

theorem pairwise_lineStarts (cs : List Char) : (lineStarts cs).Pairwise (· < ·) :=
  .cons (fun _ hs => (lt_of_mem_lineStartsFrom hs).1) (pairwise_lineStartsFrom 0 cs)

theorem length_lineStarts (cs : List Char) : (lineStarts cs).length = cs.count '\n' + 1 := by
  rw [lineStarts, List.length_cons, length_lineStartsFrom]

theorem lineColumn_append (before rest : List Char) :
    lineColumn (before ++ rest) (width before) =
      (before.count '\n' + 1, (width (lastLine before) + 1) % columnBound) := by
  obtain ⟨behind, hstarts, upTo, beyond⟩ := lineStarts_append before rest
  have counted : (lineStarts (before ++ rest)).takeWhile (· ≤ width before) = lineStarts before := by
    rw [hstarts, List.takeWhile_append_of_pos (by simpa using upTo)]
    cases behind with
    | nil => simp
    | cons s behind => simp [beyond s List.mem_cons_self]
  have within := width_lastLine_le before
  have column : width before - (width before - width (lastLine before)) + 1 =
      width (lastLine before) + 1 := by omega
  simp only [lineColumn, lineColumnIn, counted, length_lineStarts, getLast?_lineStarts,
    Option.getD_some, column]

theorem lineAround?_append (before rest : List Char) :
    lineAround? (width before) (before ++ rest) = some (lastLine before ++ firstLine rest) := by
  have inside : min (width before) (width (before ++ rest)) = width before := by
    rw [width_append]
    omega
  simp only [lineAround?, inside, takeBytes?_width, dropBytes?_width, Option.bind_some,
    Option.map_some]
  rfl

/-- There are no more line breaks than bytes. -/
theorem count_le_width (cs : List Char) : cs.count '\n' ≤ width cs := by
  induction cs with
  | nil => exact Nat.zero_le _
  | cons c cs ih =>
    have wide := charWidth_pos c
    have one : cs.count '\n' + (if c == '\n' then 1 else 0) ≤ cs.count '\n' + 1 := by
      split <;> omega
    rw [List.count_cons, width]
    omega

end Precompile.Script

/-! ### The index -/

namespace Precompile.Script.LineIndex

open Bytewise (bytes kept)

variable {cs before rest : List Char} {i : Nat}

theorem kept_of_lt (h : i < Nat.pow 2 32) : kept i = i := Nat.mod_eq_of_lt h

/-- Only a line break has its byte. -/
theorem ne_of_mem_utf8EncodeChar {c : Char} (hc : c ≠ '\n') :
    ∀ b ∈ String.utf8EncodeChar c, b ≠ 10 := by
  intro b hb heq
  by_cases ascii : c.toNat < 128
  · rw [String.utf8EncodeChar_eq_singleton (Bytewise.charWidth_of_ascii ascii), List.mem_singleton,
      heq] at hb
    have number := congrArg UInt8.toNat hb
    have small : c.val.toNat < 128 := ascii
    rw [UInt32.toNat_toUInt8] at number
    have same : c.val.toNat = 10 := by
      have ten : (10 : UInt8).toNat = 10 := rfl
      omega
    exact hc (Char.ext (UInt32.toNat_inj.mp same))
  · have wide := Bytewise.le_toNat_of_mem_utf8EncodeChar (Nat.le_of_not_lt ascii) b hb
    rw [heq] at wide
    exact absurd wide (by decide)

theorem behindBreaks_append {bs : List UInt8} (none : ∀ b ∈ bs, b ≠ 10) (i : Nat)
    (later : List UInt8) : behindBreaks i (bs ++ later) = behindBreaks (i + bs.length) later := by
  induction bs generalizing i with
  | nil => rfl
  | cons b bs ih =>
    rw [List.cons_append, behindBreaks, if_neg (none b List.mem_cons_self),
      ih (fun b hb => none b (List.mem_cons_of_mem _ hb)), List.length_cons, Nat.add_right_comm]
    rfl

theorem behindBreaks_bytes (small : i + width cs < Nat.pow 2 32) :
    behindBreaks i (bytes cs) = lineStartsFrom i cs := by
  induction cs generalizing i with
  | nil => rfl
  | cons c cs ih =>
    rw [width] at small
    have later := ih (i := i + charWidth c) (by omega)
    have hbytes : bytes (c :: cs) = String.utf8EncodeChar c ++ bytes cs := List.flatMap_cons
    rw [lineStartsFrom]
    by_cases hc : c = '\n'
    · subst hc
      have one : charWidth '\n' = 1 := rfl
      have encoded : String.utf8EncodeChar '\n' = [10] := rfl
      rw [one] at later small
      rw [hbytes, encoded, List.singleton_append, behindBreaks, if_pos rfl, kept_of_lt (by omega),
        later, if_pos rfl, one]
    · rw [hbytes, behindBreaks_append (ne_of_mem_utf8EncodeChar hc), String.length_utf8EncodeChar,
        if_neg hc]
      exact later

theorem ofText_eq (small : width cs < Nat.pow 2 32) : ofText cs = lineStarts cs := by
  rw [ofText, behindBreaks_bytes (by omega)]
  rfl

/-! ### Looking up a place -/

section Search

variable {upTo behind : List Nat}

/-- Among ascending starts, halving ends with the last one that is not behind the place. -/
theorem search_eq (ascending : (upTo ++ behind).Pairwise (· < ·)) (some : upTo ≠ [])
    (within : ∀ s ∈ upTo, s ≤ i) (beyond : ∀ s ∈ behind, i < s) {lo hi : Nat}
    (hlo : lo ≤ upTo.length) (hhi : upTo.length ≤ hi) (inside : hi ≤ (upTo ++ behind).length) :
    search (upTo ++ behind) i lo hi = .ok (upTo.length - 1) ∨
      search (upTo ++ behind) i lo hi = .error upTo.length := by
  have nonempty := List.length_pos_iff.mpr some
  -- a start is not behind the place exactly if it is one of the first
  have at_ : ∀ n (h : n < (upTo ++ behind).length),
      (upTo ++ behind).getD n 0 = (upTo ++ behind)[n] := fun n h => by
    rw [List.getD_eq_getElem?_getD, List.getElem?_eq_getElem h, Option.getD_some]
  have early : ∀ n, n < upTo.length → (upTo ++ behind).getD n 0 ≤ i := by
    intro n hn
    rw [at_ n (by simp; omega), List.getElem_append_left hn]
    exact within _ (List.getElem_mem hn)
  have late : ∀ n, upTo.length ≤ n → n < (upTo ++ behind).length →
      i < (upTo ++ behind).getD n 0 := by
    intro n hn h
    rw [at_ n h, List.getElem_append_right hn]
    exact beyond _ (List.getElem_mem _)
  have order : ∀ m n, m < n → n < (upTo ++ behind).length →
      (upTo ++ behind).getD m 0 < (upTo ++ behind).getD n 0 := by
    intro m n hmn hn
    rw [at_ m (by omega), at_ n hn]
    exact List.pairwise_iff_getElem.mp ascending m n (by omega) hn hmn
  generalize upTo ++ behind = starts at *
  fun_induction search starts i lo hi with
  | case1 lo hi going mid start before ih =>
    have first : mid < upTo.length := by
      refine Nat.lt_of_not_le fun hmid => ?_
      have := late mid hmid (by omega)
      omega
    exact ih first hhi inside
  | case2 lo hi going mid start _ found =>
    -- the next start would be behind the place
    have last : mid + 1 = upTo.length := by
      have first : mid < upTo.length := by
        refine Nat.lt_of_not_le fun hmid => ?_
        have := late mid hmid (by omega)
        omega
      refine Nat.le_antisymm first (Nat.le_of_not_lt fun next => ?_)
      have := early (mid + 1) next
      have := order mid (mid + 1) (Nat.lt_succ_self mid) (by omega)
      omega
    exact .inl (congrArg Except.ok (by omega))
  | case3 lo hi going mid start notBefore notFound ih =>
    have behind : upTo.length ≤ mid := by
      refine Nat.le_of_not_lt fun hmid => ?_
      have := early mid hmid
      omega
    exact ih hlo behind (by omega)
  | case4 lo hi narrow => exact .inr (congrArg Except.error (by omega))

theorem lineOf?_eq (ascending : (upTo ++ behind).Pairwise (· < ·)) (some : upTo ≠ [])
    (within : ∀ s ∈ upTo, s ≤ i) (beyond : ∀ s ∈ behind, i < s) :
    lineOf? (upTo ++ behind) i = Option.some (upTo.length - 1) := by
  have nonempty := List.length_pos_iff.mpr some
  have whole : upTo.length ≤ (upTo ++ behind).length := by simp
  have found := search_eq ascending some within beyond (Nat.zero_le _) whole (Nat.le_refl _)
  rw [lineOf?]
  rcases found with found | found
  · rw [found]
  · rw [found]
    exact if_pos nonempty

end Search

/-- The look-up of a place does not break off, and gives its line and column. -/
theorem lineColumn?_eq (small : width (before ++ rest) < Nat.pow 2 32 - 1) :
    lineColumn? (ofText (before ++ rest)) (width before) =
      some (lineColumn (before ++ rest) (width before)) := by
  rw [width_append] at small
  obtain ⟨behind, hstarts, within, beyond⟩ := lineStarts_append before rest
  have ascending := pairwise_lineStarts (before ++ rest)
  rw [hstarts] at ascending
  have nonempty : lineStarts before ≠ [] := List.cons_ne_nil _ _
  have line := lineOf?_eq ascending nonempty within beyond
  have lines := count_le_width before
  have column := width_lastLine_le before
  have start : (lineStarts before ++ behind)[(lineStarts before).length - 1]? =
      some (width before - width (lastLine before)) := by
    have counted := List.length_pos_iff.mpr nonempty
    rw [List.getElem?_append_left (by omega), ← List.getLast?_eq_getElem?, getLast?_lineStarts]
  have index : ofText (before ++ rest) = lineStarts before ++ behind := by
    rw [ofText_eq (by rw [width_append]; omega), hstarts]
  have number : plus? (kept ((lineStarts before).length - 1)) 1 = some (before.count '\n' + 1) := by
    rw [length_lineStarts, Nat.add_sub_cancel, kept_of_lt (by omega)]
    exact if_pos (by omega)
  have back : minus? (width before) (width before - width (lastLine before)) =
      some (width (lastLine before)) := by
    rw [minus?, if_pos (Nat.sub_le _ _)]
    congr 1
    omega
  have fits : plus? (width (lastLine before)) 1 = some (width (lastLine before) + 1) :=
    if_pos (by omega)
  have whole : (width (lastLine before) + 1) % columnBound = width (lastLine before) + 1 :=
    Nat.mod_eq_of_lt (show _ < Nat.pow 2 32 by omega)
  rw [lineColumn?, index, line, lineColumn_append, whole]
  simp only [Option.bind_eq_bind, Option.bind_some, number, start, back, fits]
  rfl

/-! ### Cutting out the line -/

theorem firstBreak?_eq (cs : List Char) :
    (firstBreak? cs).getD (width cs) = width (firstLine cs) := by
  induction cs with
  | nil => rfl
  | cons c cs ih =>
    rw [firstBreak?, firstLine, List.takeWhile_cons]
    by_cases hc : c = '\n'
    · simp [hc, width]
    · have goes : (c != '\n') = true := by simpa using hc
      rw [if_neg hc, if_pos goes, width, width, ← firstLine, ← ih]
      cases firstBreak? cs <;> rfl

theorem lastBreak?_of_not_mem (h : '\n' ∉ cs) : lastBreak? cs = none := by
  induction cs with
  | nil => rfl
  | cons c cs ih =>
    have hc : c ≠ '\n' := fun heq => h (heq ▸ List.mem_cons_self)
    rw [lastBreak?, ih fun hmem => h (List.mem_cons_of_mem _ hmem)]
    exact if_neg hc

theorem lastBreak?_append_line (cs : List Char) {tail : List Char} (h : '\n' ∉ tail) :
    lastBreak? (cs ++ '\n' :: tail) = some (width cs) := by
  induction cs with
  | nil =>
    rw [List.nil_append, lastBreak?, lastBreak?_of_not_mem h]
    rfl
  | cons c cs ih =>
    rw [List.cons_append, lastBreak?, ih]
    rfl

/-- The line of a place starts behind the last line break in front of it. -/
theorem lastBreak?_eq (cs : List Char) :
    ((lastBreak? cs).map (· + 1)).getD 0 = width (cs.reverse.dropWhile (· != '\n')).reverse := by
  have parts := congrArg width (append_lastLine cs)
  rw [width_append] at parts
  rcases eq_append_lastLine cs with none | ⟨head, tail, rfl, last⟩
  · rw [lastLine_of_not_mem none] at parts
    rw [lastBreak?_of_not_mem none, Option.map_none, Option.getD_none]
    omega
  · have one : charWidth '\n' = 1 := rfl
    rw [lastLine_append_line head last, width_append, width, one] at parts
    rw [lastBreak?_append_line head last, Option.map_some, Option.getD_some]
    omega

/-- What is shown of a line can be cut out, and is the line around the place. -/
theorem shownAround?_eq (before rest : List Char) :
    shownAround? (before ++ rest) (width before) = lineAround? (width before) (before ++ rest) := by
  have inside : min (width before) (width (before ++ rest)) = width before := by
    rw [width_append]
    omega
  let head := (before.reverse.dropWhile (· != '\n')).reverse
  have parts : head ++ lastLine before = before := append_lastLine before
  have start := lastBreak?_eq before
  have stop : ((firstBreak? rest).map (width before + ·)).getD (width (before ++ rest)) =
      width head + width (lastLine before ++ firstLine rest) := by
    have sums := congrArg width parts
    have first := firstBreak?_eq rest
    rw [width_append] at sums
    rw [width_append, width_append]
    cases hbreak : firstBreak? rest with
    | none =>
      rw [hbreak, Option.getD_none] at first
      rw [Option.map_none, Option.getD_none]
      omega
    | some j =>
      rw [hbreak, Option.getD_some] at first
      rw [Option.map_some, Option.getD_some]
      omega
  have line : Ahead (before ++ rest) (width head) (lastLine before ++ rest) :=
    ⟨head, by rw [← List.append_assoc, parts], rfl⟩
  have shown : (lastLine before ++ firstLine rest) ++ rest.dropWhile (· != '\n') =
      lastLine before ++ rest := by
    rw [List.append_assoc, firstLine, List.takeWhile_append_dropWhile]
  have cut := line.slice?_eq shown
  rw [lineAround?_append, shownAround?]
  simp only [Option.bind_eq_bind, inside, takeBytes?_width, dropBytes?_width, Option.bind_some,
    start, stop]
  exact cut

end Precompile.Script.LineIndex

/-! ### Places of a file -/

namespace Precompile

open Script

namespace SourceFile

variable {f : SourceFile} {before rest : List Char} {i j : Nat}

/-- Between two characters of a file, or at one of its ends. -/
def HasPlace (f : SourceFile) (i : Nat) : Prop := ∃ rest, Ahead f.content.toList i rest

theorem hasPlace_of_mem_lexicalErrors {e : LexicalError} (he : e ∈ f.lexicalErrors) :
    f.HasPlace e.offset := by
  have segments : Segments f.content.toList 0 f.lexed := segments_lexFrom (.start _)
  rcases segments.errors e he with ⟨-, -, body, comment, -⟩ | ⟨-, t, ht, start, -⟩
  · exact ⟨_, comment⟩
  · exact start ▸ (segments.between t ht).1

theorem hasPlace_of_mem_scanImports {r : ImportRef} (hr : r ∈ scanImports f.tokens) :
    f.HasPlace r.start := by
  obtain ⟨before, quote, rest, hf, -, -, rfl⟩ := standsIn_of_mem_scanImports hr
  exact ⟨quote :: rest, before, hf, rfl⟩

theorem lineStart_add (before rest : List Char) :
    lineStart ((before ++ rest).splitOn '\n') (before.count '\n') + width (lastLine before) =
      width before := by
  obtain ⟨earlier, later, split, counted, sum⟩ := exists_splitOn_append before rest
  rw [lineStart, split, ← counted, List.take_left, sum]

theorem width_lastLine_add_lt (small : f.content.utf8ByteSize < Nat.pow 2 32 - 1)
    (hf : f.content.toList = before ++ rest) : width (lastLine before) + 1 < columnBound := by
  have within := width_lastLine_le before
  have whole := congrArg width hf
  rw [width_toList, width_append] at whole
  show _ < Nat.pow 2 32
  omega

theorem location_eq (small : f.content.utf8ByteSize < Nat.pow 2 32 - 1)
    (hf : f.content.toList = before ++ rest) : f.location (width before) =
      ⟨f.path, before.count '\n' + 1, width (lastLine before) + 1⟩ := by
  rw [location, hf, lineColumn_append, Nat.mod_eq_of_lt (width_lastLine_add_lt small hf)]

/-- The line and the column lead back to the place. -/
theorem eq_of_location_eq (small : f.content.utf8ByteSize < Nat.pow 2 32 - 1) (hi : f.HasPlace i)
    (hj : f.HasPlace j) (same : f.location i = f.location j) : i = j := by
  obtain ⟨rest, before, hf, rfl⟩ := hi
  obtain ⟨rest', before', hf', rfl⟩ := hj
  rw [location_eq small hf, location_eq small hf', Location.mk.injEq] at same
  obtain ⟨-, line, column⟩ := same
  have first := lineStart_add before rest
  have second := lineStart_add before' rest'
  rw [← hf] at first
  rw [← hf', ← Nat.succ.inj line] at second
  omega

end SourceFile

namespace Diagnostic

variable {f : SourceFile} {before rest : List Char}

/-- A diagnostic with the place behind `before` and the line that is written around it. -/
def shownAt (d : Diagnostic) (f : SourceFile) (before rest : List Char) (stop : Nat) : Diagnostic :=
  { d with
    location := some ⟨f.path, before.count '\n' + 1, width (lastLine before) + 1⟩
    sourceLine := some (String.ofList (lastLine before ++ firstLine rest))
    spanLength := stop - width before }

theorem inFile_eq (small : f.content.utf8ByteSize < Nat.pow 2 32 - 1)
    (hf : f.content.toList = before ++ rest) (d : Diagnostic) (stop : Nat) :
    d.inFile f (width before) stop = d.shownAt f before rest stop := by
  have line : f.lineAt? (width before) = some (String.ofList (lastLine before ++ firstLine rest)) := by
    rw [SourceFile.lineAt?, hf, lineAround?_append, Option.map_some]
  rw [inFile, inFile?, line, SourceFile.location_eq small hf]
  rfl

/-- The look-up of a place never breaks off, and tells what the text does. -/
theorem placed?_eq (small : f.content.utf8ByteSize < Nat.pow 2 32 - 1)
    (hf : f.content.toList = before ++ rest) (d : Diagnostic) (stop : Nat) :
    d.placed? f (width before) stop = some (d.shownAt f before rest stop) := by
  have whole := small
  rw [← width_toList, hf] at whole
  have found := LineIndex.lineColumn?_eq whole
  rw [lineColumn_append, Nat.mod_eq_of_lt (SourceFile.width_lastLine_add_lt small hf)] at found
  rw [placed?, hf, found, LineIndex.shownAround?_eq, lineAround?_append]
  rfl

open Scanning in
/-- What the checker finds in a file it tells at places of the file. -/
theorem exists_place_of_mem_diagnostics {P : Program} {p : Path} (hf : P.file? p.normalize = some f)
    {d : Diagnostic} (hd : d ∈ syntacticDiagnostics P p ++ semanticDiagnostics P p) :
    ∃ (base : Diagnostic) (i stop : Nat), f.HasPlace i ∧ base.inFile f i stop = d := by
  rcases List.mem_append.mp hd with hd | hd
  · rw [syntacticDiagnostics, hf] at hd
    obtain ⟨e, he, rfl⟩ := List.mem_map.mp hd
    exact ⟨_, _, _, SourceFile.hasPlace_of_mem_lexicalErrors he, rfl⟩
  · rw [semanticDiagnostics, hf] at hd
    obtain ⟨r, hr, rfl⟩ := List.mem_map.mp hd
    exact ⟨_, _, _, SourceFile.hasPlace_of_mem_scanImports (List.mem_filter.mp hr).1, rfl⟩

/-- In a file whose offsets fit, each place is found: its line is told by the line breaks in front
of it, what is shown is that line of the file, and the column leads from where the line starts back
to the place, so that no other place has the same line and column. The lexer gets through the bytes of
the file, and all that the checker finds there is told at such places. -/
theorem placed?_agrees (small : f.content.utf8ByteSize < Nat.pow 2 32 - 1) :
    (∀ (d : Diagnostic) (before rest : List Char) (stop : Nat), f.content.toList = before ++ rest →
      ∃ (column : Nat) (shown : String),
        d.placed? f (width before) stop = some (d.inFile f (width before) stop) ∧
        d.inFile f (width before) stop = { d with
          location := some ⟨f.path, before.count '\n' + 1, column⟩
          sourceLine := some shown
          spanLength := stop - width before } ∧
        (f.content.toList.splitOn '\n')[before.count '\n']? = some shown.toList ∧
        1 ≤ column ∧
        lineStart (f.content.toList.splitOn '\n') (before.count '\n') + (column - 1) =
          width before) ∧
      (∀ i j, f.HasPlace i → f.HasPlace j → f.location i = f.location j → i = j) ∧
      Bytewise.lex? f.content = some f.lexed ∧
      ∀ (P : Program) (p : Path), P.file? p.normalize = some f →
        ∀ d ∈ Scanning.syntacticDiagnostics P p ++ Scanning.semanticDiagnostics P p,
          ∃ (base : Diagnostic) (i stop : Nat), f.HasPlace i ∧ base.placed? f i stop = some d := by
  have fits : width f.content.toList < Nat.pow 2 32 := by
    rw [width_toList]
    omega
  refine ⟨fun d before rest stop hf => ?_, fun i j => SourceFile.eq_of_location_eq small,
    Bytewise.lexFrom?_eq fits (.start _), fun P p hfile d hd => ?_⟩
  · have inFile := inFile_eq small hf d stop
    refine ⟨width (lastLine before) + 1, String.ofList (lastLine before ++ firstLine rest), ?_,
      inFile, ?_, Nat.le_add_left 1 _, ?_⟩
    · rw [inFile, placed?_eq small hf]
    · obtain ⟨earlier, later, split, counted, -⟩ := exists_splitOn_append before rest
      rw [hf, split, ← counted, List.getElem?_append_right (Nat.le_refl _), Nat.sub_self,
        String.toList_ofList]
      rfl
    · rw [hf, Nat.add_sub_cancel]
      exact SourceFile.lineStart_add before rest
  · obtain ⟨base, i, stop, ⟨rest, before, hf, rfl⟩, rfl⟩ := exists_place_of_mem_diagnostics hfile hd
    refine ⟨base, _, stop, ⟨rest, before, hf, rfl⟩, ?_⟩
    rw [placed?_eq small hf, inFile_eq small hf]

/-- A file with characters of more than one byte, and a string in its second line that is not
closed. -/
def unclosedFile : SourceFile := ⟨⟨"/p/a.ts"⟩, "é\nü = 'x\n"⟩

def unclosedProgram : Program :=
  ⟨[unclosedFile.path], OrderedMap.empty.insert unclosedFile.path unclosedFile.content, .empty⟩

/-- The string is told at the byte of its quote, and its line is shown without line breaks. -/
theorem placed?_unclosed : unclosedFile.content.utf8ByteSize < Nat.pow 2 32 - 1 ∧
    unclosedProgram.file? (Path.mk "/p/./a.ts").normalize = some unclosedFile ∧
    (Scanning.syntacticDiagnostics unclosedProgram ⟨"/p/./a.ts"⟩).map
      (fun d => (d.location, d.sourceLine)) = [(some ⟨⟨"/p/a.ts"⟩, 2, 6⟩, some "ü = 'x")] ∧
    (∀ d ∈ Scanning.syntacticDiagnostics unclosedProgram ⟨"/p/./a.ts"⟩ ++
        Scanning.semanticDiagnostics unclosedProgram ⟨"/p/./a.ts"⟩,
      ∃ (base : Diagnostic) (i stop : Nat), unclosedFile.HasPlace i ∧
        base.placed? unclosedFile i stop = some d) := by
  have small : unclosedFile.content.utf8ByteSize < Nat.pow 2 32 - 1 := by decide
  have file : unclosedProgram.file? (Path.mk "/p/./a.ts").normalize = some unclosedFile := by
    decide +kernel
  refine ⟨small, file, by decide +kernel, ?_⟩
  exact (placed?_agrees small).2.2.2 unclosedProgram ⟨"/p/./a.ts"⟩ file

end Diagnostic

end Precompile
