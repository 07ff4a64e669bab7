import Precompile.Proofs.Script.Shape
import Precompile.Proofs.Script.Written

/-!
Texts by the shapes of their tokens.

A text that is put together from words, signs and quoted texts is read again as these, wherever it
stands, if no word runs into the next one and nothing in the quoted texts ends them (`ReadsAs`).
-/

namespace Precompile.Script

/-- Wherever the text stands, it is read without an error as tokens of these shapes. -/
def ReadsAs (cs : List Char) (shapes : List Shape) : Prop :=
  ∀ pos, (lexFrom pos cs).tokens.map Token.shape = shapes ∧ (lexFrom pos cs).errors = []

/-- The text of a word. -/
def isWord : List Char → Bool
  | [] => false
  | c :: cs => isIdentStart c && cs.all isIdentPart

variable {rest body value : List Char} {shapes : List Shape} {c : Char} {s : String}

theorem isWord_append {cs ds : List Char} (hcs : isWord cs = true) (hds : ds.all isIdentPart = true) :
    isWord (cs ++ ds) = true := by
  cases cs with
  | nil => cases hcs
  | cons c cs =>
    simp only [isWord, Bool.and_eq_true] at hcs
    simp [isWord, hcs, hds]

/-- The names among the tokens of a text are words. -/
theorem isWord_of_mem_tokens {pos : Nat} {cs : List Char} {t : Token}
    (ht : t ∈ (lexFrom pos cs).tokens) (name : t.kind = .ident) : isWord t.text.toList = true := by
  obtain ⟨before, c, rest, -, rfl⟩ := exists_of_mem_tokens ht
  unfold Reading.token readToken at name ⊢
  split at name
  · simp only [Reading.quoted] at name
    split at name <;> cases name
  · split at name
    · simp only [Reading.quoted] at name
      split at name <;> cases name
    · split at name
      · cases name
      · split at name
        next quote template digit start =>
          rw [if_neg quote, if_neg template, if_neg digit, if_pos start]
          simp only [Reading.plain, String.toList_ofList, isWord, start, Bool.true_and,
            List.all_eq_true]
          exact fun d hd => List.mem_takeWhile_imp hd
        next => cases name

/-! ### Putting together -/

namespace ReadsAs

theorem nil : ReadsAs [] [] := by
  intro pos
  rw [lexFrom_of_end (by simp [readGap])]
  simp [readGap]

theorem blank (hc : isBlank c = true) (later : ReadsAs rest shapes) : ReadsAs (c :: rest) shapes := by
  intro pos
  rw [lexFrom_blank hc]
  exact later _

theorem line (noBreak : '\n' ∉ body) (later : ReadsAs rest shapes) :
    ReadsAs ('/' :: '/' :: body ++ '\n' :: rest) shapes := by
  intro pos
  rw [lexFrom_line noBreak (by simp)]
  exact later.blank rfl _

theorem token {written : List Char} {kind : TokenKind} (h : Spelled written rest kind value)
    (later : ReadsAs rest shapes) : ReadsAs (written ++ rest)
      ((⟨kind, String.ofList value, 0, 0⟩ : Token).shape :: shapes) := by
  intro pos
  obtain ⟨tokens, errors⟩ := later (pos + width written)
  rw [lexFrom_spelled h]
  exact ⟨by rw [List.map_cons, tokens]; rfl, errors⟩

theorem word (hs : isWord s.toList = true) (stop : ∀ d ∈ rest.head?, isIdentPart d = false)
    (later : ReadsAs rest shapes) : ReadsAs (s.toList ++ rest) (.name s :: shapes) := by
  cases hcs : s.toList with
  | nil => simp [hcs, isWord] at hs
  | cons c cs =>
    rw [hcs, isWord, Bool.and_eq_true, List.all_eq_true] at hs
    have text : String.ofList (c :: cs) = s := by rw [← hcs, String.ofList_toList]
    exact text ▸ token (.name hs.1 hs.2 stop) later

/-- A word with a blank behind it. -/
theorem spaced (hs : isWord s.toList = true) (later : ReadsAs rest shapes) :
    ReadsAs (s.toList ++ ' ' :: rest) (.name s :: shapes) :=
  word hs (by simp [isIdentPart]) (later.blank rfl)

theorem sign (hc : IsSign c) (later : ReadsAs rest shapes) :
    ReadsAs (c :: rest) (.punct c :: shapes) := token (.sign hc) later

theorem quoted (hbody : Quotes '\'' body value) (later : ReadsAs rest shapes) :
    ReadsAs ('\'' :: (body ++ '\'' :: rest)) (.literal (String.ofList value) :: shapes) := by
  have text : '\'' :: (body ++ '\'' :: rest) = '\'' :: (body ++ ['\'']) ++ rest := by simp
  rw [text]
  exact token (.literal (.inl rfl) hbody) later

end ReadsAs

/-- A text without quotes, escapes and line breaks stands for itself between quotes. -/
theorem quotes_of_plain {quote : Char} (plain : ∀ c ∈ body, c ≠ quote ∧ c ≠ '\\' ∧ c ≠ '\n') :
    Quotes quote body body := by
  induction body with
  | nil => exact .nil
  | cons c body ih =>
    obtain ⟨hc, plain⟩ := List.forall_mem_cons.mp plain
    exact .plain hc.1 hc.2.1 hc.2.2 (ih plain)

end Precompile.Script
