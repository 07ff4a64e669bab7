import Precompile.Script.Cursor

/-!
What a token is, apart from its place.

Scanners look at the kind and the text of a token only. Both together are its shape, and what a
scanner recognises is a list of shapes.
-/

namespace Precompile.Script

/-- The kind of a token with its text. -/
inductive Shape where
  | name (text : String)
  | literal (value : String)
  | template (text : String)
  | number (text : String)
  | punct (char : Char)
  deriving DecidableEq, Repr

namespace Token

def shape (t : Token) : Shape :=
  match t.kind with
  | .ident => .name t.text
  | .literal => .literal t.text
  | .template => .template t.text
  | .number => .number t.text
  | .punct c => .punct c

variable {t : Token}

theorem shape_eq_name_iff {s : String} : t.shape = .name s ↔ t.kind = .ident ∧ t.text = s := by
  unfold shape
  split <;> simp [*]

theorem shape_eq_literal_iff {s : String} :
    t.shape = .literal s ↔ t.kind = .literal ∧ t.text = s := by
  unfold shape
  split <;> simp [*]

theorem shape_eq_punct_iff {c : Char} : t.shape = .punct c ↔ t.kind = .punct c := by
  unfold shape
  split <;> simp [*]

theorem isIdent_iff {s : String} : t.isIdent s = true ↔ t.shape = .name s := by
  simp [isIdent, shape_eq_name_iff]

theorem isPunct_iff {c : Char} : t.isPunct c = true ↔ t.shape = .punct c := by
  simp [isPunct, shape_eq_punct_iff]

theorem isIdent_eq_false_iff {s : String} : t.isIdent s = false ↔ t.shape ≠ .name s := by
  rw [← Bool.not_eq_true, isIdent_iff]

theorem isPunct_eq_false_iff {c : Char} : t.isPunct c = false ↔ t.shape ≠ .punct c := by
  rw [← Bool.not_eq_true, isPunct_iff]

theorem literal?_eq_some_iff {s : String} : t.literal? = some s ↔ t.shape = .literal s := by
  simp [literal?, shape_eq_literal_iff]

end Token

/-! ### Places in a list of tokens -/

namespace Cursor

variable {α : Type} {c : Cursor} {f : Cursor → Option α} {g : Token × Cursor → Option α} {r : α}

end Cursor

end Precompile.Script
