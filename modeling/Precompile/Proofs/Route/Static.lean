import Precompile.Proofs.Script.Segmentation
import Precompile.Proofs.Script.Shape
import Precompile.Route.Scan

/-!
Which values declare a route.

The value of a property is what stands behind its colon up to the first comma, semicolon or closing
bracket that is not inside brackets of the value. It is static if the whole of it is a literal, the
name of a constant, or a call of `import` whose result is asked for an export. A scan looks at the
beginning of a value only: it tells of every static value, and also of a value that begins like one
and goes on otherwise (`mem_scan_iff_isStatic`).
-/

namespace Precompile.Route

open Script

/-! ### Values -/

/-- Some of the tokens bind a constant of the name to a complete literal; `after` stands behind
it. -/
inductive Binds (name : String) : List Token → String → List Token → Prop where
  | here {keyword binder equals value : Token} {after : List Token} :
      keyword.shape = .name "const" → binder.shape = .name name → equals.shape = .punct '=' →
      value.shape = .literal value.text → endsConstant after = true →
      Binds name (keyword :: binder :: equals :: value :: after) value.text after
  | later {t : Token} {rest after : List Token} {text : String} :
      Binds name rest text after → Binds name (t :: rest) text after

variable {name text : String} {tokens rest : List Token} {t : Token}

/-- A binding among the tokens behind a place is one among all of them. -/
theorem Binds.append {after : List Token} (h : Binds name rest text after) (front : List Token) :
    Binds name (front ++ rest) text after := by
  induction front with
  | nil => exact h
  | cons t front ih => exact .later ih

section Dynamic

variable {c after : Cursor} {front rest : List Token} {n : Nat} {module exported : Token}
  {name : String}

end Dynamic

variable {front ending more value : List Shape} {r : ModuleReference}

section Scans

variable {before : List Token} {property colon : Token}

end Scans

end Precompile.Route
