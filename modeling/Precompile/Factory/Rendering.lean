import Precompile.Factory.Classes
import Precompile.Path.Normal
import Precompile.Route.Entry

/-!
The text of a generated factory.
-/

namespace Precompile.Factory

/-- The directory of a file; the root where there is none. -/
def directoryOf (p : Path) : Path := p.parent?.getD ⟨"/"⟩

/-- The specifier by which a factory imports its source. -/
def importSpecifier (source target : Path) : String :=
  let stem := Route.withoutEnding (source.relativeTo (directoryOf target))
  if stem.startsWith "../" || stem.startsWith "./" then stem else "./" ++ stem

/-- The declaration of the factory of a class. -/
def declaration (locale : Option String) (name : String) : String :=
  let localePart := match locale with
    | some l => ", locale: '" ++ l ++ "'"
    | none => ""
  "export const " ++ name ++ "NgFactory = \x7b moduleType: " ++ name ++ localePart ++ " \x7d;\n"

/-- The text of the factory of a source. -/
def render (source target : Path) (classes : List DecoratedClass) (locale : Option String) :
    String :=
  let names := classes.map DecoratedClass.name
  "// Generated from " ++ source.text ++ "\n" ++
    "import \x7b " ++ ", ".intercalate names ++ " \x7d from '" ++ importSpecifier source target ++
    "';\n" ++
    String.join (names.map (declaration locale))

end Precompile.Factory
