/-!
References to an export of a module, written `module#export`.
-/

namespace Precompile

/-- An export of a module. -/
structure ModuleReference where
  module : String
  exportName : String
  deriving DecidableEq, Repr, Inhabited

namespace ModuleReference

/-- The export that a reference means when it names none. -/
def defaultExport : String := "default"

/-- Splits a text at the first `#`. -/
def splitHash : List Char → List Char × Option (List Char)
  | [] => ([], none)
  | c :: cs =>
    if c = '#' then ([], some cs)
    else let (before, after) := splitHash cs; (c :: before, after)

/-- Reads a reference. Without an export, or with an empty one, it means the default export. -/
def parse (reference : String) : ModuleReference :=
  match splitHash reference.toList with
  | (module, some (c :: cs)) => ⟨String.ofList module, String.ofList (c :: cs)⟩
  | (module, _) => ⟨String.ofList module, defaultExport⟩

def text (r : ModuleReference) : String := r.module ++ "#" ++ r.exportName

/-- What is left of a text before the given ending. -/
def stripSuffix? (ending : List Char) (cs : List Char) : Option (List Char) :=
  if ending.isSuffixOf cs then some (cs.take (cs.length - ending.length)) else none

/-- The key under which a route is kept: a mark of the default export is left out. -/
def storageKey (r : ModuleReference) : String :=
  match stripSuffix? "#default".toList r.text.toList with
  | some key => String.ofList key
  | none => r.text

end ModuleReference

end Precompile
