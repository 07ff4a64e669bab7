import Precompile.Host.Basic
import Precompile.Route.Reference

/-!
Inferring the entry module of an application from its main file.

The main file hands a name to a bootstrap call and imports that name from somewhere.
-/

namespace Precompile.Route

open Script

def bootstrapCalls : List String := ["bootstrapModule", "bootstrapModuleFactory"]

/-- The name between the brackets of a call, given the tokens after what is called. -/
def argument? : List Token → Option String
  | bracket :: name :: _ => if bracket.isPunct '(' then name.ident? else none
  | _ => none

/-- The name that the first bootstrap call with a name gets. -/
def bootstrapped? : List Token → Option String
  | [] => none
  | t :: rest =>
    let found := if bootstrapCalls.any t.isIdent then argument? rest else none
    found <|> bootstrapped? rest

/-- A name that is imported: what the module calls it, and what the importing file calls it. -/
structure ImportBinding where
  exported : String
  localName : String
  deriving DecidableEq, Repr, Inhabited

/-- Reads a name, and another one after `as` by which the file calls it. The first part is none
where an `as` has no name after it. -/
def bindingAt? : List Token → Option (Option ImportBinding × List Token)
  | [] => none
  | name :: rest =>
    if name.kind = .ident then
      match rest with
      | as_ :: renamed =>
        if as_.isIdent "as" then
          match renamed with
          | alias_ :: after =>
            if alias_.kind = .ident then some (some ⟨name.text, alias_.text⟩, after)
            else some (none, renamed)
          | [] => some (none, [])
        else some (some ⟨name.text, name.text⟩, rest)
      | [] => some (some ⟨name.text, name.text⟩, [])
    else none

/-- A name takes up a token. -/
theorem length_lt_of_bindingAt? {tokens rest : List Token} {b : Option ImportBinding}
    (h : bindingAt? tokens = some (b, rest)) : rest.length < tokens.length := by
  unfold bindingAt? at h
  split at h
  · cases h
  · split at h
    · split at h
      · split at h
        · split at h
          · split at h
            · cases h
              simp only [List.length_cons]
              omega
            · cases h
              simp
          · cases h; simp
        · cases h; simp
      · cases h; simp
    · cases h

/-- Reads names with commas between them, and gives what follows them. -/
def bindings (tokens : List Token) : List ImportBinding × List Token :=
  match h : bindingAt? tokens with
  | none => ([], tokens)
  | some (none, rest) => ([], rest)
  | some (some b, rest) =>
    match rest, length_lt_of_bindingAt? h with
    | [], _ => ([b], [])
    | comma :: more, hlt =>
      if comma.isPunct ',' then
        have : more.length < tokens.length := by
          simp only [List.length_cons] at hlt
          omega
        let (bs, after) := bindings more
        (b :: bs, after)
      else ([b], comma :: more)
termination_by tokens.length

/-- What the module calls a name of the file; the last binding counts. -/
def exportedAs? (localName : String) (bs : List ImportBinding) : Option String :=
  (bs.reverse.find? fun b => decide (b.localName = localName)).map ImportBinding.exported

/-- The specifier and the exported name, given the tokens after an `import`. -/
def clause? (localName : String) : List Token → Option (String × String)
  | brace :: rest =>
    if brace.isPunct '\x7b' then
      match bindings rest with
      | (bs, close :: from_ :: spec :: _) =>
        if close.isPunct '\x7d' && from_.isIdent "from" then
          match exportedAs? localName bs, spec.literal? with
          | some exported, some specifier => some (specifier, exported)
          | _, _ => none
        else none
      | _ => none
    else none
  | [] => none

/-- The first import that gives the file a name. -/
def importOf? (localName : String) : List Token → Option (String × String)
  | [] => none
  | t :: rest =>
    let found := if t.isIdent "import" then clause? localName rest else none
    found <|> importOf? localName rest

/-- A path without the ending of scripts. -/
def withoutEnding (p : Path) : String :=
  match ModuleReference.stripSuffix? ".ts".toList p.text.toList with
  | some stem => String.ofList stem
  | none => p.text

/-- The entry module that a main file names. -/
def entryOfFile? (h : Host) (main : Path) (f : SourceFile) : Option ModuleReference := do
  let localName ← bootstrapped? f.tokens
  let (specifier, exported) ← importOf? localName f.tokens
  let target ← h.resolve? specifier main
  return ⟨withoutEnding target, exported⟩

/-- The entry module that the main file at a path names, if it can be read. -/
def entryOfMain (main : Path) (h : Host) : Option ModuleReference × Host :=
  let entry := match h.source main with
    | .ok (some f) => entryOfFile? h main f
    | _ => none
  (entry, h.retainAll [main])

end Precompile.Route
