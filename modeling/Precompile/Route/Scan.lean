import Precompile.Route.Reference
import Precompile.Script.Cursor

/-!
The lazy routes that a script declares.

A route is a `loadChildren` property. Its target is known when the value is a literal, a name that
the script binds to a literal, or a call of `import` whose result is asked for an export; any other
value is passed over.
-/

namespace Precompile.Route

open Script

/-- A route that was found, and the offset of its property. -/
structure Scanned where
  offset : Nat
  reference : ModuleReference
  deriving DecidableEq, Repr, Inhabited

def propertyName : String := "loadChildren"

def endsConstant : List Token → Bool
  | [] => true
  | t :: _ => t.isPunct ';' || t.isPunct ',' || t.isIdent "export" || t.isIdent "const"

/-- The name and the literal of the constant that is declared by the tokens after `const`. -/
def constant? : List Token → Option (String × String)
  | name :: equals :: value :: rest =>
    if name.kind = .ident ∧ equals.isPunct '=' ∧ value.kind = .literal ∧ endsConstant rest then
      some (name.text, value.text)
    else none
  | _ => none

/-- The names that are bound to literals, in order. -/
def constants : List Token → List (String × String)
  | [] => []
  | t :: rest =>
    (if t.isIdent "const" then (constant? rest).toList else []) ++ constants rest

def lookupLast? (bindings : List (String × String)) (name : String) : Option String :=
  (bindings.reverse.find? fun b => decide (b.1 = name)).map Prod.snd

/-- The literal in `() => import('module')`. -/
def importedModule? (c : Cursor) : Option (Token × Cursor) := do
  let c ← c.eatPuncts? ['(', ')']
  let c ← c.eatPuncts? ['=', '>']
  let c ← c.eatKeyword? "import"
  let c ← c.eatPunct? '('
  let (module, c) ← c.eatLiteral?
  let c ← c.eatPunct? ')'
  some (module, c)

/-- The name of a parameter, which may stand in brackets. -/
def parameter? (c : Cursor) : Option (Token × Cursor) :=
  match c.eatPunct? '(' with
  | some c => do
    let (param, c) ← c.eatIdent?
    let c ← c.eatPunct? ')'
    some (param, c)
  | none => c.eatIdent?

/-- The name of the export in `m => m.Export`. What comes after it is not looked at. -/
def exportAsked? (c : Cursor) : Option Token := do
  let (param, c) ← parameter? c
  let c ← c.eatPuncts? ['=', '>']
  let c ← c.eatKeyword? param.text
  let c ← c.eatPunct? '.'
  let (exported, _) ← c.eatIdent?
  some exported

/-- The export asked for in `() => import('module').then(m => m.Export)`, where `m` may stand in
brackets. -/
def dynamicImport? (c : Cursor) : Option ModuleReference := do
  let (module, c) ← importedModule? c
  let c ← c.eatPunct? '.'
  let c ← c.eatKeyword? "then"
  let c ← c.eatPunct? '('
  let exported ← exportAsked? c
  some ⟨module.text, exported.text⟩

/-- The target of a route, given the tokens from its value on. -/
def target? (bindings : List (String × String)) (value : List Token) : Option ModuleReference :=
  match value with
  | [] => none
  | t :: _ =>
    match t.kind with
    | .literal => some (.parse t.text)
    | .ident => (lookupLast? bindings t.text).map .parse
    | _ => dynamicImport? (.start value)

def isProperty (t : Token) : Bool :=
  t.isIdent propertyName || t.literal? = some propertyName

/-- The routes among the given tokens. -/
def scanWith (bindings : List (String × String)) : List Token → List Scanned
  | [] => []
  | t :: rest =>
    let found := match rest with
      | colon :: value =>
        if isProperty t && colon.isPunct ':' then target? bindings value else none
      | [] => none
    (found.map (Scanned.mk t.start)).toList ++ scanWith bindings rest

def scan (tokens : List Token) : List Scanned := scanWith (constants tokens) tokens

end Precompile.Route
