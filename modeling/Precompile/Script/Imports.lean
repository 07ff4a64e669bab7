import Precompile.Script.Cursor

/-!
The modules that a script names.

They stand in `import` and `export` declarations, after `from` or at once, and in calls of `import`.
-/

namespace Precompile.Script

/-- A module specifier and the bytes of the literal that it is written as. -/
structure ImportRef where
  specifier : String
  start : Nat
  stop : Nat
  deriving DecidableEq, Repr, Inhabited

/-- Specifiers that are looked up from the place of the importing file. -/
def isRelativeSpecifier (specifier : String) : Bool :=
  specifier.startsWith "./" || specifier.startsWith "../"

namespace ImportRef

def ofToken (t : Token) : ImportRef := ⟨t.text, t.start, t.stop⟩

/-- References that are looked up from the place of the importing file. -/
def isRelative (r : ImportRef) : Bool := isRelativeSpecifier r.specifier

end ImportRef

/-- How many tokens after the keyword a `from` is looked for. -/
def fromLookahead : Nat := 64

def literalAt? : List Token → Option Token
  | t :: _ => if t.kind = .literal then some t else none
  | [] => none

/-- The literal after the first `from` among the next `n` tokens. A semicolon or another
declaration ends the search. -/
def findFrom? : Nat → List Token → Option Token
  | 0, _ => none
  | _ + 1, [] => none
  | n + 1, t :: rest =>
    if t.isPunct ';' || t.isIdent "import" || t.isIdent "export" then none
    else if t.isIdent "from" then literalAt? rest
    else findFrom? n rest

/-- The literal that an `import` names, given the tokens after it. -/
def importTarget? : List Token → Option Token
  | [] => none
  | t :: rest =>
    if t.kind = .literal then some t
    else if t.isPunct '(' then literalAt? rest
    else findFrom? fromLookahead (t :: rest)

/-- The modules named by the declarations that start in a list of tokens, in order. -/
def scanImports : List Token → List ImportRef
  | [] => []
  | t :: rest =>
    let target :=
      if t.isIdent "import" then importTarget? rest
      else if t.isIdent "export" then findFrom? fromLookahead rest
      else none
    (target.map ImportRef.ofToken).toList ++ scanImports rest

end Precompile.Script
