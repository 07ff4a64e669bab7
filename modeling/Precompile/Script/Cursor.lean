import Precompile.Script.Token

/-!
A place in a list of tokens, from which scanners recognise small fixed shapes.

Every `eat` either recognises what it asks for and moves past it, or leaves the place as it was.
-/

namespace Precompile.Script

/-- The tokens that are ahead, and the number of those already passed. -/
structure Cursor where
  position : Nat
  ahead : List Token
  deriving DecidableEq, Repr, Inhabited

namespace Cursor

/-- The place before the token with the given number. -/
def atIndex (tokens : List Token) (n : Nat) : Cursor := ⟨n, tokens.drop n⟩

def start (tokens : List Token) : Cursor := atIndex tokens 0

def current? (c : Cursor) : Option Token := c.ahead.head?

def peek? (c : Cursor) (n : Nat) : Option Token := c.ahead[n]?

def atEnd (c : Cursor) : Bool := c.ahead.isEmpty

def skip (c : Cursor) (n : Nat) : Cursor := ⟨c.position + n, c.ahead.drop n⟩

/-- The place after the next token, if there is one. -/
def advance (c : Cursor) : Cursor := if c.atEnd then c else c.skip 1

/-- The next token and the place after it, if it satisfies `p`. -/
def eatIf? (c : Cursor) (p : Token → Bool) : Option (Token × Cursor) :=
  match c.current? with
  | some t => if p t then some (t, c.skip 1) else none
  | none => none

def eatPunct? (c : Cursor) (x : Char) : Option Cursor := (c.eatIf? (·.isPunct x)).map Prod.snd

def eatKeyword? (c : Cursor) (name : String) : Option Cursor :=
  (c.eatIf? (·.isIdent name)).map Prod.snd

def eatIdent? (c : Cursor) : Option (Token × Cursor) := c.eatIf? fun t => t.kind = .ident

def eatLiteral? (c : Cursor) : Option (Token × Cursor) := c.eatIf? fun t => t.kind = .literal

/-- The tokens start with these characters. -/
def startsWithPuncts : List Char → List Token → Bool
  | [], _ => true
  | _ :: _, [] => false
  | x :: xs, t :: ts => t.isPunct x && startsWithPuncts xs ts

/-- Moves past several characters, each a token of its own. -/
def eatPuncts? (c : Cursor) (xs : List Char) : Option Cursor :=
  if startsWithPuncts xs c.ahead then some (c.skip xs.length) else none

end Cursor

end Precompile.Script
