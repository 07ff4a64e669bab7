/-!
Tokens of a script.
-/

namespace Precompile.Script

/-- The kinds of tokens. -/
inductive TokenKind where
  -- A name or keyword.
  | ident
  -- A quoted text, or a template without substitutions.
  | literal
  -- A template with substitutions.
  | template
  -- A number.
  | number
  -- One other character.
  | punct (char : Char)
  deriving DecidableEq, Repr, Inhabited

/-- A token and the bytes that it takes up. The text of a literal is its value; that of every
other token is what is written. -/
structure Token where
  kind : TokenKind
  text : String
  start : Nat
  stop : Nat
  deriving DecidableEq, Repr, Inhabited

namespace Token

def isIdent (t : Token) (name : String) : Bool := t.kind = .ident ∧ t.text = name

def isPunct (t : Token) (c : Char) : Bool := t.kind = .punct c

def literal? (t : Token) : Option String := if t.kind = .literal then some t.text else none

def ident? (t : Token) : Option String := if t.kind = .ident then some t.text else none

end Token

/-- A place where the text is malformed, and in which way. -/
inductive LexicalFault where
  | openComment
  | openString
  | openTemplate
  deriving DecidableEq, Repr, Inhabited

namespace LexicalFault

/-- The wording of a fault. -/
def message : LexicalFault → String
  | openComment => "unterminated block comment"
  | openString => "unterminated string literal"
  | openTemplate => "unterminated template literal"

end LexicalFault

/-- A fault and the offset where the malformed part starts. -/
structure LexicalError where
  offset : Nat
  fault : LexicalFault
  deriving DecidableEq, Repr, Inhabited

end Precompile.Script
