import Precompile.Path.Basic
import Precompile.Script.Lexing

/-!
Source files and places in them.
-/

namespace Precompile

/-- A place in a file, for display. Line and column are 1-based, and columns count bytes. -/
structure Location where
  file : Path
  line : Nat
  column : Nat
  deriving DecidableEq, Repr, Inhabited

namespace Location

def text (l : Location) : String := s!"{l.file.text}:{l.line}:{l.column}"

end Location

/-- A source file: what it is called and what it holds. Its tokens follow from its text. -/
structure SourceFile where
  path : Path
  content : String
  deriving DecidableEq, Repr, Inhabited

namespace SourceFile

open Script

def lexed (f : SourceFile) : Lexed := lex f.content

def tokens (f : SourceFile) : List Token := f.lexed.tokens

def lexicalErrors (f : SourceFile) : List LexicalError := f.lexed.errors

def location (f : SourceFile) (offset : Nat) : Location :=
  let (line, column) := lineColumn f.content.toList offset
  ⟨f.path, line, column⟩

/-- The text between two offsets, if they are in order and between characters. -/
def snippet? (f : SourceFile) (start stop : Nat) : Option String :=
  (slice? start stop f.content.toList).map String.ofList

/-- The line around an offset, unless the offset is inside a character. -/
def lineAt? (f : SourceFile) (offset : Nat) : Option String :=
  (lineAround? offset f.content.toList).map String.ofList

end SourceFile

end Precompile
