import Precompile.Config.Compiler
import Precompile.Path.Map
import Precompile.Script.File

/-!
Programs: the sources that a compiler currently believes in.

A program does not change. Each cycle replaces it by another one.
-/

namespace Precompile

/-- The roots that a program was created from, the text of each of its files, and the options of
the compiler. -/
structure Program where
  roots : List Path
  files : PathMap String
  options : CompilerOptions
  deriving Inhabited

namespace Program

def file? (P : Program) (p : Path) : Option SourceFile :=
  (P.files.find? p).map fun (q, content) => ⟨q, content⟩

def contains (P : Program) (p : Path) : Bool := P.files.contains p

def sources (P : Program) : List SourceFile :=
  P.files.entries.map fun (p, content) => ⟨p, content⟩

def paths (P : Program) : List Path := P.files.keys

end Program

end Precompile
