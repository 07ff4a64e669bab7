import Precompile.Program.Checker
import Precompile.Scanning.Reachable

/-!
The checker that looks at no more than tokens, and what it finds wrong with a program.
-/

namespace Precompile.Scanning

/-- Roots that are not among the files of the program. -/
def globalDiagnostics (P : Program) : List Diagnostic :=
  ((P.roots.map Path.normalize).filter fun p => !P.contains p).map fun p =>
    .error .global 1 s!"File '{p.text}' not found."

/-- The malformed places of a file. -/
def syntacticDiagnostics (P : Program) (p : Path) : List Diagnostic :=
  match P.file? p.normalize with
  | none => []
  | some f => f.lexicalErrors.map fun e =>
      (Diagnostic.error .syntactic 1 e.fault.message).inFile f e.offset (e.offset + 1)

/-- What may be added to an import to make it a file of the program. -/
def importEndings : List String := [".ts", ".d.ts", "/index.ts", ""]

/-- The import of a file leads to a file of the program. -/
def leadsInto (P : Program) (f : SourceFile) (i : Script.ImportRef) : Bool :=
  let target := ((f.path.parent?.getD ⟨""⟩).join ⟨i.specifier⟩).normalize
  importEndings.any fun ending => P.contains ⟨target.text ++ ending⟩

/-- The relative imports of a file that lead to no file of the program. -/
def semanticDiagnostics (P : Program) (p : Path) : List Diagnostic :=
  match P.file? p.normalize with
  | none => []
  | some f =>
    let unresolved := (Script.scanImports f.tokens).filter fun i =>
      i.isRelative && !leadsInto P f i
    unresolved.map fun i =>
      (Diagnostic.error .semantic 2307 s!"Cannot find module '{i.specifier}'.").inFile f i.start i.stop

/-- The checker. It finds nothing wrong with declarations. -/
def checker : TypeChecker where
  parseConfig raw base h := ((readConfig raw base h).mapError .config, h)
  createProgram := createProgram
  globalDiagnostics := globalDiagnostics
  syntacticDiagnostics := syntacticDiagnostics
  semanticDiagnostics := semanticDiagnostics
  declarationDiagnostics _ _ := []

end Precompile.Scanning
