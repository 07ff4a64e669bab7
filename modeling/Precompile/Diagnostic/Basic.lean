import Precompile.Script.File

/-!
Diagnostics: what was found wrong, how grave it is, and where.
-/

namespace Precompile

/-- How grave a diagnostic is. Only errors make a cycle fail. -/
inductive Severity where
  | note
  | warning
  | error
  deriving DecidableEq, Repr, Inhabited

/-- The word for a severity. -/
def Severity.label : Severity → String
  | note => "note"
  | warning => "warning"
  | error => "error"

/-- Where diagnostics come from. -/
inductive Category where
  -- The form of a single file.
  | syntactic
  -- The meaning of a single file.
  | semantic
  -- The declarations that a single file gives.
  | declaration
  -- The program as a whole.
  | global
  -- The build itself.
  | build
  deriving DecidableEq, Repr, Inhabited

namespace Category

/-- The letter that codes of the category start with. -/
def letter : Category → Char
  | syntactic => 'S'
  | semantic => 'E'
  | declaration => 'D'
  | global => 'G'
  | build => 'B'

/-- The name of the category in reports. -/
def label : Category → String
  | syntactic => "Syntactic"
  | semantic => "Semantic"
  | declaration => "Declaration"
  | global => "Global"
  | build => "Build"

end Category

/-- What kind of problem a diagnostic is about. -/
structure DiagnosticCode where
  category : Category
  number : Nat
  deriving DecidableEq, Repr, Inhabited

/-- The code as it is displayed: the letter and at least three digits. -/
def DiagnosticCode.text (c : DiagnosticCode) : String :=
  let digits := Nat.toDigits 10 c.number
  String.ofList (c.category.letter :: (List.replicate (3 - digits.length) '0' ++ digits))

/-- A problem that was found. -/
structure Diagnostic where
  severity : Severity
  code : DiagnosticCode
  message : String
  location : Option Location
  -- The line of text that the location is in.
  sourceLine : Option String
  -- The number of bytes that the problem takes up.
  spanLength : Nat
  notes : List String
  help : List String
  deriving DecidableEq, Repr, Inhabited

namespace Diagnostic

def ofCode (severity : Severity) (code : DiagnosticCode) (message : String) : Diagnostic :=
  ⟨severity, code, message, none, none, 0, [], []⟩

def error (category : Category) (number : Nat) (message : String) : Diagnostic :=
  ofCode .error ⟨category, number⟩ message

def warning (category : Category) (number : Nat) (message : String) : Diagnostic :=
  ofCode .warning ⟨category, number⟩ message

def atPlace (d : Diagnostic) (l : Location) : Diagnostic := { d with location := some l }

/-- The diagnostic for the bytes from `start` to `stop` of a file, together with the line that
`start` is in. There is none when `start` is inside a character. -/
def inFile? (d : Diagnostic) (f : SourceFile) (start stop : Nat) : Option Diagnostic :=
  (f.lineAt? start).map fun line =>
    { d with location := some (f.location start), sourceLine := some line, spanLength := stop - start }

/-- The diagnostic for bytes of a file that start between characters. -/
def inFile (d : Diagnostic) (f : SourceFile) (start stop : Nat) : Diagnostic :=
  (d.inFile? f start stop).getD d

def withNote (d : Diagnostic) (note : String) : Diagnostic := { d with notes := d.notes ++ [note] }

def withHelp (d : Diagnostic) (hint : String) : Diagnostic := { d with help := d.help ++ [hint] }

def isError (d : Diagnostic) : Bool := d.severity = .error

/-- The diagnostics located in a file. -/
def inPath (file : Path) (ds : List Diagnostic) : List Diagnostic :=
  ds.filter fun d => match d.location with
    | some l => decide (l.file.Same file)
    | none => false

def count (severity : Severity) (ds : List Diagnostic) : Nat :=
  ds.countP fun d => decide (d.severity = severity)

end Diagnostic

end Precompile
