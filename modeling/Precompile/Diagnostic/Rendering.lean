import Precompile.Diagnostic.Basic
import Precompile.Json.Basic

/-!
The three forms in which diagnostics are shown: one line each, an excerpt for a terminal, and JSON.
-/

namespace Precompile.Diagnostic

/-- One line: the place in brackets, if there is one, and the message. -/
def compact (d : Diagnostic) : String :=
  match d.location with
  | some l => s!"{l.file.text} ({l.line},{l.column}): {d.message}"
  | none => d.message

def aggregate (ds : List Diagnostic) : String := "\n".intercalate (ds.map compact)

/-- The control sequence that colours a heading. -/
def ansiColour : Severity → String
  | .error => "\x1b[1;31m"
  | .warning => "\x1b[1;33m"
  | .note => "\x1b[1;36m"

def heading (colour : Bool) (d : Diagnostic) : String :=
  let plain := s!"{d.severity.label}[{d.code.text}]"
  if colour then ansiColour d.severity ++ plain ++ "\x1b[0m" else plain

def repeated (c : Char) (n : Nat) : String := String.ofList (List.replicate n c)

/-- The place, and the line of text with the problem underlined. -/
def excerpt (d : Diagnostic) : String :=
  match d.location with
  | none => ""
  | some l =>
    let arrow := s!"  --> {l.text}\n"
    match d.sourceLine with
    | none => arrow
    | some line =>
      let number := toString l.line
      let margin := repeated ' ' number.length
      let indent := repeated ' ' (l.column - 1)
      let marks := repeated '^' (max d.spanLength 1)
      arrow ++ s!"{margin} |\n{number} | {line}\n{margin} | {indent}{marks}\n"

/-- The form for a terminal. -/
def terminal (colour : Bool) (d : Diagnostic) : String :=
  s!"{heading colour d}: {d.message}\n" ++ excerpt d ++
    String.join (d.notes.map fun note => s!"   = note: {note}\n") ++
    String.join (d.help.map fun hint => s!"   = help: {hint}\n")

def locationJson (l : Location) : Json :=
  .ofMembers [("file", .string l.file.text), ("line", .ofNat l.line), ("column", .ofNat l.column)]

/-- The form in JSON. -/
def toJson (d : Diagnostic) : Json :=
  .ofMembers [
    ("severity", .string d.severity.label),
    ("code", .ofMembers [("category", .string d.code.category.label),
      ("number", .ofNat d.code.number)]),
    ("message", .string d.message),
    ("location", (d.location.map locationJson).getD .null),
    ("source_line", .ofString? d.sourceLine),
    ("span_len", .ofNat d.spanLength),
    ("notes", .array (d.notes.map .string)),
    ("help", .array (d.help.map .string))]

end Precompile.Diagnostic
