import Precompile.Build.Orchestrator
import Precompile.CommandLine.Arguments
import Precompile.Json.Printer

/-!
What commands print.
-/

namespace Precompile.CommandLine

/-- What is printed on the two streams. -/
structure Output where
  stdout : String
  stderr : String
  deriving DecidableEq, Repr, Inhabited

namespace Output

def empty : Output := ⟨"", ""⟩

/-- One output and then another. -/
instance : Append Output := ⟨fun a b => ⟨a.stdout ++ b.stdout, a.stderr ++ b.stderr⟩⟩

def result (line : String) : Output := ⟨line ++ "\n", ""⟩

def message (line : String) : Output := ⟨"", line ++ "\n"⟩

def join (outputs : List Output) : Output := outputs.foldl (· ++ ·) empty

end Output

/-- How much is printed, and whether in colours. -/
structure Style where
  quiet : Bool
  verbose : Bool
  color : Bool
  deriving DecidableEq, Repr, Inhabited

namespace Style

/-- A terminal of that name shows colours. -/
def showsColor (term : Option String) : Bool :=
  match term with
  | some name => name ≠ "dumb"
  | none => false

/-- The style that is asked for on a terminal. -/
def ofInvocation (i : Invocation) (term : Option String) : Style where
  quiet := i.quiet
  verbose := i.verbose
  color := match i.color with
    | .auto => showsColor term
    | .always => true
    | .never => false

/-- Output that is left out where little is to be printed. -/
def unlessQuiet (style : Style) (output : Output) : Output :=
  if style.quiet then .empty else output

end Style

def errorLine (message : String) : Output := .message ("error: " ++ message)

/-- What was reported to a session. Diagnostics in their full form come first, if much is to be
printed. -/
def sessionOutput (style : Style) (s : Session) : Output :=
  let full := if style.verbose then s.diagnostics.map fun d => .message (d.terminal style.color)
    else []
  Output.join full ++ Output.join (s.errors.map errorLine) ++
    style.unlessQuiet (Output.join (s.warnings.map fun w => .message ("warning: " ++ w)))

def routeLine (key : String) : Option Path → String
  | some path => key ++ " -> " ++ path.text
  | none => key ++ " -> (unresolved)"

def resultLine (o : Orchestrator) (s : Session) : String :=
  s!"   Result: {s.errors.length} error(s), {s.warnings.length} warning(s), {o.routes.size} route(s)"

/-- The report for a reader. -/
def textReport (style : Style) (o : Orchestrator) (s : Session) : Output :=
  sessionOutput style s ++
    style.unlessQuiet
      (Output.join (o.routes.entries.map fun (key, path) => .result (routeLine key path)) ++
        .message (resultLine o s))

def routesJson (routes : RouteMap) : Json :=
  .ofMembers (routes.entries.map fun (key, path) => (key, .ofString? (path.map Path.text)))

/-- The report in JSON. -/
def jsonReport (o : Orchestrator) (s : Session) : Json :=
  .ofMembers [
    ("errors", .array (s.errors.map .string)),
    ("warnings", .array (s.warnings.map .string)),
    ("diagnostics", .array (s.diagnostics.map Diagnostic.toJson)),
    ("routes", routesJson o.routes)]

/-- The report in a format. -/
def report (format : ReportFormat) (style : Style) (o : Orchestrator) (s : Session) : Output :=
  match format with
  | .text => textReport style o s
  | .json => .result (jsonReport o s).pretty

def exitCode (s : Session) : Nat := if s.hasErrors then 1 else 0

end Precompile.CommandLine
