/-!
The arguments of the command line.

Options stand before or after the command. A name of an option is `--` and a word, or `-` and a
letter; several letters can share one `-`. The value of an option follows it, or stands behind a
`=` or the letter. At one place, before or after the command, an option stands at most once.
-/

namespace Precompile.CommandLine

/-! ### What can be asked for -/

/-- When output is coloured. -/
inductive ColorChoice where
  -- If the terminal can show colours.
  | auto
  | always
  | never
  deriving DecidableEq, Repr, Inhabited

/-- The choice that a word stands for. -/
def ColorChoice.ofText? : String → Option ColorChoice
  | "auto" => some auto
  | "always" => some always
  | "never" => some never
  | _ => none

/-- The form of a report. -/
inductive ReportFormat where
  | text
  | json
  deriving DecidableEq, Repr, Inhabited

/-- The format that a word stands for. -/
def ReportFormat.ofText? : String → Option ReportFormat
  | "text" => some text
  | "json" => some json
  | _ => none

/-- The commands by name. -/
inductive CommandName where
  | build
  | routes
  | check
  | watch
  deriving DecidableEq, Repr, Inhabited

/-- The command that a word stands for. -/
def CommandName.ofText? : String → Option CommandName
  | "build" => some build
  | "routes" => some routes
  | "check" => some check
  | "watch" => some watch
  | _ => none

/-- What is to be done. -/
inductive Command where
  -- One cycle and a report.
  | build (format : ReportFormat)
  -- One cycle and the routes in JSON.
  | routes
  -- One cycle, diagnostics of every root, and a report.
  | check (format : ReportFormat)
  -- A cycle whenever files change, looked at every so many milliseconds, until so many of them
  -- were run after the first.
  | watch (interval : Nat) (cycles : Option Nat)
  deriving DecidableEq, Repr, Inhabited

/-- A command and what holds for every command. -/
structure Invocation where
  quiet : Bool
  verbose : Bool
  color : ColorChoice
  config : Option String
  command : Command
  deriving DecidableEq, Repr, Inhabited

/-- What the arguments ask for. -/
inductive Request where
  | version
  | run (i : Invocation)
  deriving DecidableEq, Repr, Inhabited

/-! ### Options -/

/-- Options without a value. -/
inductive Flag where
  | quiet
  | verbose
  | version
  deriving DecidableEq, Repr, Inhabited

/-- Options with a value. -/
inductive Setting where
  | color
  | config
  | format
  | interval
  | cycles
  deriving DecidableEq, Repr, Inhabited

/-- An option. -/
inductive OptionName where
  | flag (f : Flag)
  | setting (s : Setting)
  deriving DecidableEq, Repr, Inhabited

namespace OptionName

/-- The option of a word. -/
def ofLong? : String → Option OptionName
  | "quiet" => some (flag .quiet)
  | "verbose" => some (flag .verbose)
  | "version" => some (flag .version)
  | "color" => some (setting .color)
  | "config" => some (setting .config)
  | "format" => some (setting .format)
  | "interval" => some (setting .interval)
  | "cycles" => some (setting .cycles)
  | _ => none

/-- The option of a letter. -/
def ofShort? : Char → Option OptionName
  | 'q' => some (flag .quiet)
  | 'v' => some (flag .verbose)
  | 'V' => some (flag .version)
  | 'f' => some (setting .format)
  | _ => none

/-- The option may stand before the command, or after the given one. -/
def mayStand (after : Option CommandName) : OptionName → Bool
  | flag .version => after.isNone
  | flag _ | setting .color | setting .config => true
  | setting .format => after = some .build || after = some .check
  | setting .interval | setting .cycles => after = some .watch

end OptionName

/-- Why reading ends before the last argument. -/
inductive EarlyEnd where
  -- The arguments make no sense.
  | misuse
  -- The version is asked for. What comes after does not matter.
  | version
  deriving DecidableEq, Repr, Inhabited

/-- The options that stand at one place. -/
structure Settings where
  quiet : Bool
  verbose : Bool
  color : Option ColorChoice
  config : Option String
  format : Option ReportFormat
  interval : Option Nat
  cycles : Option Nat
  deriving DecidableEq, Repr, Inhabited

def numberBound : Nat := Nat.pow 2 64

/-- A number: decimal digits, with a `+` before them or not. -/
def number? (s : String) : Option Nat :=
  let digits := match s.toList with
    | '+' :: ds => ds
    | ds => ds
  if digits.isEmpty || !digits.all Char.isDigit then none
  else
    let n := digits.foldl (fun n d => 10 * n + (d.toNat - '0'.toNat)) 0
    if n < numberBound then some n else none

namespace Settings

def empty : Settings := ⟨false, false, none, none, none, none, none⟩

/-- Adds an option without a value. -/
def addFlag (s : Settings) : Flag → Except EarlyEnd Settings
  | .quiet => if s.quiet then .error .misuse else .ok { s with quiet := true }
  | .verbose => if s.verbose then .error .misuse else .ok { s with verbose := true }
  | .version => .error .version

/-- A value that is understood and was not given before. -/
def once {α : Type} (before : Option α) (value : Option α) : Except EarlyEnd (Option α) :=
  match before, value with
  | none, some v => .ok (some v)
  | _, _ => .error .misuse

/-- Adds an option with its value. -/
def addSetting (s : Settings) (name : Setting) (value : String) : Except EarlyEnd Settings :=
  match name with
  | .color => (once s.color (ColorChoice.ofText? value)).map fun color => { s with color }
  | .config => (once s.config (some value)).map fun config => { s with config }
  | .format => (once s.format (ReportFormat.ofText? value)).map fun format => { s with format }
  | .interval => (once s.interval (number? value)).map fun interval => { s with interval }
  | .cycles => (once s.cycles (number? value)).map fun cycles => { s with cycles }

end Settings

/-! ### Reading -/

/-- The options after an argument, and the one whose value is still to come. -/
structure Reading where
  settings : Settings
  awaited : Option Setting
  deriving DecidableEq, Repr, Inhabited

namespace Reading

def complete (s : Settings) : Reading := ⟨s, none⟩

end Reading

/-- The option, if it may stand at the place. -/
def allowed (after : Option CommandName) (name : Option OptionName) :
    Except EarlyEnd OptionName :=
  match name.filter (OptionName.mayStand after) with
  | some n => .ok n
  | none => .error .misuse

/-- Splits a text at the first `=`. -/
def splitEquals : List Char → List Char × Option (List Char)
  | [] => ([], none)
  | c :: cs =>
    if c = '=' then ([], some cs)
    else let (before, after) := splitEquals cs; (c :: before, after)

/-- Reads an option that is given by its word. -/
def readLong (after : Option CommandName) (s : Settings) (body : List Char) :
    Except EarlyEnd Reading :=
  let (word, value) := splitEquals body
  match allowed after (OptionName.ofLong? (String.ofList word)), value with
  | .error e, _ => .error e
  | .ok (.flag f), none => (s.addFlag f).map .complete
  | .ok (.flag _), some _ => .error .misuse
  | .ok (.setting n), none => .ok ⟨s, some n⟩
  | .ok (.setting n), some v => (s.addSetting n (String.ofList v)).map .complete

/-- The value behind a letter, with a `=` before it or not. -/
def attached : List Char → List Char
  | '=' :: value => value
  | value => value

/-- Reads options that are given by letters. -/
def readShort (after : Option CommandName) (s : Settings) : List Char → Except EarlyEnd Reading
  | [] => .ok (.complete s)
  | c :: cs =>
    match allowed after (OptionName.ofShort? c) with
    | .error e => .error e
    | .ok (.flag f) =>
      match s.addFlag f with
      | .ok s => readShort after s cs
      | .error e => .error e
    | .ok (.setting n) =>
      if cs.isEmpty then .ok ⟨s, some n⟩
      else (s.addSetting n (String.ofList (attached cs))).map .complete

/-- Reads one argument that is no command. -/
def readArgument (after : Option CommandName) (s : Settings) (arg : String) :
    Except EarlyEnd Reading :=
  match arg.toList with
  | '-' :: '-' :: body => readLong after s body
  | '-' :: c :: cs => readShort after s (c :: cs)
  | _ => .error .misuse

/-- An argument that is not taken for a value. A `-` alone is one. -/
def looksLikeOption (arg : String) : Bool :=
  match arg.toList with
  | '-' :: _ :: _ => true
  | _ => false

def commandAt? (after : Option CommandName) (arg : String) : Option CommandName :=
  if after.isNone then CommandName.ofText? arg else none

/-- Reads the arguments at one place. Before the command, reading ends with it, and the arguments
that follow it are left. -/
def readPlace (after : Option CommandName) (s : Settings) :
    List String → Except EarlyEnd (Settings × Option (CommandName × List String))
  | [] => .ok (s, none)
  | arg :: rest =>
    match commandAt? after arg with
    | some name => .ok (s, some (name, rest))
    | none =>
      if arg = "--" then if rest.isEmpty then .ok (s, none) else .error .misuse
      else match readArgument after s arg with
        | .error e => .error e
        | .ok ⟨s, none⟩ => readPlace after s rest
        | .ok ⟨s, some name⟩ =>
          match rest with
          | [] => .error .misuse
          | value :: more =>
            if looksLikeOption value then .error .misuse
            else match s.addSetting name value with
              | .ok s => readPlace after s more
              | .error e => .error e

/-- How often files are looked at, in milliseconds, unless it is set. -/
def defaultInterval : Nat := 500

/-- The command with its own options. -/
def commandOf (name : CommandName) (s : Settings) : Command :=
  match name with
  | .build => .build (s.format.getD .text)
  | .check => .check (s.format.getD .text)
  | .routes => .routes
  | .watch => .watch (max (s.interval.getD defaultInterval) 1) s.cycles

/-- Puts together the options of both places. Those after the command win. -/
def combine (before : Settings) (name : CommandName) (after : Settings) : Invocation where
  quiet := before.quiet || after.quiet
  verbose := before.verbose || after.verbose
  color := (after.color <|> before.color).getD .auto
  config := after.config <|> before.config
  command := commandOf name after

/-- Reads all arguments. -/
def readAll (args : List String) : Except EarlyEnd Invocation :=
  match readPlace none .empty args with
  | .error e => .error e
  | .ok (_, none) => .error .misuse
  | .ok (before, some (name, rest)) =>
    (readPlace (some name) .empty rest).map fun after => combine before name after.1

/-- What the arguments ask for, if they make sense. -/
def Request.parse? (args : List String) : Option Request :=
  match readAll args with
  | .ok i => some (.run i)
  | .error .version => some .version
  | .error .misuse => none

end Precompile.CommandLine
