import Precompile.Files.Basic
import Precompile.Json.Printer
import Precompile.Pattern.Size
import Precompile.Text.Quoted

/-!
What can be wrong with a configuration.

These are the only errors that keep a build from being set up.
-/

namespace Precompile

/-! ### Values of the wrong shape -/

/-- What a value is called in messages. -/
def Json.described : Json → String
  | .null => "null"
  | .bool b => "boolean `" ++ (if b then "true" else "false") ++ "`"
  | .number (.whole n) => "integer `" ++ toString n ++ "`"
  | .number (.real x) => "floating point `" ++ x.toShortText ++ "`"
  | .string s => "string " ++ Text.quoted s
  | .array _ => "sequence"
  | .object _ => "map"

/-- A value that is not of the type that was expected. -/
structure TypeMismatch where
  found : Json
  expected : String
  deriving Repr, Inhabited

def TypeMismatch.message (m : TypeMismatch) : String :=
  "invalid type: " ++ m.found.described ++ ", expected " ++ m.expected

/-! ### Errors -/

/-- Settings that contradict each other or have the wrong shape. -/
inductive ConfigFault where
  -- An entry module that names no module.
  | entryWithoutModule (entry : String)
  -- A format of messages without a file of messages.
  | formatWithoutFile
  -- A list with something other than strings in it.
  | notStrings (key : String)
  -- Something other than a list.
  | notArray (key : String)
  -- Something other than an object.
  | notObject (key : String)
  -- An object with a member of the wrong type.
  | mismatch (key : String) (m : TypeMismatch)
  deriving Repr, Inhabited

/-- The wording of a fault. -/
def ConfigFault.message : ConfigFault → String
  | entryWithoutModule entry => s!"entryModule '{entry}' has no module path"
  | formatWithoutFile => "i18nFormat requires i18nFile"
  | notStrings key => s!"\"{key}\" must contain only strings"
  | notArray key => s!"\"{key}\" must be an array"
  | notObject key => s!"\"{key}\" must be an object"
  | mismatch key m => s!"\"{key}\": {m.message}"

/-- Why a file of the configuration could not be read. -/
inductive UnreadableCause where
  -- The disk has no such file.
  | noSuchFile
  -- The disk has it, but does not give its text.
  | fault (f : ReadFault)
  -- The host has no such file.
  | absent
  -- The host has it, but does not give its text.
  | refused (e : ReadError)
  deriving Repr, Inhabited

/-- The wording of a cause. -/
def UnreadableCause.message : UnreadableCause → String
  | noSuchFile => "No such file or directory (os error 2)"
  | fault f => f.message
  | absent => "entity not found"
  | refused e => e.message

def UnreadableCause.ofReadError : ReadError → UnreadableCause
  | .notFound _ => .noSuchFile
  | .fault _ f => .fault f

/-- Why the compiler's configuration could not be understood. -/
inductive TsConfigCause where
  -- It is not JSON. The place is where its text ends.
  | syntaxError (line column : Nat)
  -- It is not an object.
  | notObject
  -- The checker refuses it.
  | refused (reason : String)
  deriving Repr, Inhabited

/-- The wording of a cause. -/
def TsConfigCause.message : TsConfigCause → String
  | syntaxError line column => s!"no value ends at line {line} column {column}"
  | notObject => "top-level value is not an object"
  | refused reason => reason

/-- What keeps a build from being set up. -/
inductive ConfigError where
  | missingTsConfigPath
  | unreadable (path : Path) (cause : UnreadableCause)
  | tsConfig (path : Path) (cause : TsConfigCause)
  -- The options are no table of known settings.
  | malformedOptions
  | invalid (fault : ConfigFault)
  -- A glob whose matcher would be too large.
  | oversizedGlob (glob : String)
  deriving Repr, Inhabited

/-- The wording of an error. -/
def ConfigError.message : ConfigError → String
  | missingTsConfigPath => "Must specify \"tsConfigPath\" in the configuration."
  | unreadable path cause => s!"failed to read {path.text}: {cause.message}"
  | tsConfig path cause => s!"An error happened while parsing {path.text} JSON: {cause.message}."
  | malformedOptions => "failed to parse options: not a table of known settings"
  | invalid fault => s!"validation error: {fault.message}"
  | oversizedGlob glob =>
    let reason := s!"Compiled regex exceeds size limit of {Glob.sizeLimit} bytes."
    s!"invalid exclude pattern '{glob}': {reason}"

end Precompile
