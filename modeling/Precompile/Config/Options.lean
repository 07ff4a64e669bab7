import Precompile.Json.Basic
import Precompile.OrderedMap
import Precompile.Toml.Reader

/-!
The options that a user gives.

They come as a table of settings or as a JSON object with the same names. Every option may be left
out; a name that is not known is refused.
-/

namespace Precompile

/-- The options as they are given. -/
structure UserOptions where
  -- Where the compiler's configuration is.
  tsConfigPath : Option String
  -- The directory that paths are relative to, if it is not that of the configuration.
  basePath : Option String
  -- The globs of files that are no roots.
  exclude : Option (List String)
  -- Whether diagnostics of the program as a whole fail a cycle.
  typeChecking : Option Bool
  -- Whether no factories are generated.
  skipCodeGeneration : Option Bool
  -- The entry module and its export.
  entryModule : Option String
  -- The main file, from which the entry module can be inferred.
  mainPath : Option String
  -- The file with messages in another language.
  i18nFile : Option String
  -- The format of the messages.
  i18nFormat : Option String
  -- The locale of the output.
  locale : Option String
  -- Texts that take the place of files.
  hostOverrideFileSystem : TextMap String
  deriving Inhabited

namespace UserOptions

def names : List String :=
  ["tsConfigPath", "basePath", "exclude", "typeChecking", "skipCodeGeneration", "entryModule",
    "mainPath", "i18nFile", "i18nFormat", "locale", "hostOverrideFileSystem"]

/-- An optional text. -/
def text? : Option Json → Option (Option String)
  | none | some .null => some none
  | some (.string s) => some (some s)
  | some _ => none

/-- An optional Boolean. -/
def bool? : Option Json → Option (Option Bool)
  | none | some .null => some none
  | some (.bool b) => some (some b)
  | some _ => none

/-- An optional list of texts; a text alone is a list of one. It cannot be null. -/
def texts? : Option Json → Option (Option (List String))
  | none => some none
  | some (.string s) => some (some [s])
  | some (.array items) => (items.mapM Json.string?).map some
  | some _ => none

/-- Texts by name. They cannot be null. -/
def textMap? : Option Json → Option (TextMap String)
  | none => some .empty
  | some (.object members) =>
    (members.mapM fun (m : String × Json) => m.2.string?.map (m.1, ·)).map OrderedMap.ofList
  | some _ => none

/-- The options that named values stand for. -/
def ofMembers? (members : List (String × Json)) : Option UserOptions :=
  if members.all fun m => names.contains m.1 then do
    let get := Json.member? members
    return {
      tsConfigPath := ← text? (get "tsConfigPath")
      basePath := ← text? (get "basePath")
      exclude := ← texts? (get "exclude")
      typeChecking := ← bool? (get "typeChecking")
      skipCodeGeneration := ← bool? (get "skipCodeGeneration")
      entryModule := ← text? (get "entryModule")
      mainPath := ← text? (get "mainPath")
      i18nFile := ← text? (get "i18nFile")
      i18nFormat := ← text? (get "i18nFormat")
      locale := ← text? (get "locale")
      hostOverrideFileSystem := ← textMap? (get "hostOverrideFileSystem") }
  else none

/-- The options that a JSON value stands for: an object, or a list of all values in the order of the
names. The last one may be left out of the list. -/
def ofJson? : Json → Option UserOptions
  | .object members => ofMembers? members
  | .array values =>
    if values.length = names.length ∨ values.length + 1 = names.length then
      ofMembers? (names.zip values)
    else none
  | _ => none

def boolJson : Option Bool → Json
  | none => .null
  | some b => .bool b

def textsJson : Option (List String) → Json
  | none => .null
  | some texts => .array (texts.map .string)

/-- The options as a JSON value. Every name is there. -/
def toJson (o : UserOptions) : Json :=
  .ofMembers [
    ("tsConfigPath", .ofString? o.tsConfigPath), ("basePath", .ofString? o.basePath),
    ("exclude", textsJson o.exclude), ("typeChecking", boolJson o.typeChecking),
    ("skipCodeGeneration", boolJson o.skipCodeGeneration),
    ("entryModule", .ofString? o.entryModule), ("mainPath", .ofString? o.mainPath),
    ("i18nFile", .ofString? o.i18nFile), ("i18nFormat", .ofString? o.i18nFormat),
    ("locale", .ofString? o.locale),
    ("hostOverrideFileSystem", .ofMembers (o.hostOverrideFileSystem.entries.map fun e =>
      (e.1, .string e.2)))]

end UserOptions

def Toml.Moment.key : String := "$__toml_private_datetime"

mutual

/-- A setting as a JSON value. A moment is an object with its text as the only member. -/
def Toml.Value.toJson : Toml.Value → Json
  | .string s => .string s
  | .bool b => .bool b
  | .moment m => .ofMembers [(Toml.Moment.key, .string m.text)]
  | .array items => .array (Toml.itemsToJson items)
  | .table members => .ofMembers (Toml.membersToJson members)

def Toml.itemsToJson : List Toml.Value → List Json
  | [] => []
  | v :: rest => v.toJson :: Toml.itemsToJson rest

def Toml.membersToJson : List (String × Toml.Value) → List (String × Json)
  | [] => []
  | (key, v) :: rest => (key, v.toJson) :: Toml.membersToJson rest

end

namespace UserOptions

/-- The options that the text of a table of settings stands for. -/
def ofToml? (content : String) : Option UserOptions :=
  (Toml.parse? content).bind fun members => ofMembers? (Toml.membersToJson members)

end UserOptions

end Precompile
