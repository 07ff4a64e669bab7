import Precompile.Config.Error
import Precompile.Json.Reader

/-!
The compiler's configuration: what it says, and what a checker makes of it.
-/

namespace Precompile

/-- The options of the compiler, as they are written. -/
structure CompilerOptions where
  members : List (String × Json)
  deriving Repr, Inhabited

namespace CompilerOptions

def empty : CompilerOptions := ⟨[]⟩

def get? (o : CompilerOptions) (key : String) : Option Json := Json.member? o.members key

/-- An option that is switched on. Anything but `true` leaves it off. -/
def flag (o : CompilerOptions) (key : String) : Bool := ((o.get? key).bind Json.bool?).getD false

def declaration (o : CompilerOptions) : Bool := o.flag "declaration"

/-- The base of specifiers, seen from a directory. -/
def baseUrl? (o : CompilerOptions) (base : Path) : Option Path :=
  ((o.get? "baseUrl").bind Json.string?).map fun url => base.join ⟨url⟩

end CompilerOptions

/-- The options of code generation: two that are understood, and the others as they are written. -/
structure CodegenOptions where
  genDir : Option String
  entryModule : Option String
  extra : List (String × Json)
  deriving Repr, Inhabited

namespace CodegenOptions

def empty : CodegenOptions := ⟨none, none, []⟩

/-- An optional text. -/
def text? : Json → Except TypeMismatch (Option String)
  | .null => .ok none
  | .string s => .ok (some s)
  | v => .error ⟨v, "a string"⟩

/-- Takes over one member. -/
def addMember (o : CodegenOptions) (m : String × Json) : Except TypeMismatch CodegenOptions :=
  if m.1 = "genDir" then (text? m.2).map fun genDir => { o with genDir }
  else if m.1 = "entryModule" then (text? m.2).map fun entryModule => { o with entryModule }
  else .ok { o with extra := o.extra ++ [m] }

/-- The options that a JSON value stands for. Members are looked at in order. -/
def ofJson : Json → Except TypeMismatch CodegenOptions
  | .object members => members.foldlM addMember empty
  | v => .error ⟨v, "struct CodegenOptions"⟩

def toJson (o : CodegenOptions) : Json :=
  .ofMembers (o.extra ++
    [("genDir", .ofString? o.genDir), ("entryModule", .ofString? o.entryModule)])

end CodegenOptions

/-- What a checker makes of the configuration. -/
structure ParsedConfig where
  roots : List Path
  compiler : CompilerOptions
  codegen : CodegenOptions
  deriving Repr, Inhabited

/-- The object that the text of a configuration stands for. -/
def readTsConfig (path : Path) (content : String) : Except ConfigError Json :=
  match Json.parse? content with
  | none =>
    let cs := content.toList
    .error (.tsConfig path
      (.syntaxError (cs.count '\n' + 1) (cs.reverse.takeWhile (· != '\n')).length))
  | some (.object members) => .ok (.object members)
  | some _ => .error (.tsConfig path .notObject)

/-- The object that a file of the disk stands for. -/
def readTsConfigFile (d : Disk) (path : Path) : Except ConfigError Json :=
  match d.read path with
  | .ok content => readTsConfig path content
  | .error e => .error (.unreadable path (.ofReadError e))

end Precompile
