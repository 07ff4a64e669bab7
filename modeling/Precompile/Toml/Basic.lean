import Precompile.Toml.Moment

/-!
Tables of settings, in the part of TOML that settings need.

Values are texts, Booleans, moments, lists and tables. Numbers and lists of tables are left out: a
document that has one is refused.
-/

namespace Precompile.Toml

/-- A value of a setting. -/
inductive Value where
  | string (text : String)
  | bool (value : Bool)
  | moment (m : Moment)
  | array (items : List Value)
  | table (members : List (String × Value))
  deriving Repr, Inhabited

/-- How a table came to be: as a step on the way to another one, by dotted keys, or by its own
header. -/
inductive Origin where
  | passage
  | dotted
  | header
  deriving DecidableEq, Repr, Inhabited

/-- What stands under a key while a document is put together. A value is complete; a table may still
grow. -/
inductive Node where
  | value (v : Value)
  | table (origin : Origin) (members : List (String × Node))
  deriving Repr, Inhabited

/-- A line of a document: a setting, or the header of a table. -/
inductive Statement where
  | setting (path : List String) (v : Value)
  | header (path : List String)
  deriving Repr, Inhabited

def find? (key : String) (members : List (String × Node)) : Option Node :=
  (members.find? fun m => decide (m.1 = key)).map Prod.snd

/-- The members with something else under a key that is there, or with a new key at the end. -/
def put (key : String) (n : Node) (members : List (String × Node)) : List (String × Node) :=
  if (find? key members).isSome then
    members.map fun m => if m.1 = key then (key, n) else m
  else members ++ [(key, n)]

/-- Puts a value under a dotted key. A key is set once; tables with headers are not reached by
dotted keys. -/
def set? (v : Value) : List String → List (String × Node) → Option (List (String × Node))
  | [], _ => none
  | [key], members => if (find? key members).isSome then none else some (put key (.value v) members)
  | key :: path, members =>
    match find? key members with
    | none => (set? v path []).map fun inner => put key (.table .dotted inner) members
    | some (.value _) => none
    | some (.table .header _) => none
    | some (.table origin inner) =>
      (set? v path inner).map fun inner => put key (.table origin inner) members

/-- Opens the table of a header. A table is opened once, and not after dotted keys have made it. -/
def open? : List String → List (String × Node) → Option (List (String × Node))
  | [], _ => none
  | [key], members =>
    match find? key members with
    | none => some (put key (.table .header []) members)
    | some (.table .passage inner) => some (put key (.table .header inner) members)
    | some _ => none
  | key :: path, members =>
    match find? key members with
    | none => (open? path []).map fun inner => put key (.table .passage inner) members
    | some (.value _) => none
    | some (.table origin inner) =>
      (open? path inner).map fun inner => put key (.table origin inner) members

/-- Does something to the members of the table at a path. -/
def within? (f : List (String × Node) → Option (List (String × Node))) :
    List String → List (String × Node) → Option (List (String × Node))
  | [], members => f members
  | key :: path, members =>
    match find? key members with
    | some (.table origin inner) =>
      (within? f path inner).map fun inner => put key (.table origin inner) members
    | _ => none

/-- Adds a line to a document. The state is the table that the last header opened, and the whole. -/
def addStatement? (state : List String × List (String × Node)) :
    Statement → Option (List String × List (String × Node))
  | .setting path v => (within? (set? v path) state.1 state.2).map (state.1, ·)
  | .header path => (open? path state.2).map (path, ·)

mutual

def Node.toValue : Node → Value
  | .value v => v
  | .table _ members => .table (membersToValues members)

def membersToValues : List (String × Node) → List (String × Value)
  | [] => []
  | (key, n) :: rest => (key, n.toValue) :: membersToValues rest

end

/-- The table that the lines of a document describe. -/
def assemble? (lines : List Statement) : Option (List (String × Value)) :=
  (lines.foldlM addStatement? ([], [])).map fun state => membersToValues state.2

end Precompile.Toml
