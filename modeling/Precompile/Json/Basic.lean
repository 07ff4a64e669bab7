import Precompile.Decimal.Shortest

/-!
JSON values.

Whole numbers of up to 64 bits stay whole; every other number is a double. The members of an object
are kept in the order of their names, and a name stands at most once.
-/

namespace Precompile

/-- A number as it is kept. -/
inductive Json.Number where
  | whole (value : Int)
  | real (value : Binary64)
  deriving DecidableEq, Repr, Inhabited

/-- A JSON value. -/
inductive Json where
  | null
  | bool (value : Bool)
  | number (value : Json.Number)
  | string (value : String)
  | array (items : List Json)
  | object (members : List (String × Json))
  deriving Repr, Inhabited

namespace Json

/-- The members with `value` under `key`; an earlier value under that name is replaced. -/
def insertMember (key : String) (value : Json) : List (String × Json) → List (String × Json)
  | [] => [(key, value)]
  | m :: rest =>
    if key < m.1 then (key, value) :: m :: rest
    else if m.1 < key then m :: insertMember key value rest
    else (key, value) :: rest

/-- The object with the given members, the last one of a name winning. -/
def ofMembers (members : List (String × Json)) : Json :=
  .object (members.foldl (fun ms m => insertMember m.1 m.2 ms) [])

def member? (members : List (String × Json)) (key : String) : Option Json :=
  (members.find? fun m => decide (m.1 = key)).map Prod.snd

/-- The value under a name, if this is an object that has it. -/
def get? : Json → String → Option Json
  | .object members, key => member? members key
  | _, _ => none

def string? : Json → Option String
  | .string s => some s
  | _ => none

def bool? : Json → Option Bool
  | .bool b => some b
  | _ => none

def ofNat (n : Nat) : Json := .number (.whole n)

def ofString? : Option String → Json
  | none => .null
  | some s => .string s

end Json

end Precompile
