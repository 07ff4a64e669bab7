import Precompile.Json.Basic

/-!
Writing JSON: on one line without spaces, or over several lines with two spaces for each level.
-/

namespace Precompile.Json

/-- A digit of a hexadecimal number, in lower case. -/
def hexDigit (n : Nat) : Char := (Nat.digitChar n)

/-- The text of one character inside quotes. Quotes, backslashes and control characters are
escaped, by a letter where there is one. -/
def escapeChar (c : Char) : List Char :=
  match c with
  | '"' => ['\\', '"']
  | '\\' => ['\\', '\\']
  | '\x08' => ['\\', 'b']
  | '\x0c' => ['\\', 'f']
  | '\n' => ['\\', 'n']
  | '\r' => ['\\', 'r']
  | '\t' => ['\\', 't']
  | c =>
    if c.toNat < 0x20 then
      ['\\', 'u', '0', '0', hexDigit (c.toNat / 16), hexDigit (c.toNat % 16)]
    else [c]

def quote (s : String) : String :=
  String.ofList ('"' :: s.toList.flatMap escapeChar ++ ['"'])

def Number.text : Number → String
  | .whole n => toString n
  | .real x => x.toShortText

mutual

/-- The value on one line. -/
def compact : Json → String
  | .null => "null"
  | .bool true => "true"
  | .bool false => "false"
  | .number n => n.text
  | .string s => quote s
  | .array items => "[" ++ ",".intercalate (compactItems items) ++ "]"
  | .object members => "\x7b" ++ ",".intercalate (compactMembers members) ++ "\x7d"

def compactItems : List Json → List String
  | [] => []
  | item :: rest => compact item :: compactItems rest

def compactMembers : List (String × Json) → List String
  | [] => []
  | (key, item) :: rest => (quote key ++ ":" ++ compact item) :: compactMembers rest

end

def newline (level : Nat) : String :=
  String.ofList ('\n' :: List.replicate (2 * level) ' ')

mutual

/-- The value over several lines, its first one at the given level. -/
def prettyAt (level : Nat) : Json → String
  | .null => "null"
  | .bool true => "true"
  | .bool false => "false"
  | .number n => n.text
  | .string s => quote s
  | .array [] => "[]"
  | .array (item :: rest) =>
    "[" ++ ",".intercalate (prettyItems (level + 1) (item :: rest)) ++ newline level ++ "]"
  | .object [] => "\x7b\x7d"
  | .object (m :: rest) =>
    "\x7b" ++ ",".intercalate (prettyMembers (level + 1) (m :: rest)) ++ newline level ++ "\x7d"

/-- The texts of items, each on a line of its own. -/
def prettyItems (level : Nat) : List Json → List String
  | [] => []
  | item :: rest => (newline level ++ prettyAt level item) :: prettyItems level rest

/-- The texts of members, each on a line of its own. -/
def prettyMembers (level : Nat) : List (String × Json) → List String
  | [] => []
  | (key, item) :: rest =>
    (newline level ++ quote key ++ ": " ++ prettyAt level item) :: prettyMembers level rest

end

def pretty (v : Json) : String := prettyAt 0 v

end Precompile.Json
