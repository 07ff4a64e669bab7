import Precompile.Toml.Basic

/-!
Reading the text of a table of settings.
-/

namespace Precompile.Toml.Reader

/-! ### Characters -/

def isSpace (c : Char) : Bool := c = ' ' || c = '\t'

/-- Characters that may stand in comments and literal strings: no controls but the tab. -/
def isPrintable (c : Char) : Bool := c = '\t' || (0x20 ≤ c.toNat && c.toNat ≠ 0x7F)

def isBareKey (c : Char) : Bool := c.isAlphanum || c = '_' || c = '-'

def skipSpace : List Char → List Char := List.dropWhile isSpace

/-- What is left after a line break. -/
def lineBreak? : List Char → Option (List Char)
  | '\n' :: rest => some rest
  | '\r' :: '\n' :: rest => some rest
  | _ => none

/-- What is left after a comment, if there is one. -/
def skipComment : List Char → List Char
  | '#' :: rest => rest.dropWhile isPrintable
  | cs => cs

/-- What is left after blanks, a comment and the end of the line. -/
def lineEnd? (cs : List Char) : Option (List Char) :=
  match skipComment (skipSpace cs) with
  | [] => some []
  | rest => lineBreak? rest

/-- What is left after blanks, comments and line breaks. -/
def skipLines : Nat → List Char → List Char
  | 0, cs => cs
  | fuel + 1, cs =>
    let rest := skipComment (skipSpace cs)
    match lineBreak? rest with
    | some rest => skipLines fuel rest
    | none => rest

/-! ### Strings -/

/-- The value of a hexadecimal digit. -/
def hexValue? (c : Char) : Option Nat :=
  if c.isDigit then some (c.toNat - '0'.toNat)
  else if 'a' ≤ c ∧ c ≤ 'f' then some (c.toNat - 'a'.toNat + 10)
  else if 'A' ≤ c ∧ c ≤ 'F' then some (c.toNat - 'A'.toNat + 10)
  else none

/-- The character whose number is written with the first `n` hexadecimal digits. -/
def codePoint? (n : Nat) (cs : List Char) : Option (Char × List Char) :=
  let ds := cs.take n
  if ds.length < n then none
  else
    (ds.foldlM (fun (acc : Nat) d => (hexValue? d).map (acc * 16 + ·)) 0).bind fun v =>
      if v.isValidChar then some (Char.ofNat v, cs.drop n) else none

/-- The character that the text after a backslash stands for. -/
def escape? : List Char → Option (Char × List Char)
  | 'b' :: rest => some ('\x08', rest)
  | 't' :: rest => some ('\t', rest)
  | 'n' :: rest => some ('\n', rest)
  | 'f' :: rest => some ('\x0c', rest)
  | 'r' :: rest => some ('\r', rest)
  | '"' :: rest => some ('"', rest)
  | '\\' :: rest => some ('\\', rest)
  | 'u' :: rest => codePoint? 4 rest
  | 'U' :: rest => codePoint? 8 rest
  | _ => none

/-- Reads the rest of a quoted string. -/
def basicBody : Nat → List Char → List Char → Option (String × List Char)
  | 0, _, _ => none
  | fuel + 1, done, cs =>
    match cs with
    | '"' :: rest => some (String.ofList done.reverse, rest)
    | '\\' :: rest =>
      match escape? rest with
      | some (c, rest) => basicBody fuel (c :: done) rest
      | none => none
    | c :: rest => if isPrintable c then basicBody fuel (c :: done) rest else none
    | [] => none

/-- Reads the rest of a literal string. -/
def literalBody (cs : List Char) : Option (String × List Char) :=
  match cs.dropWhile fun c => isPrintable c && c ≠ '\'' with
  | '\'' :: rest => some (String.ofList (cs.takeWhile fun c => isPrintable c && c ≠ '\''), rest)
  | _ => none

/-- What is left after blanks and line breaks. -/
def skipBlankLines : List Char → List Char
  | '\n' :: rest => skipBlankLines rest
  | '\r' :: '\n' :: rest => skipBlankLines rest
  | c :: rest => if isSpace c then skipBlankLines rest else c :: rest
  | [] => []

/-- What is left after a backslash at the end of a line: nothing of the blank lines that follow and
of the blanks before the next text. -/
def afterContinuation? (cs : List Char) : Option (List Char) :=
  (lineBreak? (skipSpace cs)).map skipBlankLines

/-- Splits off the quotes that end a string over several lines: the last three close it, up to two
before them belong to it. -/
def closing? (quote : Char) (cs : List Char) : Option (List Char × List Char) :=
  let run := (cs.takeWhile (· == quote)).length
  if run < 3 then none
  else
    let inner := min (run - 3) 2
    some (List.replicate inner quote, cs.drop (inner + 3))

/-- Reads the rest of a quoted string over several lines. -/
def longBasicBody : Nat → List Char → List Char → Option (String × List Char)
  | 0, _, _ => none
  | fuel + 1, done, cs =>
    match closing? '"' cs with
    | some (inner, rest) => some (String.ofList (inner ++ done).reverse, rest)
    | none =>
      match lineBreak? cs with
      | some rest => longBasicBody fuel ('\n' :: done) rest
      | none =>
        match cs with
        | '\\' :: rest =>
          match afterContinuation? rest with
          | some rest => longBasicBody fuel done rest
          | none =>
            match escape? rest with
            | some (c, rest) => longBasicBody fuel (c :: done) rest
            | none => none
        | c :: rest => if isPrintable c then longBasicBody fuel (c :: done) rest else none
        | [] => none

/-- Reads the rest of a literal string over several lines. -/
def longLiteralBody : Nat → List Char → List Char → Option (String × List Char)
  | 0, _, _ => none
  | fuel + 1, done, cs =>
    match closing? '\'' cs with
    | some (inner, rest) => some (String.ofList (inner ++ done).reverse, rest)
    | none =>
      match lineBreak? cs with
      | some rest => longLiteralBody fuel ('\n' :: done) rest
      | none =>
        match cs with
        | c :: rest => if isPrintable c then longLiteralBody fuel (c :: done) rest else none
        | [] => none

/-- What is left after the line break that may follow the opening quotes. -/
def skipFirstBreak (cs : List Char) : List Char := (lineBreak? cs).getD cs

/-- Reads a string of any kind. -/
def string? (cs : List Char) : Option (String × List Char) :=
  let fuel := cs.length + 1
  match cs with
  | '"' :: '"' :: '"' :: rest => longBasicBody fuel [] (skipFirstBreak rest)
  | '\'' :: '\'' :: '\'' :: rest => longLiteralBody fuel [] (skipFirstBreak rest)
  | '"' :: rest => basicBody fuel [] rest
  | '\'' :: rest => literalBody rest
  | _ => none

/-! ### Keys -/

/-- Reads a key without dots. -/
def simpleKey? (cs : List Char) : Option (String × List Char) :=
  match cs with
  | '"' :: rest => basicBody (cs.length + 1) [] rest
  | '\'' :: rest => literalBody rest
  | _ =>
    let key := cs.takeWhile isBareKey
    if key = [] then none else some (String.ofList key, cs.dropWhile isBareKey)

/-- Reads a key of one or more parts with dots between them. -/
def key? : Nat → List Char → Option (List String × List Char)
  | 0, _ => none
  | fuel + 1, cs =>
    match simpleKey? cs with
    | none => none
    | some (part, rest) =>
      match skipSpace rest with
      | '.' :: rest => (key? fuel (skipSpace rest)).map fun (parts, rest) => (part :: parts, rest)
      | _ => some ([part], rest)

/-! ### Values -/

mutual

/-- Reads a value. -/
def value : Nat → List Char → Option (Value × List Char)
  | 0, _ => none
  | fuel + 1, cs =>
    match cs with
    | 't' :: 'r' :: 'u' :: 'e' :: rest => some (.bool true, rest)
    | 'f' :: 'a' :: 'l' :: 's' :: 'e' :: rest => some (.bool false, rest)
    | '[' :: rest => items fuel [] rest
    | '{' :: rest =>
      match skipSpace rest with
      | '}' :: rest => some (.table [], rest)
      | rest => members fuel [] rest
    | _ =>
      match moment? cs with
      | some (m, rest) => some (.moment m, rest)
      | none => (string? cs).map fun (s, rest) => (.string s, rest)

/-- Reads the items of a list and its end. A comma may follow the last one. -/
def items : Nat → List Value → List Char → Option (Value × List Char)
  | 0, _, _ => none
  | fuel + 1, done, cs =>
    match skipLines cs.length cs with
    | ']' :: rest => some (.array done.reverse, rest)
    | rest =>
      match value fuel rest with
      | none => none
      | some (v, rest) =>
        match skipLines rest.length rest with
        | ',' :: rest => items fuel (v :: done) rest
        | ']' :: rest => some (.array (v :: done).reverse, rest)
        | _ => none

/-- Reads the members of a table on one line and its end. -/
def members : Nat → List (String × Node) → List Char → Option (Value × List Char)
  | 0, _, _ => none
  | fuel + 1, done, cs =>
    match key? (cs.length + 1) (skipSpace cs) with
    | none => none
    | some (path, rest) =>
      match skipSpace rest with
      | '=' :: rest =>
        match value fuel (skipSpace rest) with
        | none => none
        | some (v, rest) =>
          match set? v path done with
          | none => none
          | some done =>
            match skipSpace rest with
            | ',' :: rest => members fuel done rest
            | '}' :: rest => some (.table (membersToValues done), rest)
            | _ => none
      | _ => none

end

/-! ### Documents -/

/-- Reads the line that a header or a setting stands on, given the text after its blanks. -/
def statement? (cs : List Char) : Option (Statement × List Char) :=
  let fuel := cs.length + 1
  match cs with
  | '[' :: rest => do
    let (path, rest) ← key? fuel (skipSpace rest)
    match skipSpace rest with
    | ']' :: rest => (lineEnd? rest).map (Statement.header path, ·)
    | _ => none
  | _ => do
    let (path, rest) ← key? fuel cs
    match skipSpace rest with
    | '=' :: rest =>
      let (v, rest) ← value (2 * fuel) (skipSpace rest)
      (lineEnd? rest).map (Statement.setting path v, ·)
    | _ => none

/-- Reads the lines of a document. -/
def statements? : Nat → List Char → Option (List Statement)
  | 0, _ => none
  | fuel + 1, cs =>
    match skipLines cs.length cs with
    | [] => some []
    | rest =>
      match statement? rest with
      | none => none
      | some (line, rest) => (statements? fuel rest).map (line :: ·)

end Precompile.Toml.Reader

namespace Precompile.Toml

/-- The table that a text describes. A mark of the byte order may stand in front. -/
def parse? (text : String) : Option (List (String × Value)) :=
  let cs := match text.toList with
    | '\ufeff' :: rest => rest
    | cs => cs
  (Reader.statements? (cs.length + 1) cs).bind assemble?

end Precompile.Toml
