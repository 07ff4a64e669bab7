import Precompile.Json.Basic

/-!
Reading JSON text.

The grammar is the standard one. Containers may be nested up to 127 deep, numbers have to lie in
the range of doubles, and the last of several members of one name counts.
-/

namespace Precompile.Json.Reader

/-- What is left of a text after its leading white space. -/
def skipBlank : List Char → List Char :=
  List.dropWhile fun c => c = ' ' || c = '\n' || c = '\t' || c = '\r'

/-! ### Numbers -/

def digitValue (c : Char) : Nat := c.toNat - '0'.toNat

def digits (cs : List Char) : List Char × List Char := cs.span Char.isDigit

/-- The greatest significand that is kept exactly. -/
def maxSignificand : Nat := Nat.pow 2 64 - 1

/-- Adds digits to a significand while it stays exact. Gives the significand and the number of
digits taken. -/
def extend : Nat → Nat → List Char → Nat × Nat
  | significand, taken, [] => (significand, taken)
  | significand, taken, d :: ds =>
    let next := significand * 10 + digitValue d
    if next ≤ maxSignificand then extend next (taken + 1) ds else (significand, taken)

def exponentOf (ds : List Char) : Nat := ds.foldl (fun n d => n * 10 + digitValue d) 0

/-- The greatest exponent that is told apart from an unbounded one. -/
def maxExponent : Nat := Nat.pow 2 31 - 1

/-- A number with a fraction or an exponent, or one that is too large to stay whole. Digits past
the exact significand count for their place only, and in the fraction not at all. -/
def real? (negative : Bool) (whole fraction : List Char) (exponent : Option (Bool × List Char)) :
    Option Number :=
  let (significand, taken) := extend 0 0 whole
  let dropped := whole.length - taken
  let (significand, places) := extend significand 0 fraction
  let start : Int := (dropped : Int) - places
  let value := match exponent with
    | none => Binary64.ofDecimal? significand start
    | some (down, ds) =>
      let e := exponentOf ds
      if maxExponent < e then
        if significand = 0 ∨ down then some (Binary64.zero false) else none
      else Binary64.ofDecimal? significand (if down then start - e else start + e)
  value.map fun x => .real (x.withSign negative)

/-- A number without fraction or exponent: whole if 64 bits hold it. A negative zero is a
double. -/
def whole? (negative : Bool) (ds : List Char) : Option Number :=
  let n := exponentOf ds
  if negative then
    if 0 < n ∧ n ≤ Nat.pow 2 63 then some (.whole (-(n : Int)))
    else if n ≤ maxSignificand then (Binary64.ofNat? n).map fun x => .real (x.withSign true)
    else real? true ds [] none
  else if n ≤ maxSignificand then some (.whole n) else real? false ds [] none

/-- Reads the part of a number after the sign. -/
def number? (negative : Bool) (cs : List Char) : Option (Number × List Char) :=
  let (ds, rest) := digits cs
  if ds = [] ∨ (ds.head? = some '0' ∧ 1 < ds.length) then none
  else
    let fraction? : Option (Option (List Char) × List Char) := match rest with
      | '.' :: rest =>
        let (fs, rest) := digits rest
        if fs = [] then none else some (some fs, rest)
      | _ => some (none, rest)
    fraction?.bind fun (fraction, rest) =>
      let afterMark? := match rest with
        | 'e' :: rest => some rest
        | 'E' :: rest => some rest
        | _ => none
      let exponent? : Option (Option (Bool × List Char) × List Char) := match afterMark? with
        | none => some (none, rest)
        | some rest =>
          let (down, rest) := match rest with
            | '+' :: rest => (false, rest)
            | '-' :: rest => (true, rest)
            | _ => (false, rest)
          let (es, rest) := digits rest
          if es = [] then none else some (some (down, es), rest)
      exponent?.bind fun (exponent, rest) =>
        match fraction, exponent with
        | none, none => (whole? negative ds).map (·, rest)
        | _, _ => (real? negative ds (fraction.getD []) exponent).map (·, rest)

/-! ### Strings -/

/-- The value of a hexadecimal digit. -/
def hexValue? (c : Char) : Option Nat :=
  if c.isDigit then some (c.toNat - '0'.toNat)
  else if 'a' ≤ c ∧ c ≤ 'f' then some (c.toNat - 'a'.toNat + 10)
  else if 'A' ≤ c ∧ c ≤ 'F' then some (c.toNat - 'A'.toNat + 10)
  else none

/-- The 16-bit unit that four hexadecimal digits stand for. -/
def unit? (a b c d : Char) : Option Nat := do
  return (((← hexValue? a) * 16 + (← hexValue? b)) * 16 + (← hexValue? c)) * 16 + (← hexValue? d)

/-- The character that stands for itself or another one after a backslash. -/
def escape? : Char → Option Char
  | '"' => some '"'
  | '\\' => some '\\'
  | '/' => some '/'
  | 'b' => some '\x08'
  | 'f' => some '\x0c'
  | 'n' => some '\n'
  | 'r' => some '\r'
  | 't' => some '\t'
  | _ => none

def isHighUnit (n : Nat) : Bool := 0xD800 ≤ n && n < 0xDC00

def isLowUnit (n : Nat) : Bool := 0xDC00 ≤ n && n < 0xE000

/-- Reads the rest of a string after its opening quote. The characters read so far are in
`done`, the last one first. -/
def stringBody (done : List Char) : List Char → Option (String × List Char)
  | '"' :: rest => some (String.ofList done.reverse, rest)
  | '\\' :: 'u' :: a :: b :: c :: d :: '\\' :: 'u' :: e :: f :: g :: h :: rest =>
    match unit? a b c d with
    | none => none
    | some high =>
      if isHighUnit high then
        match unit? e f g h with
        | some low =>
          if isLowUnit low then
            stringBody (Char.ofNat (0x10000 + (high - 0xD800) * 0x400 + (low - 0xDC00)) :: done) rest
          else none
        | none => none
      else if isLowUnit high then none
      else stringBody (Char.ofNat high :: done) ('\\' :: 'u' :: e :: f :: g :: h :: rest)
  | '\\' :: 'u' :: a :: b :: c :: d :: rest =>
    match unit? a b c d with
    | none => none
    | some n => if isHighUnit n || isLowUnit n then none else stringBody (Char.ofNat n :: done) rest
  | '\\' :: c :: rest =>
    match escape? c with
    | none => none
    | some c => stringBody (c :: done) rest
  | c :: rest => if c.toNat < 0x20 ∨ c = '\\' then none else stringBody (c :: done) rest
  | [] => none
termination_by cs => cs.length

/-! ### Values -/

def maxDepth : Nat := 127

mutual

/-- Reads one value. The second argument bounds the number of steps. -/
def value : Nat → Nat → List Char → Option (Json × List Char)
  | _, 0, _ => none
  | depth, fuel + 1, cs =>
    match skipBlank cs with
    | 'n' :: 'u' :: 'l' :: 'l' :: rest => some (.null, rest)
    | 't' :: 'r' :: 'u' :: 'e' :: rest => some (.bool true, rest)
    | 'f' :: 'a' :: 'l' :: 's' :: 'e' :: rest => some (.bool false, rest)
    | '"' :: rest => (stringBody [] rest).map fun (s, rest) => (.string s, rest)
    | '-' :: rest => (number? true rest).map fun (n, rest) => (.number n, rest)
    | '[' :: rest =>
      match depth, skipBlank rest with
      | 0, _ => none
      | _ + 1, ']' :: rest => some (.array [], rest)
      | depth + 1, rest => items depth fuel [] rest
    | '{' :: rest =>
      match depth, skipBlank rest with
      | 0, _ => none
      | _ + 1, '}' :: rest => some (.object [], rest)
      | depth + 1, rest => members depth fuel [] rest
    | rest => (number? false rest).map fun (n, rest) => (.number n, rest)

/-- Reads the items of an array and its end. -/
def items : Nat → Nat → List Json → List Char → Option (Json × List Char)
  | _, 0, _, _ => none
  | depth, fuel + 1, done, cs =>
    match value depth fuel cs with
    | none => none
    | some (item, rest) =>
      match skipBlank rest with
      | ',' :: rest => items depth fuel (item :: done) rest
      | ']' :: rest => some (.array (item :: done).reverse, rest)
      | _ => none

/-- Reads the members of an object and its end. -/
def members : Nat → Nat → List (String × Json) → List Char → Option (Json × List Char)
  | _, 0, _, _ => none
  | depth, fuel + 1, done, cs =>
    match skipBlank cs with
    | '"' :: rest =>
      match stringBody [] rest with
      | none => none
      | some (key, rest) =>
        match skipBlank rest with
        | ':' :: rest =>
          match value depth fuel rest with
          | none => none
          | some (item, rest) =>
            match skipBlank rest with
            | ',' :: rest => members depth fuel ((key, item) :: done) rest
            | '}' :: rest => some (.ofMembers ((key, item) :: done).reverse, rest)
            | _ => none
        | _ => none
    | _ => none

end

end Precompile.Json.Reader

namespace Precompile.Json

/-- The value that a whole text stands for. Each step reads at least one character, or hands on to
one that does, so twice the length of the text bounds their number. -/
def parse? (text : String) : Option Json :=
  let cs := text.toList
  match Reader.value Reader.maxDepth (2 * cs.length + 2) cs with
  | some (v, rest) => if Reader.skipBlank rest = [] then some v else none
  | none => none

end Precompile.Json
