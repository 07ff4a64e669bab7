/-!
Dates and times in settings.

A moment is a time of day, a date, or both. Both together may have an offset from universal time.
-/

namespace Precompile.Toml

/-- A day of the calendar. -/
structure Date where
  year : Nat
  month : Nat
  day : Nat
  deriving DecidableEq, Repr, Inhabited

/-- A time of day. -/
structure TimeOfDay where
  hour : Nat
  minute : Nat
  second : Nat
  nanosecond : Nat
  deriving DecidableEq, Repr, Inhabited

/-- How far a clock is ahead of universal time. -/
inductive ClockOffset where
  | universal
  | minutes (ahead : Int)
  deriving DecidableEq, Repr, Inhabited

/-- A date, a time of day, or both. -/
inductive Moment where
  | time (t : TimeOfDay)
  | date (d : Date)
  | dateTime (d : Date) (t : TimeOfDay) (offset : Option ClockOffset)
  deriving DecidableEq, Repr, Inhabited

/-! ### The calendar -/

def isLeapYear (year : Nat) : Bool :=
  year % 4 = 0 && (year % 100 ≠ 0 || year % 400 = 0)

/-- The number of days of a month. -/
def daysOfMonth (year month : Nat) : Nat :=
  match month with
  | 2 => if isLeapYear year then 29 else 28
  | 4 | 6 | 9 | 11 => 30
  | _ => 31

/-! ### Writing -/

/-- A number with zeros in front, in at least `width` digits. -/
def paddedDigits (width n : Nat) : List Char :=
  let ds := Nat.toDigits 10 n
  List.replicate (width - ds.length) '0' ++ ds

def Date.text (d : Date) : List Char :=
  paddedDigits 4 d.year ++ '-' :: paddedDigits 2 d.month ++ '-' :: paddedDigits 2 d.day

/-- The decimals of a second, without zeros at their end. -/
def fractionText (nanosecond : Nat) : List Char :=
  if nanosecond = 0 then []
  else '.' :: ((paddedDigits 9 nanosecond).reverse.dropWhile (· == '0')).reverse

def TimeOfDay.text (t : TimeOfDay) : List Char :=
  paddedDigits 2 t.hour ++ ':' :: paddedDigits 2 t.minute ++ ':' :: paddedDigits 2 t.second ++
    fractionText t.nanosecond

/-- The text of an offset. -/
def ClockOffset.text : ClockOffset → List Char
  | universal => ['Z']
  | minutes ahead =>
    (if ahead < 0 then '-' else '+') :: paddedDigits 2 (ahead.natAbs / 60) ++
      ':' :: paddedDigits 2 (ahead.natAbs % 60)

/-- The text of a moment. -/
def Moment.text : Moment → String
  | time t => String.ofList t.text
  | date d => String.ofList d.text
  | dateTime d t offset =>
    String.ofList (d.text ++ 'T' :: t.text ++ (offset.map ClockOffset.text).getD [])

/-! ### Reading -/

def digitsValue (ds : List Char) : Nat :=
  ds.foldl (fun n d => 10 * n + (d.toNat - '0'.toNat)) 0

/-- Reads a number of exactly `width` digits between two bounds. -/
def bounded? (width low high : Nat) (cs : List Char) : Option (Nat × List Char) :=
  let ds := cs.take width
  let n := digitsValue ds
  if ds.length = width ∧ ds.all Char.isDigit ∧ low ≤ n ∧ n ≤ high then some (n, cs.drop width)
  else none

def after? (c : Char) : List Char → Option (List Char)
  | d :: rest => if d = c then some rest else none
  | [] => none

/-- Reads a date. -/
def date? (cs : List Char) : Option (Date × List Char) := do
  let (year, cs) ← bounded? 4 0 9999 cs
  let cs ← after? '-' cs
  let (month, cs) ← bounded? 2 1 12 cs
  let cs ← after? '-' cs
  let (day, cs) ← bounded? 2 1 (daysOfMonth year month) cs
  return (⟨year, month, day⟩, cs)

/-- Reads the decimals of a second, if there are any. Only nine count. -/
def fraction (cs : List Char) : Nat × List Char :=
  match cs with
  | '.' :: rest =>
    let ds := rest.takeWhile Char.isDigit
    if ds = [] then (0, cs)
    else
      let kept := ds.take 9
      (digitsValue (kept ++ List.replicate (9 - kept.length) '0'), rest.dropWhile Char.isDigit)
  | _ => (0, cs)

/-- Reads a time of day. A minute may have a sixty-first second. -/
def timeOfDay? (cs : List Char) : Option (TimeOfDay × List Char) := do
  let (hour, cs) ← bounded? 2 0 23 cs
  let cs ← after? ':' cs
  let (minute, cs) ← bounded? 2 0 59 cs
  let cs ← after? ':' cs
  let (second, cs) ← bounded? 2 0 60 cs
  let (nanosecond, cs) := fraction cs
  return (⟨hour, minute, second, nanosecond⟩, cs)

/-- Reads hours and minutes of an offset. -/
def offsetMinutes? (cs : List Char) : Option (Nat × List Char) := do
  let (hours, cs) ← bounded? 2 0 23 cs
  let cs ← after? ':' cs
  let (minutes, cs) ← bounded? 2 0 59 cs
  return (60 * hours + minutes, cs)

/-- Reads an offset. -/
def clockOffset? : List Char → Option (ClockOffset × List Char)
  | 'Z' :: cs => some (.universal, cs)
  | 'z' :: cs => some (.universal, cs)
  | '+' :: cs => (offsetMinutes? cs).map fun (n, cs) => (.minutes n, cs)
  | '-' :: cs => (offsetMinutes? cs).map fun (n, cs) => (.minutes (-n), cs)
  | _ => none

/-- Reads a time of day after what separates it from a date. -/
def timeAfterDate? : List Char → Option (TimeOfDay × List Char)
  | c :: cs => if c = 'T' ∨ c = 't' ∨ c = ' ' then timeOfDay? cs else none
  | [] => none

/-- Reads a moment. -/
def moment? (cs : List Char) : Option (Moment × List Char) :=
  match date? cs with
  | none => (timeOfDay? cs).map fun (t, cs) => (.time t, cs)
  | some (d, cs) =>
    match timeAfterDate? cs with
    | none => some (.date d, cs)
    | some (t, cs) =>
      match clockOffset? cs with
      | none => some (.dateTime d t none, cs)
      | some (offset, cs) => some (.dateTime d t (some offset), cs)

end Precompile.Toml
