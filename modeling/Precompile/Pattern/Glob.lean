import Precompile.Path.Basic

/-!
Globs: patterns that whole paths match.

A glob may be read from the start of a path or from below a base directory. It is matched from its
last part to its first one, for all rests of the path at once.
-/

namespace Precompile

/-- A part of a glob. -/
inductive GlobPart where
  -- The character itself.
  | literal (c : Char)
  -- One character that is not a slash.
  | single
  -- Any text without a slash.
  | segment
  -- Any text on one line.
  | anything
  -- Nothing, or any text on one line that ends in a slash.
  | directories
  deriving DecidableEq, Repr, Inhabited

namespace GlobPart

/-! ### Matching

What is known of a text is listed for the text and for each of its rests, the longest first. -/

/-- A first character satisfies `p`, and `later` holds of what follows it. -/
def oneThen (p : Char → Bool) : List Char → List Bool → List Bool
  | c :: cs, later => (p c && later.tail.headD false) :: oneThen p cs later.tail
  | [], _ => [false]

/-- After some first characters that satisfy `p`, or none, `later` holds of what follows. -/
def someThen (p : Char → Bool) : List Char → List Bool → List Bool
  | c :: cs, later =>
    let rest := someThen p cs later.tail
    (later.headD false || (p c && rest.headD false)) :: rest
  | [], later => [later.headD false]

/-- The part matches the beginning, and `later` holds of what follows. -/
def andThen (text : List Char) (part : GlobPart) (later : List Bool) : List Bool :=
  match part with
  | literal c => oneThen (· == c) text later
  | single => oneThen (· != '/') text later
  | segment => someThen (· != '/') text later
  | anything => someThen (· != '\n') text later
  | directories =>
    List.zipWith (· || ·) later (someThen (· != '\n') text (oneThen (· == '/') text later))

def nothing (text : List Char) : List Bool := text.map (fun _ => false) ++ [true]

/-- The parts, one after the other, match the whole text. As long as they stand for one character
each, they are compared right away. -/
def allMatch : List GlobPart → List Char → Bool
  | literal c :: parts, d :: text => d == c && allMatch parts text
  | single :: parts, d :: text => d != '/' && allMatch parts text
  | parts, text => (parts.foldr (andThen text) (nothing text)).headD false

/-! ### Regular expressions -/

/-- The characters that regular expressions give a meaning. -/
def regexSpecials : List Char := "\\.+*?()|[]\x7b\x7d^$#&-~".toList

/-- A character as a regular expression that matches it alone. -/
def escapeRegex (c : Char) : List Char := if c ∈ regexSpecials then ['\\', c] else [c]

/-- The part as a regular expression. -/
def regex : GlobPart → List Char
  | literal c => escapeRegex c
  | single => "[^/]".toList
  | segment => "[^/]*".toList
  | anything => ".*".toList
  | directories => "(?:.*/)?".toList

end GlobPart

/-- A glob, and the base directory that may stand in front of what it matches. -/
structure Glob where
  base : Option (List Char)
  parts : List GlobPart
  deriving DecidableEq, Repr, Inhabited

namespace Glob

def forwardSlashes (cs : List Char) : List Char := cs.map fun c => if c = '\\' then '/' else c

def trimHere : List Char → List Char
  | '.' :: '/' :: rest => trimHere rest
  | cs => cs

def trimSlashes (cs : List Char) : List Char := (cs.reverse.dropWhile (· == '/')).reverse

/-- The parts of a pattern, read from left to right. -/
def readParts : List Char → List GlobPart
  | '*' :: '*' :: '/' :: rest => .directories :: readParts rest
  | '*' :: '*' :: rest => .anything :: readParts rest
  | '*' :: rest => .segment :: readParts rest
  | '?' :: rest => .single :: readParts rest
  | c :: rest => .literal c :: readParts rest
  | [] => []

def parse (pattern : String) (base : Option Path) : Glob where
  base := base.map fun b => trimSlashes (forwardSlashes b.text.toList)
  parts := readParts (trimHere (forwardSlashes pattern.toList))

/-- The glob as a regular expression that matches whole texts. -/
def regex (g : Glob) : String :=
  let start := match g.base with
    | some b => "(?:".toList ++ b.flatMap GlobPart.escapeRegex ++ "/)?".toList
    | none => []
  String.ofList ('^' :: start ++ g.parts.flatMap GlobPart.regex ++ ['$'])

/-- What is left of a text that begins with another one. -/
def stripStart? : List Char → List Char → Option (List Char)
  | [], cs => some cs
  | _ :: _, [] => none
  | b :: bs, c :: cs => if b = c then stripStart? bs cs else none

/-- The texts that the parts may be matched with: the whole text, and what is left of it below the
base. -/
def starts (g : Glob) (text : List Char) : List (List Char) :=
  text :: (g.base.bind fun b => stripStart? (b ++ ['/']) text).toList

def matchesPath (g : Glob) (p : Path) : Bool :=
  (g.starts (forwardSlashes p.text.toList)).any (GlobPart.allMatch g.parts)

def someMatches (gs : List Glob) (p : Path) : Bool := gs.any fun g => g.matchesPath p

end Glob

end Precompile
