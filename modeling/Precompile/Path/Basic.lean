/-!
Paths of a slash-separated file system.

A path is kept as it was written. What it means is its list of components: doubled and trailing
slashes and every `.` but a leading one carry no meaning. Equality, order and the prefix relation
of paths are those of their components; joining and cutting keep the writing of what they keep.
-/

namespace Precompile

/-- One step of a path: the root, a leading `.`, the climb `..`, or a name. -/
inductive Component where
  | root
  | here
  | up
  | name (text : String)
  deriving DecidableEq, Repr, Inhabited

namespace Component

/-- The text by which a component is written. -/
def text : Component → String
  | root => "/"
  | here => "."
  | up => ".."
  | name s => s

/-- Components of different kinds are ordered root, `.`, `..`, names. -/
def rank : Component → Nat
  | root => 0
  | here => 1
  | up => 2
  | name _ => 3

/-- Names are ordered among themselves by their text. -/
def label : Component → String
  | name s => s
  | _ => ""

/-- The order of components: by kind, and names by their text. -/
instance : LT Component where
  lt a b := a.rank < b.rank ∨ (a.rank = b.rank ∧ a.label < b.label)

instance (a b : Component) : Decidable (a < b) :=
  inferInstanceAs (Decidable (a.rank < b.rank ∨ (a.rank = b.rank ∧ a.label < b.label)))

end Component

/-- A path as it is written. -/
structure Path where
  text : String
  deriving DecidableEq, Repr, Inhabited

namespace Path

instance : ToString Path := ⟨Path.text⟩

/-! ### Pieces of the text -/

/-- The parts of a text between its slashes; there is always at least one. -/
def splitSlash : List Char → List (List Char)
  | [] => [[]]
  | c :: cs =>
    if c = '/' then [] :: splitSlash cs
    else match splitSlash cs with
      | [] => [[c]]
      | piece :: pieces => (c :: piece) :: pieces

/-- The text that has the given parts between its slashes. -/
def joinSlash : List (List Char) → List Char
  | [] => []
  | [piece] => piece
  | piece :: pieces => piece ++ '/' :: joinSlash pieces

/-- A part that carries no meaning, unless it is a leading `.`. -/
def isBlank (piece : List Char) : Bool :=
  piece = [] || piece = ['.']

/-- The component that a part stands for. -/
def componentOf (piece : List Char) : Option Component :=
  if isBlank piece then none
  else if piece = ['.', '.'] then some .up
  else some (.name (String.ofList piece))

/-- How a path begins: at the root, with a `.`, or with neither. -/
inductive Lead where
  | root
  | here
  | plain
  deriving DecidableEq, Repr, Inhabited

/-- The component that a beginning stands for. -/
def Lead.component? : Lead → Option Component
  | .root => some .root
  | .here => some .here
  | .plain => none

/-- Splits a text into its beginning and the parts that follow. -/
def cut (text : List Char) : Lead × List (List Char) :=
  match text with
  | '/' :: body => (.root, splitSlash body)
  | _ =>
    match splitSlash text with
    | ['.'] :: pieces => (.here, pieces)
    | pieces => (.plain, pieces)

/-- Writes a path from its beginning and the parts that follow. -/
def ofPieces (lead : Lead) (pieces : List (List Char)) : Path :=
  ⟨String.ofList <| match lead with
    | .root => '/' :: joinSlash pieces
    | .here => joinSlash (['.'] :: pieces)
    | .plain => joinSlash pieces⟩

def lead (p : Path) : Lead := (cut p.text.toList).1

/-- The parts of the path after its beginning, blank ones included. -/
def pieces (p : Path) : List (List Char) := (cut p.text.toList).2

def trimEnd (pieces : List (List Char)) : List (List Char) :=
  (pieces.reverse.dropWhile isBlank).reverse

/-! ### Components -/

/-- The meaning of a path: its components in order. -/
def components (p : Path) : List Component :=
  let parts := cut p.text.toList
  parts.1.component?.toList ++ parts.2.filterMap componentOf

def isAbsolute (p : Path) : Bool := p.lead = .root

/-- Two paths are the same when their components are. -/
def Same (p q : Path) : Prop := p.components = q.components

instance (p q : Path) : Decidable (p.Same q) :=
  inferInstanceAs (Decidable (p.components = q.components))

/-- Paths are ordered by their components, so a directory comes before what it holds. -/
instance : LT Path where
  lt p q := p.components < q.components

instance (p q : Path) : Decidable (p < q) :=
  inferInstanceAs (Decidable (p.components < q.components))

def startsWith (p base : Path) : Bool :=
  base.components.isPrefixOf p.components

/-! ### Joining and cutting -/

/-- `q` seen from the directory `p`. An absolute `q` stands for itself. -/
def join (p q : Path) : Path :=
  if q.isAbsolute then q
  else if p.text = "" || p.text.endsWith "/" then ⟨p.text ++ q.text⟩
  else ⟨p.text ++ "/" ++ q.text⟩

/-- Joins the components one after the other; one that is the root starts afresh. -/
def ofComponents (cs : List Component) : Path :=
  cs.foldl (fun p c => p.join ⟨c.text⟩) ⟨""⟩

/-- The path without its last component; the root and the empty path have none. -/
def parent? (p : Path) : Option Path :=
  match trimEnd p.pieces with
  | [] => if p.lead = .here then some ⟨""⟩ else none
  | kept => some (ofPieces p.lead (trimEnd kept.dropLast))

/-- Drops blank parts, and then `n` times a part with the blank ones that follow it. -/
def dropPieces : Nat → List (List Char) → List (List Char)
  | 0, pieces => pieces.dropWhile isBlank
  | n + 1, pieces => dropPieces n ((pieces.dropWhile isBlank).drop 1)

/-- What is left of `p` below `base`, as it is written, if `p` starts with `base`. -/
def stripPrefix? (p base : Path) : Option Path :=
  if p.startsWith base then
    match base.components.length with
    | 0 => some (ofPieces p.lead (trimEnd p.pieces))
    | n + 1 =>
      let below := if p.lead = .plain then n + 1 else n
      some (ofPieces .plain (trimEnd (dropPieces below p.pieces)))
  else none

/-- The name at the end of the path, unless it ends at the root or with a climb. -/
def fileName? (p : Path) : Option String :=
  match p.components.getLast? with
  | some (.name s) => some s
  | _ => none

end Path

end Precompile
