import Precompile.Path.Map

/-!
Files held in memory.

Directories exist as long as a file lies below them. A file can be held back: it is still there, but
it cannot be read.
-/

namespace Precompile

/-- Why a path cannot be read, other than that nothing is there. -/
inductive ReadFault where
  -- The file is held back.
  | heldBack
  -- A part of the path before its end is a file.
  | notDirectory
  -- The path leads to a directory.
  | isDirectory
  -- The bytes of the file are not a text.
  | notText
  -- The path or a name in it is too long for a disk.
  | tooLong
  -- The path has a character with which a disk ends paths.
  | endsEarly
  deriving DecidableEq, Repr, Inhabited

/-- The wording of a fault. -/
def ReadFault.message : ReadFault → String
  | heldBack => "broken"
  | notDirectory => "Not a directory (os error 20)"
  | isDirectory => "Is a directory (os error 21)"
  | notText => "stream did not contain valid UTF-8"
  | tooLong => "File name too long (os error 36)"
  | endsEarly => "file name contained an unexpected NUL byte"

/-- Why reading a path failed. -/
inductive ReadError where
  | notFound (path : Path)
  | fault (path : Path) (fault : ReadFault)
  deriving DecidableEq, Repr, Inhabited

namespace ReadError

def message : ReadError → String
  | notFound p => s!"file not found: {p.text}"
  | fault p f => s!"I/O error reading {p.text}: {f.message}"

def isNotFound : ReadError → Bool
  | notFound _ => true
  | fault _ _ => false

end ReadError

/-- Files under their normal paths, and the paths that are held back. -/
structure MemoryFiles where
  files : PathMap String
  heldBack : PathSet
  deriving Inhabited

namespace MemoryFiles

def empty : MemoryFiles := ⟨.empty, .empty⟩

def insert (m : MemoryFiles) (p : Path) (content : String) : MemoryFiles :=
  { m with files := m.files.insert p.normalize content }

def erase (m : MemoryFiles) (p : Path) : MemoryFiles :=
  { m with files := m.files.erase p.normalize }

/-- Holds a path back. It is compared with the path that is asked for, not with its normal form. -/
def holdBack (m : MemoryFiles) (p : Path) : MemoryFiles :=
  { m with heldBack := OrderedSet.insert m.heldBack p }

def release (m : MemoryFiles) (p : Path) : MemoryFiles := { m with heldBack := m.heldBack.erase p }

/-- The text of a file. -/
def read (m : MemoryFiles) (p : Path) : Except ReadError String :=
  if m.heldBack.contains p then .error (.fault p .heldBack)
  else match m.files.get? p.normalize with
    | some content => .ok content
    | none => .error (.notFound p)

def isFile (m : MemoryFiles) (p : Path) : Bool := m.files.contains p.normalize

/-- The paths strictly below a directory, among the listed ones. -/
def below (dir : Path) (ps : List Path) : List Path :=
  ps.filter fun p => !decide (p.Same dir) && p.startsWith dir

/-- The child of a directory that a path below it lies at or under. -/
def childOf? (dir p : Path) : Option Path :=
  (p.stripPrefix? dir).bind fun rest => rest.components.head?.map fun c => dir.join ⟨c.text⟩

def isDir (m : MemoryFiles) (p : Path) : Bool := !(below p.normalize m.files.keys).isEmpty

/-- The direct children of a directory in order. -/
def list (m : MemoryFiles) (p : Path) : Except ReadError (List Path) :=
  let dir := p.normalize
  if m.isDir dir then .ok (Path.sortDedup (m.files.keys.filterMap (childOf? dir)))
  else .error (.notFound dir)

/-- A bound for the number of files and directories. -/
def extent (m : MemoryFiles) : Nat := Path.totalLength m.files.keys + 1

end MemoryFiles

end Precompile
