import Precompile.Files.Memory

/-!
The image of a disk.

Unlike in memory, directories are there in their own right, a path is followed step by step, so a
`..` only leads back out of a directory that is there, a file need not hold a text, and paths and
their names are bounded in length.
-/

namespace Precompile

/-- What lies at a path. -/
inductive DiskNode where
  | directory
  -- A file and its text, if its bytes are one.
  | file (content : Option String)
  deriving DecidableEq, Repr, Inhabited

/-- The files and directories of a disk under their absolute normal paths. The root is always a
directory. -/
structure Disk where
  nodes : PathMap DiskNode
  deriving Inhabited

namespace Disk

def empty : Disk := ⟨.empty⟩

def rootPath : Path := ⟨"/"⟩

def node? (d : Disk) (p : Path) : Option DiskNode :=
  if p.Same rootPath then some .directory else d.nodes.get? p

def nameLimit : Nat := 255

def pathLimit : Nat := 4095

/-- Follows the components from a directory on. A name is looked at only in a directory that is
there. -/
def follow (d : Disk) (asked : Path) (at_ : Path) : List Component → Except ReadError Path
  | [] => .ok at_
  | c :: cs =>
    match d.node? at_ with
    | none => .error (.notFound asked)
    | some (.file _) => .error (.fault asked .notDirectory)
    | some .directory =>
      match c with
      | .root => d.follow asked rootPath cs
      | .here => d.follow asked at_ cs
      | .up => d.follow asked (at_.parent?.getD at_) cs
      | .name s =>
        if nameLimit < s.utf8ByteSize then .error (.fault asked .tooLong)
        else d.follow asked (at_.join ⟨s⟩) cs

/-- A path that ends in a slash or in `/.` means a directory. -/
def meansDirectory (p : Path) : Bool :=
  match p.pieces.getLast? with
  | some piece => Path.isBlank piece
  | none => true

/-- The place that an absolute path leads to, and what is there. A relative path leads nowhere. -/
def lookup (d : Disk) (p : Path) : Except ReadError (Path × DiskNode) :=
  if p.text.contains '\x00' then .error (.fault p .endsEarly)
  else if pathLimit < p.text.utf8ByteSize then .error (.fault p .tooLong)
  else if p.isAbsolute then
    match d.follow p rootPath p.components with
    | .error e => .error e
    | .ok place =>
      match d.node? place with
      | none => .error (.notFound p)
      | some (.file content) =>
        if meansDirectory p then .error (.fault p .notDirectory) else .ok (place, .file content)
      | some .directory => .ok (place, .directory)
  else .error (.notFound p)

/-- The absolute path that a path means in a working directory. The empty path means nothing. -/
def seenFrom (cwd p : Path) : Path := if p.text = "" then p else cwd.join p

/-- The text of a file. -/
def read (d : Disk) (p : Path) : Except ReadError String :=
  match d.lookup p with
  | .error e => .error e
  | .ok (_, .directory) => .error (.fault p .isDirectory)
  | .ok (_, .file none) => .error (.fault p .notText)
  | .ok (_, .file (some content)) => .ok content

def isThere (d : Disk) (p : Path) : Bool := (d.lookup p).isOk

/-- There is a file. -/
def isFile (d : Disk) (p : Path) : Bool :=
  match d.lookup p with
  | .ok (_, .file _) => true
  | _ => false

/-- There is a directory. -/
def isDir (d : Disk) (p : Path) : Bool :=
  match d.lookup p with
  | .ok (_, .directory) => true
  | _ => false

/-- The direct children of a directory in order, seen from the path that was asked for. -/
def list (d : Disk) (p : Path) : Except ReadError (List Path) :=
  match d.lookup p with
  | .error e => .error e
  | .ok (_, .file _) => .error (.fault p .notDirectory)
  | .ok (place, .directory) =>
    .ok <| d.nodes.keys.filterMap fun q =>
      if q.parent?.any fun dir => decide (dir.Same place) then
        q.fileName?.map fun name => p.join ⟨name⟩
      else none

/-- The directories above an absolute normal path, the root excepted. -/
def ancestors (p : Path) : List Path :=
  (List.range p.components.length).filterMap fun n =>
    if n < 2 then none else some (Path.ofComponents (p.components.take n))

def makeDir (d : Disk) (p : Path) : Disk :=
  if (d.node? p).isSome then d else { d with nodes := d.nodes.insert p .directory }

/-- Writes a file, and creates the directories above it. -/
def write (d : Disk) (p : Path) (content : Option String) : Disk :=
  let p := p.normalize
  let d := (ancestors p).foldl makeDir d
  { d with nodes := d.nodes.insert p (.file content) }

/-- Deletes a file. The directories above it stay. -/
def delete (d : Disk) (p : Path) : Disk := { d with nodes := d.nodes.erase p.normalize }

/-- A bound for the number of files and directories. -/
def extent (d : Disk) : Nat := d.nodes.size + 1

end Disk

end Precompile
