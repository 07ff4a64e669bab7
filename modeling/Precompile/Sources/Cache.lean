import Precompile.Files.Basic
import Precompile.Script.File

/-!
The cache of sources between a compiler and a file system.

Files are read through to the file system. Once caching is on, what was read is retained until its
path is invalidated; before that nothing is. Written files are always held, and hide what the file
system has at their paths. The cache knows which paths were written, invalidated or retired since
that was last asked, and its revision moves with each such step.
-/

namespace Precompile

/-- Where a held text comes from. -/
inductive Origin where
  -- It was read from the file system.
  | disk
  -- It was written; `emit` says whether it is output of the build.
  | written (emit : Bool)
  deriving DecidableEq, Repr, Inhabited

/-- A held text. -/
structure CacheEntry where
  content : String
  origin : Origin
  deriving DecidableEq, Repr, Inhabited

namespace CacheEntry

/-- The text was written. -/
def isWritten (e : CacheEntry) : Bool :=
  match e.origin with
  | .disk => false
  | .written _ => true

end CacheEntry

/-- A written file. One that is not output of the build is a module held in memory. -/
structure WrittenFile where
  path : Path
  content : String
  emit : Bool
  deriving DecidableEq, Repr, Inhabited

/-- The state of a cache. Texts are held under normal paths. -/
structure SourceCache where
  files : FileSystem
  entries : PathMap CacheEntry
  changed : PathSet
  caching : Bool
  revision : Nat
  deriving Inhabited

namespace SourceCache

/-- A cache that holds nothing and does not cache yet. -/
def ofFiles (files : FileSystem) : SourceCache := ⟨files, .empty, .empty, false, 0⟩

def enableCaching (c : SourceCache) : SourceCache := { c with caching := true }

/-! ### Reading -/

/-- The text that the cache serves for a path. -/
def serve (c : SourceCache) (p : Path) : Except ReadError String :=
  match c.entries.get? p.normalize with
  | some e => .ok e.content
  | none => c.files.read p.normalize

/-- The cache after a path was read. -/
def retain (c : SourceCache) (p : Path) : SourceCache :=
  if c.caching && !c.entries.contains p.normalize then
    match c.files.read p.normalize with
    | .ok content => { c with entries := c.entries.insert p.normalize ⟨content, .disk⟩ }
    | .error _ => c
  else c

def retainAll (c : SourceCache) (ps : List Path) : SourceCache := ps.foldl retain c

/-- The source file that the cache serves, under its normal path. -/
def source (c : SourceCache) (p : Path) : Except ReadError SourceFile :=
  (c.serve p).map fun content => ⟨p.normalize, content⟩

def isFile (c : SourceCache) (p : Path) : Bool :=
  c.entries.contains p.normalize || c.files.isFile p.normalize

def writtenBelow (c : SourceCache) (dir : Path) : List Path :=
  MemoryFiles.below dir (c.entries.filter fun _ e => e.isWritten).keys

/-- There is a directory: on the file system, or above a written file. -/
def isDir (c : SourceCache) (p : Path) : Bool :=
  c.files.isDir p.normalize || !(c.writtenBelow p.normalize).isEmpty

/-- The direct children of a directory in order: those on the file system and those that lead to
written files. -/
def list (c : SourceCache) (p : Path) : List Path :=
  let dir := p.normalize
  let onDisk := match c.files.list dir with
    | .ok children => children
    | .error _ => []
  Path.sortDedup (onDisk ++ (c.writtenBelow dir).filterMap (MemoryFiles.childOf? dir))

/-- The written files in the order of their paths. -/
def writtenFiles (c : SourceCache) : List WrittenFile :=
  c.entries.entries.filterMap fun (path, e) =>
    match e.origin with
    | .disk => none
    | .written emit => some ⟨path, e.content, emit⟩

/-- A bound for the number of files and directories that the cache serves. -/
def extent (c : SourceCache) : Nat :=
  c.files.extent + Path.totalLength c.entries.keys

/-! ### Changing -/

/-- Notes that what is served for a normal path may have changed. -/
def touch (c : SourceCache) (p : Path) : SourceCache :=
  { c with changed := OrderedSet.insert c.changed p, revision := c.revision + 1 }

def write (c : SourceCache) (p : Path) (content : String) (emit : Bool) : SourceCache :=
  { c with entries := c.entries.insert p.normalize ⟨content, .written emit⟩ }.touch p.normalize

def drop (c : SourceCache) (p : Path) : SourceCache :=
  { c with entries := c.entries.erase p }.touch p

def invalidate (c : SourceCache) (p : Path) : SourceCache := c.drop p.normalize

/-- The written files strictly below a directory that are not to be kept. -/
def stale (c : SourceCache) (dir : Path) (keep : List Path) : List Path :=
  (c.writtenBelow dir.normalize).filter fun p => !p.isAmong keep

/-- Forgets the written files strictly below a directory that are not to be kept. -/
def retire (c : SourceCache) (dir : Path) (keep : List Path) : SourceCache :=
  (c.stale dir keep).foldl drop c

def changedPaths (c : SourceCache) : List Path := c.changed.keys

/-- The path was changed since the changes were last taken away. -/
def isChanged (c : SourceCache) (p : Path) : Bool := c.changed.contains p.normalize

def clearChanged (c : SourceCache) : SourceCache := { c with changed := .empty }

end SourceCache

end Precompile
