import Precompile.Files.Disk

/-!
File systems: files in memory, or the image of a disk.
-/

namespace Precompile

/-- Where files come from. -/
inductive FileSystem where
  | memory (files : MemoryFiles)
  | disk (image : Disk)
  deriving Inhabited

namespace FileSystem

def read : FileSystem → Path → Except ReadError String
  | memory m, p => m.read p
  | disk d, p => d.read p

def isFile : FileSystem → Path → Bool
  | memory m, p => m.isFile p
  | disk d, p => d.isFile p

def isDir : FileSystem → Path → Bool
  | memory m, p => m.isDir p
  | disk d, p => d.isDir p

def list : FileSystem → Path → Except ReadError (List Path)
  | memory m, p => m.list p
  | disk d, p => d.list p

/-- A bound for the number of files and directories. -/
def extent : FileSystem → Nat
  | memory m => m.extent
  | disk d => d.extent

end FileSystem

end Precompile
