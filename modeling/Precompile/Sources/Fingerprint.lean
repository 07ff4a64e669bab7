import Precompile.Files.Basic

/-!
Snapshots of files, and what changed between two of them.

A fingerprint stands for a text: two fingerprints are equal exactly when the texts are.
-/

namespace Precompile

/-- What stands for a text when texts are compared. -/
structure Fingerprint where
  ofText ::
  text : String
  deriving DecidableEq, Repr, Inhabited

/-- The number of hexadecimal digits by which a fingerprint is displayed. -/
def Fingerprint.displayLength : Nat := 32

/-- The fingerprints of the files that could be read. -/
abbrev Snapshot := PathMap Fingerprint

/-- What became of the files between two snapshots, each list in order. -/
structure ChangeSet where
  created : List Path
  modified : List Path
  deleted : List Path
  unchanged : List Path
  deriving DecidableEq, Repr, Inhabited

namespace ChangeSet

def isEmpty (c : ChangeSet) : Bool := c.created.isEmpty && c.modified.isEmpty && c.deleted.isEmpty

def dirty (c : ChangeSet) : List Path := Path.sortDedup (c.created ++ c.modified ++ c.deleted)

end ChangeSet

namespace Snapshot

/-- The snapshot of the listed files. Those that cannot be read are left out. -/
def capture (files : FileSystem) (ps : List Path) : Snapshot :=
  ps.foldl (fun (s : Snapshot) p => match files.read p with
    | .ok content => s.insert p (.ofText content)
    | .error _ => s) .empty

/-- What changed from the older snapshot to the newer one. -/
def diff (older newer : Snapshot) : ChangeSet where
  created := newer.keys.filter fun p => !older.contains p
  modified := (newer.filter fun p f => match older.get? p with
    | some g => g ≠ f
    | none => false).keys
  deleted := older.keys.filter fun p => !newer.contains p
  unchanged := (newer.filter fun p f => older.get? p = some f).keys

end Snapshot

end Precompile
