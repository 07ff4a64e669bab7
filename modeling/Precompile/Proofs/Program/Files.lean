import Precompile.Program.Basic
import Precompile.Proofs.OrderedMap

/-!
The files of a program, as a list and by path.
-/

namespace Precompile.Program

variable {P : Program}

theorem mem_sources_of_file? {p : Path} {f : SourceFile} (hf : P.file? p = some f) :
    f ∈ P.sources := by
  unfold file? at hf
  obtain ⟨e, he, rfl⟩ := Option.map_eq_some_iff.mp hf
  exact List.mem_map.mpr ⟨e, (OrderedMap.find?_eq_some_iff.mp he).1, rfl⟩

theorem path_mem_paths {f : SourceFile} (hf : f ∈ P.sources) : f.path ∈ P.paths := by
  obtain ⟨e, he, rfl⟩ := List.mem_map.mp hf
  exact OrderedMap.mem_keys.mpr ⟨e.2, he⟩

theorem contains_of_mem_paths {p : Path} (hp : p ∈ P.paths) : P.contains p = true := by
  obtain ⟨e, he, rfl⟩ := List.mem_map.mp hp
  exact OrderedMap.contains_of_mem he

theorem file?_of_mem_sources {f : SourceFile} (hf : f ∈ P.sources) : P.file? f.path = some f := by
  obtain ⟨e, he, rfl⟩ := List.mem_map.mp hf
  unfold file?
  rw [OrderedMap.find?_eq_some_iff.mpr ⟨he, rfl⟩]
  rfl

theorem paths_eq_map (P : Program) : P.paths = P.sources.map SourceFile.path := by
  simp only [paths, OrderedMap.keys, sources, List.map_map]
  rfl

/-- Looked up path by path, the files of a program are those that it lists. -/
theorem filterMap_file?_paths (P : Program) : P.paths.filterMap P.file? = P.sources := by
  rw [paths_eq_map, List.filterMap_map]
  exact (List.filterMap_congr fun _ hf => file?_of_mem_sources hf).trans List.filterMap_some

/-- No two paths of a program are spellings of one path. -/
theorem paths_apart (P : Program) : P.paths.Pairwise fun p q => ¬ p.Same q := by
  refine List.pairwise_map.mpr (P.files.sorted.imp ?_)
  intro a b before (same : a.1.components = b.1.components)
  rw [same] at before
  exact StrictLinear.irrefl _ before

end Precompile.Program
