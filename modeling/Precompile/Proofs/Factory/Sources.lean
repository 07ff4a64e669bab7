import Precompile.Proofs.Factory.Output

/-!
The sources that factories are generated for.

What they are depends on the files and the written texts alone (`factorySources_eq`). Factories
that were left over by an earlier generation are further files below the directory of generated
files: they can only lead to more sources (`factorySources_subset`).
-/

namespace Precompile.Factory

open Precompile.Route (Faithful Visits)

/-- The sources that a build over a host generates factories for: those with decorated classes among
all that routes and imports lead to from the inputs of its program. -/
def factorySources (o : BuildOptions) (h : Host) : List SourceFile :=
  match (Scanning.createProgram o.roots o.compiler none h).1 with
  | .ok P => (reachedFiles o P h).filter (getsFactory o)
  | .error _ => []

variable {o : BuildOptions} {h : Host} {P : Program} {f : SourceFile}

/-! ### What is reached -/

theorem mem_reachedFiles (faithful : Faithful P h) (settled : ∀ p ∈ P.paths, p.IsSettled) :
    f ∈ reachedFiles o P h ↔ Visits h (P.paths.filter (isInput o)) f :=
  Route.mem_reach_iff faithful fun p hp => settled p (List.mem_of_mem_filter hp)

theorem isSettled_of_mem_paths {roots : List Path} {options : CompilerOptions}
    {previous : Option Program} (hP : (Scanning.createProgram roots options previous h).1 = .ok P) :
    ∀ p ∈ P.paths, p.IsSettled :=
  fun _ hp => ((Scanning.mem_paths_iff hP).mp hp).1.isNormal.isSettled

/-- What is reached from the program of a host does not depend on what was retained. -/
theorem mem_reachedFiles_unread (sound : h.cache.Sound [])
    (hP : (Scanning.createProgram o.roots o.compiler none h.unread).1 = .ok P) :
    f ∈ reachedFiles o P h ↔ Visits h.unread (P.paths.filter (isInput o)) f := by
  have faithful : Faithful P h := fun p f hf =>
    (Host.source_unread sound p).symm.trans (Scanning.source_of_file? hP hf)
  rw [mem_reachedFiles faithful (isSettled_of_mem_paths hP), Route.visits_unread sound]

/-- The sources are those that are reached from the program of the files and written texts. -/
theorem factorySources_eq (sound : h.cache.Sound [])
    (hP : (Scanning.createProgram o.roots o.compiler none h.unread).1 = .ok P) :
    factorySources o h = (reachedFiles o P h).filter (getsFactory o) := by
  unfold factorySources
  rw [Scanning.createProgram_unread sound, hP]

/-- What was retained has no say in which sources get a factory. -/
theorem mem_factorySources_congr {g : Host} (sound : h.cache.Sound []) (sound' : g.cache.Sound [])
    (same : h.unread = g.unread) : f ∈ factorySources o h ↔ f ∈ factorySources o g := by
  cases hP : (Scanning.createProgram o.roots o.compiler none h.unread).1 with
  | error e =>
    unfold factorySources
    rw [Scanning.createProgram_unread sound, Scanning.createProgram_unread sound', ← same, hP]
  | ok P =>
    rw [factorySources_eq sound hP, factorySources_eq sound' (same ▸ hP), List.mem_filter,
      List.mem_filter, mem_reachedFiles_unread sound hP, mem_reachedFiles_unread sound' (same ▸ hP),
      same]

/-- A source is what the host has at its normal path, and an input with decorated classes. -/
theorem source_of_mem (hf : f ∈ factorySources o h) :
    f.path.IsNormal ∧ h.source f.path = .ok (some f) ∧ getsFactory o f = true := by
  unfold factorySources at hf
  cases hP : (Scanning.createProgram o.roots o.compiler none h).1 with
  | error e =>
    rw [hP] at hf
    cases hf
  | ok P =>
    rw [hP] at hf
    obtain ⟨hreached, hgets⟩ := List.mem_filter.mp hf
    obtain ⟨p, -, hsource⟩ :=
      (mem_reachedFiles (Route.faithful_of_createProgram hP) (isSettled_of_mem_paths hP)).mp hreached
    obtain ⟨hpath, hserve⟩ := Host.source_eq_some_iff.mp hsource
    have normal : f.path.IsNormal := by
      rw [hpath]
      exact Path.isNormal_normalize p
    have hnormal : f.path.normalize = f.path := normal
    refine ⟨normal, Host.source_eq_some_iff.mpr ⟨hnormal.symm, ?_⟩, hgets⟩
    simpa only [hpath, SourceCache.serve, Path.normalize_normalize] using hserve

/-! ### Their places -/

theorem covers_of_mem (hf : f ∈ factorySources o h) (below : o.basePath.Below f.path) :
    Covers (planOf o) f.path := by
  obtain ⟨normal, -, hgets⟩ := source_of_mem hf
  simp only [getsFactory, isInput, Bool.and_eq_true, Bool.not_eq_true'] at hgets
  exact ⟨normal, below, hgets.1.1.1, hgets.1.1.2⟩

/-- Sources below the base path have their factories at different places. -/
theorem eq_of_placeOf_same (hbase : o.basePath.isAbsolute = true) {g : SourceFile}
    (hf : f ∈ factorySources o h) (hg : g ∈ factorySources o h) (belowf : o.basePath.Below f.path)
    (belowg : o.basePath.Below g.path) (same : (placeOf o f).Same (placeOf o g)) : f = g := by
  have hplan : (planOf o).base.isAbsolute = true := hbase
  have hpath : f.path = g.path :=
    factoryPath_injective hplan (covers_of_mem hf belowf) (covers_of_mem hg belowg) same
  have hsource := (source_of_mem hf).2.1
  rw [hpath, (source_of_mem hg).2.1] at hsource
  exact (Option.some.inj (Except.ok.inj hsource)).symm

/-- The file system has nothing below the directory of generated files, and all sources that get a
factory lie below the base path. -/
structure Orderly (o : BuildOptions) (h : Host) : Prop where
  absolute : o.basePath.isAbsolute = true
  normal : o.genDir.IsNormal
  vacant : ∀ p : Path, p.IsNormal → o.genDir.Below p → h.cache.files.read p = .error (.notFound p)
  below : ∀ f ∈ factorySources o h, o.basePath.Below f.path

/-- An orderly host that serves what is there. -/
structure Prepared (o : BuildOptions) (h : Host) : Prop extends Tidy o.genDir h, Orderly o h

theorem Orderly.below_placeOf (orderly : Orderly o h) (hf : f ∈ factorySources o h) :
    o.genDir.Below (placeOf o f) := by
  have hplan : (planOf o).base.isAbsolute = true := orderly.absolute
  exact below_factoryPath hplan orderly.normal (covers_of_mem hf (orderly.below f hf))

/-! ### Generations of a host -/

/-- After reading, the same sources are reached. -/
theorem mem_reachedFiles_retainAll (sound : h.cache.Sound [])
    (hP : (Scanning.createProgram o.roots o.compiler none h.unread).1 = .ok P) (ps : List Path) :
    f ∈ (reachedFiles o P (h.retainAll ps)).filter (getsFactory o) ↔ f ∈ factorySources o h := by
  have hunread := h.unread_retainAll ps
  rw [factorySources_eq sound hP, List.mem_filter, List.mem_filter,
    mem_reachedFiles_unread (sound.retainAll ps) (hunread ▸ hP), mem_reachedFiles_unread sound hP,
    hunread]

variable {loader : ResourceLoader}

/-- Where all that its sources name can be loaded, a host can be generated for. -/
theorem exists_generate (prepared : Prepared o h)
    (hP : (Scanning.createProgram o.roots o.compiler none h.unread).1 = .ok P)
    (messages : loadMessages o loader h = .ok ())
    (loads : ∀ f ∈ factorySources o h, Loads o loader h.cache.files f) (ps : List Path) :
    ∃ after, generate o loader P (h.retainAll ps) = (.ok (), after) ∧
      Generated o (factorySources o h) h after := by
  have hmem := fun f => mem_reachedFiles_retainAll (f := f) prepared.sound hP ps
  have hfiles : (h.retainAll ps).cache.files = h.cache.files := (h.uses_retainAll ps).files_eq
  have hunread : (h.retainAll ps).cache.unread = h.cache.unread :=
    SourceCache.unread_retainAll h.cache ps
  -- what a generation asks for, after some files were read
  have apart : ∀ f ∈ (reachedFiles o P (h.retainAll ps)).filter (getsFactory o),
      ∀ g ∈ (reachedFiles o P (h.retainAll ps)).filter (getsFactory o),
        (placeOf o f).Same (placeOf o g) → factoryOf o f = factoryOf o g := by
    intro f hf g hg same
    have hf := (hmem f).mp hf
    have hg := (hmem g).mp hg
    have hfg : f = g :=
      eq_of_placeOf_same prepared.absolute hf hg (prepared.below f hf) (prepared.below g hg) same
    rw [hfg]
  have messages' : loadMessages o loader (h.retainAll ps) = .ok () := by
    rw [loadMessages, hfiles]
    exact messages
  have loads' : ∀ f ∈ reachedFiles o P (h.retainAll ps),
      Loads o loader (h.retainAll ps).cache.files f := by
    intro f hf hgets
    rw [hfiles]
    exact loads f ((hmem f).mp (List.mem_filter.mpr ⟨hf, hgets⟩)) hgets
  obtain ⟨after, hgenerate, generated⟩ :=
    generate_tidy loader (prepared.toTidy.retainAll ps) prepared.normal
      (fun f hf => prepared.below_placeOf ((hmem f).mp hf)) apart messages' loads'
  refine ⟨after, hgenerate, generated.tidy, ?_, ?_, ?_⟩
  · exact fun f hf => generated.placed f ((hmem f).mpr hf)
  · exact fun q hq hnone => generated.retired q hq fun f hf => hnone f ((hmem f).mp hf)
  · intro q hq
    rw [generated.kept q hq, hunread]

/-- A generation that succeeds could load all that the sources name, and leaves their factories. -/
theorem generated_of_generate (prepared : Prepared o h)
    (hP : (Scanning.createProgram o.roots o.compiler none h.unread).1 = .ok P) {ps : List Path}
    {after : Host} (hgenerate : generate o loader P (h.retainAll ps) = (.ok (), after)) :
    loadMessages o loader h = .ok () ∧
      (∀ f ∈ factorySources o h, Loads o loader h.cache.files f) ∧
      Generated o (factorySources o h) h after := by
  have hfiles : (h.retainAll ps).cache.files = h.cache.files := (h.uses_retainAll ps).files_eq
  obtain ⟨messages, loads⟩ := loads_of_generate hgenerate
  rw [loadMessages, hfiles] at messages
  rw [hfiles] at loads
  have hloads : ∀ f ∈ factorySources o h, Loads o loader h.cache.files f := by
    intro f hf
    have hreached := (mem_reachedFiles_retainAll prepared.sound hP ps).mpr hf
    exact loads f (List.mem_of_mem_filter hreached)
  obtain ⟨after', hgenerate', generated⟩ := exists_generate prepared hP messages hloads ps
  rw [hgenerate] at hgenerate'
  cases hgenerate'
  exact ⟨messages, hloads, generated⟩

/-! ### Left-over factories -/

/-- Written files below a directory with nothing else in it extend what is there without them. -/
theorem extendsBelow_ofFiles {dir base : Path} (tidy : Tidy dir h) (hbase : h.base = base.normalize)
    (leftOver : ∀ f ∈ h.cache.writtenFiles, dir.Below f.path) :
    h.ExtendsBelow dir (.ofFiles h.cache.files base) := by
  have unwritten : ∀ p : Path, ¬ dir.Below p.normalize →
      h.cache.unread.entries.get? p.normalize = none := by
    intro p hp
    by_contra hsome
    obtain ⟨f, hf, hsame⟩ :=
      SourceCache.isSome_get?_unread_iff.mp (Option.isSome_iff_ne_none.mpr hsome)
    exact hp ((leftOver f hf).congr hsame)
  constructor
  · exact hbase
  · intro p hp
    rw [← SourceCache.serve_unread tidy.sound p, SourceCache.serve, unwritten p hp]
    rfl
  · intro p hp
    rw [← SourceCache.isFile_unread tidy.sound p, SourceCache.isFile,
      OrderedMap.contains_eq_isSome_get?, unwritten p hp]
    rfl
  · intro p hp
    exact tidy.vacant _ (Path.isNormal_normalize p) hp
  · intro p hp
    exact FileSystem.isFile_of_notFound (tidy.vacant _ (Path.isNormal_normalize p) hp)
  · intro f hf
    cases hf

/-- Where files are missing, no source is found that is not found with them. -/
theorem factorySources_subset {g : Host} (ext : h.Extends g)
    (hP : (Scanning.createProgram o.roots o.compiler none h).1 = .ok P) :
    factorySources o g ⊆ factorySources o h := by
  obtain ⟨Q, hQ, sub⟩ := Scanning.createProgram_mono ext hP
  intro f hf
  unfold factorySources at hf ⊢
  rw [hQ] at hf
  rw [hP]
  obtain ⟨hreached, hgets⟩ := List.mem_filter.mp hf
  rw [mem_reachedFiles (Route.faithful_of_createProgram hQ) (isSettled_of_mem_paths hQ)] at hreached
  refine List.mem_filter.mpr ⟨?_, hgets⟩
  rw [mem_reachedFiles (Route.faithful_of_createProgram hP) (isSettled_of_mem_paths hP)]
  refine hreached.mono ext.toIncludes fun p hp => ?_
  obtain ⟨hp, hinput⟩ := List.mem_filter.mp hp
  exact List.mem_filter.mpr ⟨sub hp, hinput⟩

end Precompile.Factory
