import Precompile.Proofs.Host.Resolution
import Precompile.Proofs.Path.Exploration
import Precompile.Scanning.Reachable

/-!
What programs are made of.

Which program is created depends on nothing but the files, the written texts and the roots: neither
on what was read before nor on the program that there was before (`createProgram_unread`).
-/

namespace Precompile.Scanning

open Precompile.Path (Reached Explores)

/-- A file that is taken over from an earlier program is the file that is found. -/
theorem reuse_eq (previous : Option Program) (fresh : SourceFile) :
    reuse previous fresh = fresh := by
  unfold reuse
  split
  next old _ =>
    split
    next hequal =>
      have hcontent : old.content = fresh.content := congrArg Fingerprint.text hequal
      rw [hcontent]
    next => rfl
  next => rfl

theorem visitSource_eq (previous : Option Program) (h : Host) :
    visitSource previous h = h.source := by
  funext p
  have hreuse : reuse previous = id := funext fun f => reuse_eq previous f
  unfold visitSource
  cases h.source p with
  | error e => rfl
  | ok found => simp [Except.map, hreuse]

theorem isNormal_of_mem_startingPaths {roots : List Path} {h : Host} {p : Path}
    (hp : p ∈ startingPaths roots h) : p.IsNormal := by
  obtain ⟨q, -, rfl⟩ := List.mem_map.mp hp
  exact Path.isNormal_normalize q

theorem isNormal_of_mem_importsOf {h : Host} {f : SourceFile} {p : Path}
    (hp : p ∈ importsOf h f) : p.IsNormal := by
  obtain ⟨q, -, rfl⟩ := List.mem_map.mp hp
  exact Path.isNormal_normalize q

/-- The budget of the exploration leaves room for all files. -/
theorem explores_exploreSources (roots : List Path) (previous : Option Program) (h : Host) :
    Explores h.source (importsOf h) (startingPaths roots h) .empty
      (exploreSources roots previous h) := by
  unfold exploreSources
  rw [visitSource_eq]
  refine Path.explores_explore (G := Path.IsNormal)
    (fun _ _ _ _ _ hq => isNormal_of_mem_importsOf hq) _ _ _
    (fun _ hp => isNormal_of_mem_startingPaths hp) ?_
  intro ks apart hks
  refine h.cache.length_le_extent ks apart fun k hk => ?_
  obtain ⟨hnormal, -, f, hf⟩ := hks k hk
  exact ⟨hnormal, f.content, (Host.source_eq_some_iff.mp hf).2⟩

theorem exploreSources_unread {h : Host} (sound : h.cache.Sound []) (roots : List Path)
    (previous : Option Program) :
    exploreSources roots previous h = exploreSources roots none h.unread := by
  -- both explorations go the same way, and what an exploration finds is determined
  have visits : h.unread.source = h.source := funext fun p => Host.source_unread sound p
  have leads : importsOf h.unread = importsOf h := by
    funext f
    simp only [importsOf, Host.importTargets_unread sound]
  have starts : startingPaths roots h.unread = startingPaths roots h := by
    simp only [startingPaths, Host.virtualModules_unread]
  have fresh := explores_exploreSources roots none h.unread
  rw [visits, leads, starts] at fresh
  exact (explores_exploreSources roots previous h).unique fresh

/-- Neither what was read before nor the program that there was before has a say in which program is
created. -/
theorem createProgram_unread {h : Host} (sound : h.cache.Sound []) (roots : List Path)
    (options : CompilerOptions) (previous : Option Program) :
    (createProgram roots options previous h).1 =
      (createProgram roots options none h.unread).1 := by
  unfold createProgram
  rw [exploreSources_unread sound roots previous]
  dsimp only
  cases (exploreSources roots none h.unread).failure <;> rfl

/-- Creating a program does no more to the host than reading. -/
theorem createProgram_host (roots : List Path) (options : CompilerOptions)
    (previous : Option Program) (h : Host) :
    ∃ ps, (createProgram roots options previous h).2 = h.retainAll ps := by
  refine ⟨(exploreSources roots previous h).found.map SourceFile.path, ?_⟩
  unfold createProgram
  dsimp only
  cases (exploreSources roots previous h).failure <;> rfl

/-! ### The files of a program -/

/-- The paths that the roots and the scripts in memory lead to. -/
def Reaches (roots : List Path) (h : Host) : Path → Prop :=
  Reached h.source (importsOf h) (startingPaths roots h)

variable {roots : List Path} {options : CompilerOptions} {previous : Option Program} {h : Host}
  {P : Program} {p : Path}

theorem Reaches.isNormal (hp : Reaches roots h p) : p.IsNormal := by
  cases hp with
  | start hp => exact isNormal_of_mem_startingPaths hp
  | next _ _ hq => exact isNormal_of_mem_importsOf hq

/-- A created program holds what the exploration found. -/
theorem found_of_createProgram (hP : (createProgram roots options previous h).1 = .ok P) :
    (exploreSources roots previous h).failure = none ∧
      P = ⟨roots, .ofList ((exploreSources roots previous h).found.map fun f =>
        (f.path, f.content)), options⟩ := by
  unfold createProgram at hP
  dsimp only at hP
  cases hfailure : (exploreSources roots previous h).failure with
  | some e => simp [hfailure] at hP
  | none =>
    rw [hfailure] at hP
    exact ⟨rfl, (Except.ok.inj hP).symm⟩

/-- What was found at a path is what the host has there. -/
theorem mem_found_iff (hP : (createProgram roots options previous h).1 = .ok P) {f : SourceFile} :
    f ∈ (exploreSources roots previous h).found ↔
      Reaches roots h f.path ∧ h.source f.path = .ok (some f) := by
  have explores := explores_exploreSources roots previous h
  constructor
  · intro hf
    obtain ⟨p, hp, hsource⟩ := explores.reached_of_found (fun q hq => .start hq) f hf
    have hpath : f.path = p := by
      rw [(Host.source_eq_some_iff.mp hsource).1]
      exact Reaches.isNormal hp
    exact hpath ▸ ⟨hp, hsource⟩
  · rintro ⟨hp, hsource⟩
    rcases explores.found_of_reached (fun _ _ same => h.source_same same)
      (found_of_createProgram hP).1 hp with hnone | ⟨b, hb, hsource'⟩
    · cases hnone.symm.trans hsource
    · cases hsource'.symm.trans hsource
      exact hb

/-- Each file of a created program is what the host serves at its path. -/
theorem source_of_mem_files (hP : (createProgram roots options previous h).1 = .ok P) :
    ∀ e ∈ P.files.entries, e.1.IsNormal ∧ h.source e.1 = .ok (some ⟨e.1, e.2⟩) := by
  obtain ⟨-, rfl⟩ := found_of_createProgram hP
  -- two finds of one path have the same text, whichever of them was entered last
  refine OrderedMap.forall_mem_insertAll (m := .empty) (Q := fun p content =>
    p.IsNormal ∧ h.source p = .ok (some ⟨p, content⟩)) ?_ (fun e he => nomatch he) ?_
  · intro p q content content' ⟨hp, _⟩ ⟨hq, hcontent⟩ hkey
    exact hp.eq_of_same hq hkey ▸ ⟨hq, hcontent⟩
  · intro e he
    obtain ⟨f, hf, rfl⟩ := List.mem_map.mp he
    obtain ⟨hp, hsource⟩ := (mem_found_iff hP).mp hf
    exact ⟨hp.isNormal, hsource⟩

theorem source_of_file? (hP : (createProgram roots options previous h).1 = .ok P)
    {f : SourceFile} (hf : P.file? p = some f) : h.source p = .ok (some f) := by
  obtain ⟨e, he, rfl⟩ := Option.map_eq_some_iff.mp hf
  obtain ⟨hmem, hkey⟩ := OrderedMap.find?_eq_some_iff.mp he
  rw [h.source_same (show p.Same e.1 from hkey.symm)]
  exact (source_of_mem_files hP e hmem).2

/-- The paths of a created program are those that are reached and at which the host has a file. -/
theorem mem_paths_iff (hP : (createProgram roots options previous h).1 = .ok P) :
    p ∈ P.paths ↔ Reaches roots h p ∧ ∃ f, h.source p = .ok (some f) := by
  constructor
  · intro hp
    obtain ⟨content, hmem⟩ := OrderedMap.mem_keys.mp hp
    obtain ⟨hnormal, hsource⟩ := source_of_mem_files hP _ hmem
    refine ⟨?_, _, hsource⟩
    obtain ⟨-, rfl⟩ := found_of_createProgram hP
    rcases (OrderedMap.contains_insertAll _ _ _).mp (OrderedMap.contains_of_mem hmem) with
      hnone | ⟨e, he, hkey⟩
    · cases hnone
    · obtain ⟨f, hf, rfl⟩ := List.mem_map.mp he
      have hreaches := ((mem_found_iff hP).mp hf).1
      rwa [hreaches.isNormal.eq_of_same hnormal hkey] at hreaches
  · rintro ⟨hp, f, hsource⟩
    have hpath : f.path = p := (Host.source_eq_some_iff.mp hsource).1.trans hp.isNormal
    have hf : f ∈ (exploreSources roots previous h).found :=
      (mem_found_iff hP).mpr (by rw [hpath]; exact ⟨hp, hsource⟩)
    have hentries := source_of_mem_files hP
    obtain ⟨-, rfl⟩ := found_of_createProgram hP
    have listed := List.mem_map_of_mem (f := fun f : SourceFile => (f.path, f.content)) hf
    obtain ⟨q, hq, hkey⟩ := OrderedMap.exists_mem_keys
      ((OrderedMap.contains_insertAll .empty _ p).mpr
        (.inr ⟨_, listed, congrArg Path.components hpath⟩))
    obtain ⟨content, hmem⟩ := OrderedMap.mem_keys.mp hq
    exact (hentries _ hmem).1.eq_of_same hp.isNormal hkey ▸ hq

/-- A program is created unless something that is reached cannot be read. -/
theorem exists_createProgram_iff :
    (∃ P, (createProgram roots options previous h).1 = .ok P) ↔
      ∀ p e, Reaches roots h p → h.source p ≠ .error e := by
  have explores := explores_exploreSources roots previous h
  constructor
  · rintro ⟨P, hP⟩ p e hp hsource
    rcases explores.found_of_reached (fun _ _ same => h.source_same same)
      (found_of_createProgram hP).1 hp with hnone | ⟨b, -, hfound⟩
    · cases hnone.symm.trans hsource
    · cases hfound.symm.trans hsource
  · intro readable
    unfold createProgram
    dsimp only
    cases hfailure : (exploreSources roots previous h).failure with
    | none => exact ⟨_, rfl⟩
    | some e =>
      obtain ⟨p, hp, hsource⟩ := explores.reached_of_failure (fun q hq => .start hq) hfailure
      exact absurd hsource (readable p e hp)

/-! ### More files -/

variable {g : Host}

theorem Reaches.mono (more : h.Includes g) (hp : Reaches roots g p) : Reaches roots h p := by
  induction hp with
  | @start p hp =>
    refine .start ?_
    simp only [startingPaths, List.mem_map, List.mem_append, List.mem_filter] at hp ⊢
    obtain ⟨q, hq | ⟨⟨f, hf, rfl⟩, hscript⟩, rfl⟩ := hp
    · exact ⟨q, .inl hq, rfl⟩
    · exact ⟨f.path, .inr ⟨⟨f, more.virtual_subset hf, rfl⟩, hscript⟩, rfl⟩
  | @next p q f _ hsource hq ih =>
    obtain ⟨r, hr, rfl⟩ := List.mem_map.mp hq
    exact .next ih (more.source_some hsource)
      (List.mem_map_of_mem (more.importTargets_subset f hr))

/-- Where more files do not keep a program from being created, fewer files do not do so either, and
the program is part of the other one. -/
theorem createProgram_mono (ext : h.Extends g)
    (hP : (createProgram roots options previous h).1 = .ok P) :
    ∃ Q, (createProgram roots options none g).1 = .ok Q ∧ Q.paths ⊆ P.paths := by
  have readable := exists_createProgram_iff.mp ⟨P, hP⟩
  obtain ⟨Q, hQ⟩ : ∃ Q, (createProgram roots options none g).1 = .ok Q :=
    exists_createProgram_iff.mpr fun p e hp hsource =>
      readable p e (hp.mono ext.toIncludes) (ext.source_error hsource)
  refine ⟨Q, hQ, fun p hp => ?_⟩
  obtain ⟨hreaches, f, hsource⟩ := (mem_paths_iff hQ).mp hp
  exact (mem_paths_iff hP).mpr ⟨hreaches.mono ext.toIncludes, f, ext.source_some hsource⟩

end Precompile.Scanning
