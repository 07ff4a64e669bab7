import Precompile.Proofs.Factory.Sources

/-!
Hosts from which some of the generated factories are missing.

A factory that is missing takes nothing away from what the other files lead to: of the candidates
for a specifier at most one is a factory (`not_isMarked_of_earlier`), so a factory that comes back
hides no other one. What such a host leads to, the host with all of them leads to as well
(`PartOf.extends`).
-/

namespace Precompile

namespace Factory

/-! ### Names of factories -/

/-- The last name of a path is that of a factory. -/
def IsMarked (p : Path) : Prop :=
  ∃ front name, p.components = front ++ [.name (name ++ ".ngfactory.ts")]

theorem IsMarked.congr {p q : Path} (marked : IsMarked p) (same : p.Same q) : IsMarked q := by
  obtain ⟨front, name, hp⟩ := marked
  exact ⟨front, name, same.symm.trans hp⟩

theorem isMarked_factoryPath {plan : FactoryPlan} {source : Path}
    (hbase : plan.base.isAbsolute = true) (covers : Covers plan source) :
    IsMarked (plan.factoryPath source) := by
  obtain ⟨names, name, -, hplace⟩ := components_factoryPath hbase covers
  rw [← List.append_assoc] at hplace
  exact ⟨_, name, hplace⟩

theorem IsMarked.exists_name {p : Path} (marked : IsMarked p) {front : List Component} {s : String}
    (hp : p.components = front ++ [.name s]) : ∃ name, s = name ++ ".ngfactory.ts" := by
  obtain ⟨front', name, hp'⟩ := marked
  have same := (List.append_singleton_inj.mp (hp.symm.trans hp')).2
  exact ⟨name, Component.name.inj same⟩

/-- A path with the name of a factory is that of a script. -/
theorem IsMarked.isScript {p : Path} (marked : IsMarked p) (normal : p.IsNormal) :
    Scanning.isScript p = true := by
  obtain ⟨front, name, hp⟩ := marked
  rcases normal.cases with rfl | rfl | ⟨front', c, hc, hcs, htext⟩
  · simp [Path.components_empty] at hp
  · rw [Path.components_root] at hp
    cases front <;> simp at hp
  · obtain ⟨-, rfl⟩ := List.append_singleton_inj.mp (hcs.symm.trans hp)
    refine endsWith_iff.mpr ?_
    rw [htext, Path.join, Path.isAbsolute_of_isPart hc]
    simp only [Bool.false_eq_true, if_false]
    have ending : ".ts".toList <:+ (name ++ ".ngfactory.ts").toList := by
      simp only [String.toList_append]
      exact List.IsSuffix.trans ⟨".ngfactory".toList, rfl⟩ (List.suffix_append _ _)
    split
    · rw [String.toList_append]
      exact ending.trans (List.suffix_append _ _)
    · rw [String.toList_append]
      exact ending.trans (List.suffix_append _ _)

/-- Of the candidates for a stem, at most one is a factory. -/
theorem not_isMarked_of_earlier {stem : Path} (normal : stem.IsNormal) :
    (Host.candidates stem).Pairwise fun p q => IsMarked p → ¬ IsMarked q := by
  obtain ⟨s, hscript, same⟩ := Path.components_add_ending normal ".ts" (by decide) (by decide)
  obtain ⟨t, hdeclaration, -⟩ := Path.components_add_ending normal ".d.ts" (by decide) (by decide)
  have hindex := Host.components_index stem
  have script : IsMarked stem → ¬ IsMarked ⟨stem.text ++ ".ts"⟩ := by
    rintro ⟨front, name, hstem⟩ marked
    obtain ⟨name', hname⟩ := marked.exists_name hscript
    rw [same _ _ hstem] at hname
    have backwards := congrArg (fun s => s.toList.reverse) hname
    simp at backwards
  have declaration : ¬ IsMarked ⟨stem.text ++ ".d.ts"⟩ := by
    intro marked
    obtain ⟨name, hname⟩ := marked.exists_name hdeclaration
    have backwards := congrArg (fun s => s.toList.reverse) hname
    simp at backwards
  have index : ¬ IsMarked ⟨stem.text ++ "/index.ts"⟩ := by
    intro marked
    obtain ⟨name, hname⟩ := marked.exists_name hindex
    have backwards := congrArg (fun s => s.toList.reverse) hname
    simp at backwards
  simp only [Host.candidates, Host.moduleEndings, List.map_cons, List.map_nil, List.pairwise_cons,
    List.mem_cons, List.not_mem_nil, or_false, forall_eq_or_imp, forall_eq, String.append_empty,
    IsEmpty.forall_iff, implies_true, List.Pairwise.nil, and_true]
  exact ⟨⟨script, fun _ => declaration, fun _ => index⟩, ⟨fun _ => declaration, fun _ => index⟩,
    fun _ => index⟩

end Factory

/-! ### Hosts with a part of the written texts -/

namespace Host

/-- The host has a part of the written texts of another one, over the same files. -/
structure PartOf (g h : Host) : Prop where
  base_eq : g.base = h.base
  files_eq : g.cache.files = h.cache.files
  entry : ∀ {p : Path} {e : CacheEntry}, g.cache.unread.entries.get? p = some e →
    h.cache.unread.entries.get? p = some e

variable {g h : Host} {dir : Path}

/-- What the other host serves is served, or was written and is missing. -/
theorem PartOf.serve_unread (part : g.PartOf h) (p : Path) :
    g.cache.unread.serve p = h.cache.unread.serve p ∨
      g.cache.unread.serve p = h.cache.files.read p.normalize ∧
        (h.cache.unread.entries.get? p.normalize).isSome = true := by
  unfold SourceCache.serve
  cases hg : g.cache.unread.entries.get? p.normalize with
  | some e =>
    rw [part.entry hg]
    exact .inl rfl
  | none =>
    cases hh : h.cache.unread.entries.get? p.normalize with
    | none => exact .inl (congrArg (fun files => files.read p.normalize) part.files_eq)
    | some e => exact .inr ⟨congrArg (fun files => files.read p.normalize) part.files_eq, rfl⟩

theorem PartOf.isFile_unread (part : g.PartOf h) {p : Path}
    (there : g.cache.unread.isFile p = true) : h.cache.unread.isFile p = true := by
  unfold SourceCache.isFile at there ⊢
  rw [Bool.or_eq_true, OrderedMap.contains_eq_isSome_get?] at there ⊢
  rcases there with held | onDisk
  · obtain ⟨e, he⟩ := Option.isSome_iff_exists.mp held
    left
    rw [part.entry he]
    rfl
  · right
    rwa [SourceCache.files_unread, part.files_eq] at onDisk

/-- A file that comes back was written. -/
theorem PartOf.isSome_of_new (part : g.PartOf h) {p : Path}
    (there : h.cache.unread.isFile p = true) (new : ¬ g.cache.unread.isFile p = true) :
    (h.cache.unread.entries.get? p.normalize).isSome = true := by
  unfold SourceCache.isFile at there new
  rw [Bool.or_eq_true, OrderedMap.contains_eq_isSome_get?] at there
  refine there.resolve_right fun onDisk => new ?_
  rw [Bool.or_eq_true]
  right
  rwa [SourceCache.files_unread, part.files_eq]

/-- A file that is not on disk was written. -/
theorem PartOf.isSome_of_vacant (part : g.PartOf h) {p : Path}
    (there : g.cache.unread.isFile p = true) (vacant : h.cache.files.isFile p.normalize = false) :
    (h.cache.unread.entries.get? p.normalize).isSome = true := by
  unfold SourceCache.isFile at there
  rw [SourceCache.files_unread, part.files_eq, vacant, Bool.or_false,
    OrderedMap.contains_eq_isSome_get?] at there
  obtain ⟨e, he⟩ := Option.isSome_iff_exists.mp there
  rw [part.entry he]
  rfl

theorem PartOf.virtual_subset (part : g.PartOf h) (sound : g.cache.Sound [])
    (sound' : h.cache.Sound []) : g.virtualModules ⊆ h.virtualModules := by
  have written : ∀ f ∈ g.cache.writtenFiles, f ∈ h.cache.writtenFiles := by
    intro f hf
    rw [SourceCache.mem_writtenFiles_iff] at hf ⊢
    have held : g.cache.unread.entries.get? f.path = some ⟨f.content, .written f.emit⟩ := by
      rw [SourceCache.get?_unread, OrderedMap.get?_eq_some_iff.mpr ⟨_, hf, rfl⟩]
      rfl
    have held' := part.entry held
    rw [SourceCache.get?_unread] at held'
    obtain ⟨hget, -⟩ := Option.filter_eq_some_iff.mp held'
    obtain ⟨q, hq, hkey⟩ := OrderedMap.get?_eq_some_iff.mp hget
    have normal := sound'.normal _ hq
    have normal' := sound.normal _ hf
    have same : q = f.path := normal.eq_of_same normal' hkey
    rwa [same] at hq
  intro f hf
  unfold virtualModules at hf ⊢
  rw [List.mem_filter] at hf ⊢
  exact ⟨written f hf.1, hf.2⟩

/-- All written texts are factories below a directory that has nothing else in it. -/
structure Stocked (dir : Path) (h : Host) : Prop extends Factory.Tidy dir h where
  below : ∀ f ∈ h.cache.writtenFiles, dir.Below f.path
  marked : ∀ f ∈ h.cache.writtenFiles, Factory.IsMarked f.path

/-- What a host with a part of the factories leads to, the host with all of them leads to as well. -/
theorem PartOf.extends (part : g.PartOf h) (sound : g.cache.Sound []) (stocked : h.Stocked dir) :
    h.Extends g := by
  -- a written text is a factory below the directory
  have written : ∀ {p : Path}, (h.cache.unread.entries.get? p).isSome = true →
      dir.Below p ∧ Factory.IsMarked p := by
    intro p hsome
    obtain ⟨f, hf, hsame⟩ := SourceCache.isSome_get?_unread_iff.mp hsome
    exact ⟨(stocked.below f hf).congr hsame, (stocked.marked f hf).congr hsame⟩
  have source : ∀ {p : Path}, g.source p ≠ .ok none → h.source p = g.source p := by
    intro p there
    rw [← source_unread sound, ← source_unread stocked.sound]
    rcases part.serve_unread p with same | ⟨onDisk, missing⟩
    · simp only [Host.source, SourceCache.source, unread, same]
    · -- a missing factory has nothing on disk
      exfalso
      apply there
      rw [stocked.vacant _ (Path.isNormal_normalize p) (written missing).1] at onDisk
      rw [← source_unread sound]
      simp [Host.source, SourceCache.source, unread, onDisk, Except.map, orMissing,
        ReadError.isNotFound]
  refine ⟨⟨fun hp => ?_, ?_, part.virtual_subset sound stocked.sound⟩, fun hp => ?_⟩
  · rw [source (by simp [hp]), hp]
  · intro specifier containing r
    rw [← resolve?_unread sound, ← resolve?_unread stocked.sound]
    have base : h.unread.base = g.unread.base := part.base_eq.symm
    refine resolve?_of_pairwise base (fun p => part.isFile_unread) fun stem normal => ?_
    have later := (below_normalize_of_earlier dir normal).and
      (Factory.not_isMarked_of_earlier normal)
    refine later.imp_of_mem fun {p q} hp hq apart there there' => ?_
    obtain ⟨below, unmarked⟩ := apart
    by_contra new
    -- a new candidate is a factory, so the later one lies below the directory and is one as well
    have factory := written (part.isSome_of_new there new)
    have vacant := stocked.vacant _ (Path.isNormal_normalize q) (below factory.1)
    have factory' := written (part.isSome_of_vacant there' (FileSystem.isFile_of_notFound vacant))
    have settled := (isSettled_candidates normal p hp).normalize_same
    have settled' := (isSettled_candidates normal q hq).normalize_same
    exact unmarked (factory.2.congr settled) (factory'.2.congr settled')
  · rw [source (by simp [hp]), hp]

end Host

end Precompile
