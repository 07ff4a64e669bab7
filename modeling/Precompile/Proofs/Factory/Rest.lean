import Precompile.Proofs.Factory.Surroundings

/-!
Generations that have nothing left to do.

Once the factories of a host are there, they are files of the program themselves. If none of them
leads to another file than its source, the generator finds the sources that it found without them,
and no others (`Inward.mem_factorySources_iff`): all that is reached was reached before or is a
factory. Where each source has its factory and nothing else was written, a generation does no more
than reading (`exists_generate_eq`).
-/

namespace Precompile.Factory

open Precompile.Path (Reached)
open Precompile.Route (Visits visit successors)
open Precompile.Scanning (Reaches)

variable {o : BuildOptions} {h g : Host} {P Q : Program} {f : SourceFile} {p q : Path}

/-! ### What the generator comes to -/

/-- Some spelling of the path is one that the generator comes to. -/
def Walked (o : BuildOptions) (P : Program) (h : Host) (p : Path) : Prop :=
  ∃ q, Reached (visit h) (successors h) (P.paths.filter (isInput o)) q ∧ q.Same p

theorem Walked.congr (walked : Walked o P h p) (same : p.Same q) : Walked o P h q := by
  obtain ⟨r, hr, hsame⟩ := walked
  exact ⟨r, hr, hsame.trans same⟩

theorem Walked.next (walked : Walked o P h p) (hsource : h.source p = .ok (some f))
    (hq : q ∈ successors h f) : Walked o P h q := by
  obtain ⟨r, hr, same⟩ := walked
  rw [← h.source_same same] at hsource
  have visits : visit h r = .ok (some f) :=
    congrArg Except.ok (Route.readable?_eq_some_iff.mpr hsource)
  exact ⟨q, hr.next visits hq, rfl⟩

theorem visits_of_walked (hsource : h.source p = .ok (some f)) (walked : Walked o P h p) :
    Visits h (P.paths.filter (isInput o)) f := by
  obtain ⟨r, hr, same⟩ := walked
  exact ⟨r, hr, (h.source_same same).trans hsource⟩

/-- The sources of a host are the decorated inputs that the generator visits. -/
theorem mem_factorySources_iff
    (hP : (Scanning.createProgram o.roots o.compiler none h).1 = .ok P) :
    f ∈ factorySources o h ↔
      Visits h (P.paths.filter (isInput o)) f ∧ getsFactory o f = true := by
  unfold factorySources
  rw [hP]
  dsimp only
  rw [List.mem_filter,
    mem_reachedFiles (Route.faithful_of_createProgram hP) (isSettled_of_mem_paths hP)]

theorem walked_of_mem (hP : (Scanning.createProgram o.roots o.compiler none h).1 = .ok P)
    (hf : f ∈ factorySources o h) : Walked o P h f.path := by
  obtain ⟨⟨r, hr, hsource⟩, -⟩ := (mem_factorySources_iff hP).mp hf
  have settled : r.IsSettled := by
    cases hr with
    | start hr => exact isSettled_of_mem_paths hP r (List.mem_of_mem_filter hr)
    | next _ _ hr => exact Route.isSettled_of_mem_successors hr
  refine ⟨r, hr, ?_⟩
  rw [(Host.source_eq_some_iff.mp hsource).1]
  exact settled.normalize_same.symm

/-! ### Factories that lead back to their sources -/

/-- The factory of a source, as a file. -/
def factoryFile (o : BuildOptions) (f : SourceFile) : SourceFile :=
  ⟨placeOf o f, (factoryOf o f).content⟩

theorem path_factoryFile (o : BuildOptions) (f : SourceFile) :
    (factoryFile o f).path = placeOf o f := by
  simp only [factoryFile]

theorem content_factoryFile (o : BuildOptions) (f : SourceFile) :
    (factoryFile o f).content = render f.path (placeOf o f) (decoratedClasses f) o.i18n.locale := by
  simp only [factoryFile, factoryOf, placeOf]

/-- A host has nothing more than another one but the factories of its sources, and each factory leads
to nothing but its source. -/
structure Inward (o : BuildOptions) (h g : Host) : Prop where
  absolute : o.basePath.isAbsolute = true
  normal : o.genDir.IsNormal
  below : ∀ f ∈ factorySources o h, o.basePath.Below f.path
  outside : g.AgreesOutside o.genDir h
  unwritten : h.virtualModules = []
  vacant : ∀ p : Path, o.genDir.Below p.normalize → h.cache.isFile p = false
  written : ∀ w ∈ g.cache.writtenFiles, ∃ f ∈ factorySources o h, w.path = placeOf o f
  placed : ∀ p : Path, o.genDir.Below p.normalize → g.cache.isFile p = true →
    ∃ f ∈ factorySources o h, p.normalize = placeOf o f
  served : ∀ f ∈ factorySources o h, g.source (placeOf o f) = .ok (some (factoryFile o f))
  leads : ∀ f ∈ factorySources o h, ∀ q ∈ successors g (factoryFile o f), q.Same f.path

namespace Inward

theorem below_placeOf (inward : Inward o h g) (hf : f ∈ factorySources o h) :
    o.genDir.Below (placeOf o f) := by
  have hplan : (planOf o).base.isAbsolute = true := inward.absolute
  exact below_factoryPath hplan inward.normal (covers_of_mem hf (inward.below f hf))

/-- What is read is a factory, or was there before. -/
theorem source_cases (inward : Inward o h g) {b : SourceFile}
    (hsource : g.source p = .ok (some b)) :
    (∃ f ∈ factorySources o h, b = factoryFile o f) ∨
      ¬ o.genDir.Below p.normalize ∧ h.source p = .ok (some b) := by
  by_cases hbelow : o.genDir.Below p.normalize
  · obtain ⟨-, hserve⟩ := Host.source_eq_some_iff.mp hsource
    obtain ⟨f, hf, place⟩ := inward.placed p hbelow (SourceCache.isFile_of_serve hserve)
    have hfactory := inward.served f hf
    rw [← place, g.source_normalize, hsource] at hfactory
    exact .inl ⟨f, hf, Option.some.inj (Except.ok.inj hfactory)⟩
  · exact .inr ⟨hbelow, inward.outside.source_eq hbelow ▸ hsource⟩

/-- What a file leads to is a factory, or what it led to before. -/
theorem successor_cases (inward : Inward o h g) {b : SourceFile} (hq : q ∈ successors g b) :
    (∃ f ∈ factorySources o h, q.normalize = placeOf o f) ∨ q ∈ successors h b := by
  by_cases hbelow : o.genDir.Below q.normalize
  · obtain ⟨specifier, resolved⟩ := Route.exists_resolve?_of_mem_successors hq
    exact .inl (inward.placed q hbelow (Host.isFile_of_resolve? resolved))
  · exact .inr (inward.outside.mem_successors hq hbelow)

theorem import_cases (inward : Inward o h g) {b : SourceFile} (hq : q ∈ g.importTargets b) :
    (∃ f ∈ factorySources o h, q.normalize = placeOf o f) ∨ q ∈ h.importTargets b := by
  by_cases hbelow : o.genDir.Below q.normalize
  · obtain ⟨specifier, resolved⟩ := Host.exists_resolve?_of_mem_importTargets hq
    exact .inl (inward.placed q hbelow (Host.isFile_of_resolve? resolved))
  · exact .inr (inward.outside.mem_importTargets hq hbelow)

/-- What the roots and the factories lead to is what the roots or the generator came to before, or a
factory. -/
theorem reaches_cases (inward : Inward o h g)
    (hP : (Scanning.createProgram o.roots o.compiler none h).1 = .ok P)
    (hp : Reaches o.roots g p) :
    Reaches o.roots h p ∨ Walked o P h p ∨ ∃ f ∈ factorySources o h, p.normalize = placeOf o f := by
  induction hp with
  | @start p hp =>
    obtain ⟨q, hq, rfl⟩ := List.mem_map.mp hp
    rcases List.mem_append.mp hq with hroot | hmodule
    · exact .inl (.start (List.mem_map_of_mem (List.mem_append_left _ hroot)))
    · obtain ⟨w, hw, rfl⟩ := List.mem_map.mp (List.mem_of_mem_filter hmodule)
      obtain ⟨f, hf, place⟩ := inward.written w (List.mem_of_mem_filter hw)
      have normal : (placeOf o f).normalize = placeOf o f := isNormal_placeOf o f
      exact .inr (.inr ⟨f, hf, by rw [Path.normalize_normalize, place, normal]⟩)
  | @next p q b _ hsource hq ih =>
    obtain ⟨r, hr, rfl⟩ := List.mem_map.mp hq
    have same : r.Same r.normalize := (Host.isSettled_of_mem_importTargets hr).normalize_same.symm
    rcases inward.source_cases hsource with ⟨f, hf, rfl⟩ | ⟨elsewhere, hsource⟩
    · have back := inward.leads f hf r (List.mem_append_right _ hr)
      exact .inr (.inl ((walked_of_mem hP hf).congr (back.symm.trans same)))
    · rcases inward.import_cases hr with ⟨f, hf, place⟩ | hr
      · exact .inr (.inr ⟨f, hf, by rw [Path.normalize_normalize, place]⟩)
      · rcases ih with reaches | walked | ⟨f, hf, place⟩
        · exact .inl (reaches.next hsource (List.mem_map_of_mem hr))
        · exact .inr (.inl ((walked.next hsource (List.mem_append_right _ hr)).congr same))
        · exact absurd (place ▸ inward.below_placeOf hf) elsewhere

/-- What the generator comes to is what it came to before, or a factory. -/
theorem walked_cases (inward : Inward o h g)
    (hP : (Scanning.createProgram o.roots o.compiler none h).1 = .ok P)
    (hQ : (Scanning.createProgram o.roots o.compiler none g).1 = .ok Q)
    (hp : Reached (visit g) (successors g) (Q.paths.filter (isInput o)) p) :
    Walked o P h p ∨ ∃ f ∈ factorySources o h, p.normalize = placeOf o f := by
  induction hp with
  | @start p hp =>
    obtain ⟨hpath, input⟩ := List.mem_filter.mp hp
    obtain ⟨reaches, b, hsource⟩ := (Scanning.mem_paths_iff hQ).mp hpath
    have elsewhere := not_below_of_isInput input
    have normal : p.normalize = p := reaches.isNormal
    rcases inward.source_cases hsource with ⟨f, hf, rfl⟩ | ⟨-, hsource⟩
    · have place := (Host.source_eq_some_iff.mp hsource).1
      rw [path_factoryFile] at place
      exact .inr ⟨f, hf, place.symm⟩
    · rcases inward.reaches_cases hP reaches with before | walked | factory
      · have hpath := (Scanning.mem_paths_iff hP).mpr ⟨before, b, hsource⟩
        exact .inl ⟨p, .start (List.mem_filter.mpr ⟨hpath, input⟩), rfl⟩
      · exact .inl walked
      · exact .inr factory
  | @next p q b _ hvisit hq ih =>
    have hsource := Route.readable?_eq_some_iff.mp (Except.ok.inj hvisit)
    rcases inward.source_cases hsource with ⟨f, hf, rfl⟩ | ⟨elsewhere, hsource⟩
    · exact .inl ((walked_of_mem hP hf).congr (inward.leads f hf q hq).symm)
    · rcases inward.successor_cases hq with factory | hq
      · exact .inr factory
      · rcases ih with walked | ⟨f, hf, place⟩
        · exact .inl (walked.next hsource hq)
        · exact absurd (place ▸ inward.below_placeOf hf) elsewhere

theorem includes (inward : Inward o h g) : g.Includes h where
  source_some := by
    intro p f hsource
    have elsewhere : ¬ o.genDir.Below p.normalize := by
      intro hbelow
      have there := SourceCache.isFile_of_serve (Host.source_eq_some_iff.mp hsource).2
      simp [inward.vacant p hbelow] at there
    rw [inward.outside.source_eq elsewhere, hsource]
  resolve?_some := by
    intro specifier containing r hr
    refine inward.outside.symm.resolve? hr fun hbelow => ?_
    have there := Host.isFile_of_resolve? hr
    simp [inward.vacant r hbelow] at there
  virtual_subset := by
    rw [inward.unwritten]
    exact List.nil_subset _

/-- The factories lead the generator to no further source, and keep none from it. -/
theorem mem_factorySources_iff (inward : Inward o h g)
    (hP : (Scanning.createProgram o.roots o.compiler none h).1 = .ok P)
    (hQ : (Scanning.createProgram o.roots o.compiler none g).1 = .ok Q) :
    f ∈ factorySources o g ↔ f ∈ factorySources o h := by
  rw [Factory.mem_factorySources_iff hP, Factory.mem_factorySources_iff hQ]
  refine and_congr_left fun gets => ⟨?_, fun visits => ?_⟩
  · rintro ⟨p, hp, hsource⟩
    simp only [getsFactory, Bool.and_eq_true] at gets
    have elsewhere := not_below_of_isInput gets.1
    rcases inward.source_cases hsource with ⟨f', hf', rfl⟩ | ⟨elsewhere, hsource⟩
    · rw [path_factoryFile] at elsewhere
      exact absurd (inward.below_placeOf hf') elsewhere
    · rcases inward.walked_cases hP hQ hp with walked | ⟨f', hf', place⟩
      · exact visits_of_walked hsource walked
      · exact absurd (place ▸ inward.below_placeOf hf') elsewhere
  · refine visits.mono inward.includes fun p hp => ?_
    obtain ⟨hpath, input⟩ := List.mem_filter.mp hp
    obtain ⟨reaches, b, hsource⟩ := (Scanning.mem_paths_iff hP).mp hpath
    exact List.mem_filter.mpr ⟨(Scanning.mem_paths_iff hQ).mpr
      ⟨reaches.mono inward.includes, b, inward.includes.source_some hsource⟩, input⟩

end Inward

/-! ### Generating what is there -/

variable {loader : ResourceLoader}

theorem provide_eq_of_served {target : Path} {content : String}
    (hread : h.read target = .ok (some content)) :
    provide target content h = (.ok (), h.retainAll [target]) := by
  unfold provide
  rw [hread]
  exact if_pos rfl

theorem exists_generateAll_eq {fs : List SourceFile}
    (loads : ∀ f ∈ fs, Loads o loader h.cache.files f)
    (served : ∀ f ∈ fs.filter (getsFactory o),
      h.read (placeOf o f) = .ok (some (factoryOf o f).content)) :
    ∃ qs, generateAll o loader fs h =
      (.ok ((fs.filter (getsFactory o)).map (placeOf o)), h.retainAll qs) := by
  induction fs generalizing h with
  | nil => exact ⟨[], rfl⟩
  | cons f fs ih =>
    obtain ⟨load, loads⟩ := List.forall_mem_cons.mp loads
    unfold generateAll
    rw [generateFor_eq]
    cases gets : getsFactory o f with
    | false =>
      rw [List.filter_cons_of_neg (by simp [gets])] at served ⊢
      obtain ⟨qs, hqs⟩ := ih loads served
      exact ⟨qs, by simp [hqs]⟩
    | true =>
      rw [List.filter_cons_of_pos gets] at served ⊢
      obtain ⟨hread, served⟩ := List.forall_mem_cons.mp served
      have files : (h.retainAll [placeOf o f]).cache.files = h.cache.files :=
        (h.uses_retainAll _).files_eq
      obtain ⟨qs, hqs⟩ := ih (h := h.retainAll [placeOf o f]) (files.symm ▸ loads)
        (by rwa [Host.read_retainAll])
      refine ⟨placeOf o f :: qs, ?_⟩
      simp only [if_true, load gets, provide_eq_of_served hread, hqs, Host.retainAll_retainAll]
      rfl

theorem orphans_retainAll (o : BuildOptions) (fs : List SourceFile) (h : Host) (ps : List Path) :
    orphans o fs (h.retainAll ps) = orphans o fs h := by
  have unread : (h.retainAll ps).cache.unread = h.cache.unread :=
    SourceCache.unread_retainAll h.cache ps
  rw [orphans, SourceCache.stale_eq, unread, orphans, SourceCache.stale_eq]

/-- Generating for a program only reads, whatever was read before. -/
def IsComplete (o : BuildOptions) (loader : ResourceLoader) (P : Program) (h : Host) : Prop :=
  ∀ ps, ∃ qs, generate o loader P (h.retainAll ps) = (.ok (), (h.retainAll ps).retainAll qs)

theorem IsComplete.retainAll (complete : IsComplete o loader P h) (ps : List Path) :
    IsComplete o loader P (h.retainAll ps) := by
  intro qs
  rw [Host.retainAll_retainAll]
  exact complete (ps ++ qs)

/-- Where every source has its factory and there are no others, a generation only reads. -/
theorem exists_generate_eq (messages : loadMessages o loader h = .ok ())
    (loads : ∀ f ∈ reachedFiles o P h, Loads o loader h.cache.files f)
    (served : ∀ f ∈ decoratedFiles o P h,
      h.read (placeOf o f) = .ok (some (factoryOf o f).content))
    (only : orphans o (decoratedFiles o P h) h = []) :
    ∃ qs, generate o loader P h = (.ok (), h.retainAll qs) := by
  let start := (reachedFiles o P h).map SourceFile.path |>.filter fun p => !P.contains p
  have files : (h.retainAll start).cache.files = h.cache.files := (h.uses_retainAll _).files_eq
  obtain ⟨qs, hall⟩ := exists_generateAll_eq (h := h.retainAll start) (files.symm ▸ loads)
    (by rwa [Host.read_retainAll])
  refine ⟨start ++ qs, ?_⟩
  have retire : (h.retainAll (start ++ qs)).mapCache (fun c => c.retire o.genDir
      ((decoratedFiles o P h).map (placeOf o))) = h.retainAll (start ++ qs) := by
    have none : (h.retainAll (start ++ qs)).cache.stale o.genDir
        ((decoratedFiles o P h).map (placeOf o)) = [] :=
      (orphans_retainAll o (decoratedFiles o P h) h (start ++ qs)).trans only
    simp only [Host.mapCache, SourceCache.retire, none, List.foldl_nil]
  rw [Host.retainAll_retainAll] at hall
  unfold generate
  rw [messages]
  dsimp only
  rw [Route.afterReach, hall]
  exact congrArg (Prod.mk _) retire

end Precompile.Factory
