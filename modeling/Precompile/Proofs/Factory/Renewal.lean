import Precompile.Proofs.Factory.Sources
import Precompile.Proofs.Program.Files

/-!
Which factories a generation renews and which files it retires.

Nothing is assumed about what lies below the directory of generated files: there may be factories of
an earlier generation, files on disk and overrides. Each factory is written where the host does not
serve its text yet, one after the other (`Renewed`), and then the written files that are no factories
are retired (`leaves_of_generate`), unless something failed before (`generate_leaves`).
-/

namespace Precompile

theorem Path.isAmong_congr {p q : Path} (same : p.Same q) (ps : List Path) :
    p.isAmong ps = q.isAmong ps := by
  apply Bool.eq_iff_iff.mpr
  simp only [Path.isAmong, List.any_eq_true, decide_eq_true_eq]
  exact exists_congr fun r => and_congr_right fun _ => ⟨(·.trans same), (·.trans same.symm)⟩

/-- The written files are the written texts that are held. -/
theorem SourceCache.mem_writtenFiles_iff_get? {c : SourceCache}
    (normal : ∀ e ∈ c.entries.entries, e.1.IsNormal) {w : WrittenFile} :
    w ∈ c.writtenFiles ↔
      w.path.IsNormal ∧ c.unread.entries.get? w.path = some ⟨w.content, .written w.emit⟩ := by
  rw [mem_writtenFiles_iff, get?_unread, Option.filter_eq_some_iff, OrderedMap.get?_eq_some_iff]
  constructor
  · intro hmem
    have hnormal : w.path.IsNormal := normal (w.path, ⟨w.content, .written w.emit⟩) hmem
    exact ⟨hnormal, ⟨w.path, hmem, rfl⟩, rfl⟩
  · rintro ⟨hnormal, ⟨q, hmem, hkey⟩, -⟩
    exact (normal _ hmem).eq_of_same hnormal hkey ▸ hmem

/-- Only the written files tell which of them are stale. -/
theorem SourceCache.stale_eq (c : SourceCache) (dir : Path) (keep : List Path) :
    c.stale dir keep =
      MemoryFiles.below dir.normalize (c.unread.entries.filter fun p _ => !p.isAmong keep).keys := by
  simp only [stale, writtenBelow, MemoryFiles.below, unread, OrderedMap.keys, OrderedMap.filter,
    List.filter_map, List.filter_filter]
  refine congrArg (List.map Prod.fst) (List.filter_congr fun e _ => ?_)
  exact Bool.and_left_comm ..

namespace Factory

variable {o : BuildOptions} {loader : ResourceLoader} {h mid after : Host}

/-- The host does not serve the factory of a source yet. -/
def lacksFactory (o : BuildOptions) (h : Host) (f : SourceFile) : Bool :=
  match h.read (placeOf o f) with
  | .ok (some served) => decide (served ≠ (factoryOf o f).content)
  | _ => true

theorem lacksFactory_eq_false_iff {f : SourceFile} :
    lacksFactory o h f = false ↔ h.read (placeOf o f) = .ok (some (factoryOf o f).content) := by
  unfold lacksFactory
  split
  next served hread => simp [hread]
  next other => simpa using other _

/-- What providing the factories of some sources makes of a host: those that it lacked are written,
and all of them are served. -/
structure Renewed (o : BuildOptions) (fs : List SourceFile) (h after : Host) : Prop where
  files_eq : after.cache.files = h.cache.files
  served : ∀ f ∈ fs, after.read (placeOf o f) = .ok (some (factoryOf o f).content)
  placed : ∀ f ∈ fs, lacksFactory o h f = true →
    after.cache.unread.entries.get? (placeOf o f) = some (factoryOf o f)
  elsewhere : ∀ p : Path, (∀ f ∈ fs, ¬ (placeOf o f).Same p.normalize) →
    after.cache.serve p = h.cache.serve p
  kept : ∀ p : Path, (∀ f ∈ fs, lacksFactory o h f = true → ¬ (placeOf o f).Same p) →
    after.cache.unread.entries.get? p = h.cache.unread.entries.get? p
  changed : ∀ p : Path, after.cache.changed.contains p = true ↔
    h.cache.changed.contains p = true ∨ ∃ f ∈ fs, lacksFactory o h f = true ∧ (placeOf o f).Same p
  revision : after.cache.revision = h.cache.revision + (fs.filter (lacksFactory o h)).length

theorem renewed_retainAll (o : BuildOptions) (h : Host) (ps : List Path) :
    Renewed o [] h (h.retainAll ps) :=
  Host.retainAll_induction (Q := Renewed o [] h) (fun g p hg =>
    { files_eq := (SourceCache.files_retain g.cache p).trans hg.files_eq
      served := nofun
      placed := nofun
      elsewhere := fun q hq => (g.cache.serve_retain p q).trans (hg.elsewhere q hq)
      kept := fun q hq => by
        show (g.cache.retain p).unread.entries.get? q = _
        rw [SourceCache.unread_retain]
        exact hg.kept q hq
      changed := fun q => by
        show (g.cache.retain p).changed.contains q = true ↔ _
        rw [SourceCache.changed_retain]
        exact hg.changed q
      revision := (SourceCache.revision_retain g.cache p).trans hg.revision }) ps
    { files_eq := rfl, served := nofun, placed := nofun, elsewhere := fun _ _ => rfl
      kept := fun _ _ => rfl, changed := fun _ => by simp, revision := rfl }

/-- Reading the same at its place, a host lacks a factory if another one does. -/
theorem lacksFactory_congr {f : SourceFile} (same : mid.read (placeOf o f) = h.read (placeOf o f)) :
    lacksFactory o mid f = lacksFactory o h f := by
  simp only [lacksFactory, same]

/-- Factories at different places do not get in each other's way. -/
theorem Renewed.append {fs gs : List SourceFile} (first : Renewed o fs h mid)
    (second : Renewed o gs mid after) (normal : ∀ f ∈ fs ++ gs, (placeOf o f).IsNormal)
    (apart : ∀ f ∈ fs, ∀ g ∈ gs, ¬ (placeOf o f).Same (placeOf o g)) :
    Renewed o (fs ++ gs) h after := by
  have settled : ∀ f ∈ fs ++ gs, (placeOf o f).normalize = placeOf o f := normal
  have before : ∀ g ∈ gs, mid.read (placeOf o g) = h.read (placeOf o g) := by
    intro g hg
    have hsame := first.elsewhere (placeOf o g) fun f hf => by
      rw [settled g (List.mem_append_right _ hg)]
      exact apart f hf g hg
    simp only [Host.read, hsame]
  have lacks : ∀ g ∈ gs, lacksFactory o mid g = lacksFactory o h g :=
    fun g hg => lacksFactory_congr (before g hg)
  constructor
  · exact second.files_eq.trans first.files_eq
  · intro f hf
    rcases List.mem_append.mp hf with hf' | hf'
    · have hkept := second.elsewhere (placeOf o f) fun g hg same => by
        rw [settled f hf] at same
        exact apart f hf' g hg same.symm
      rw [← first.served f hf', Host.read, hkept, Host.read]
    · exact second.served f hf'
  · intro f hf hlacks
    rcases List.mem_append.mp hf with hf' | hf'
    · rw [second.kept _ fun g hg _ same => apart f hf' g hg same.symm, first.placed f hf' hlacks]
    · exact second.placed f hf' ((lacks f hf').trans hlacks)
  · intro p hp
    rw [second.elsewhere p fun g hg => hp g (List.mem_append_right _ hg),
      first.elsewhere p fun f hf => hp f (List.mem_append_left _ hf)]
  · intro p hp
    rw [second.kept p fun g hg hlacks => hp g (List.mem_append_right _ hg) (lacks g hg ▸ hlacks),
      first.kept p fun f hf => hp f (List.mem_append_left _ hf)]
  · intro p
    rw [second.changed, first.changed, or_assoc]
    simp only [List.mem_append, or_and_right, exists_or]
    refine or_congr_right (or_congr_right (exists_congr fun g => ?_))
    exact and_congr_right fun hg => by rw [lacks g hg]
  · have hfilter : gs.filter (lacksFactory o mid) = gs.filter (lacksFactory o h) :=
      List.filter_congr lacks
    rw [second.revision, first.revision, hfilter, List.filter_append, List.length_append,
      Nat.add_assoc]

/-! ### Generating -/

/-- A factory that is provided is written unless the host serves it. -/
theorem renewed_provide {f : SourceFile} (normal : (placeOf o f).IsNormal)
    (hprovide : provide (placeOf o f) (factoryOf o f).content h = (.ok (), after)) :
    Renewed o [f] h after := by
  have settled : (placeOf o f).normalize = placeOf o f := normal
  have read := renewed_retainAll o h [placeOf o f]
  unfold provide at hprovide
  cases hread : h.read (placeOf o f) with
  | error e => simp [hread] at hprovide
  | ok served =>
    rw [hread] at hprovide
    dsimp only at hprovide
    generalize h.retainAll [placeOf o f] = retained at read hprovide
    have same : retained.read (placeOf o f) = h.read (placeOf o f) :=
      congrArg Host.orMissing (read.elsewhere (placeOf o f) (List.forall_mem_nil _))
    split at hprovide
    next hserved =>
      cases hprovide
      have has : lacksFactory o h f = false := lacksFactory_eq_false_iff.mpr (hserved ▸ hread)
      constructor
      · exact read.files_eq
      · exact List.forall_mem_singleton.mpr (same.trans (hserved ▸ hread))
      · simp [has]
      · exact fun p _ => read.elsewhere p (List.forall_mem_nil _)
      · exact fun p _ => read.kept p (List.forall_mem_nil _)
      · simpa [has] using read.changed
      · simpa [has] using read.revision
    next hserved =>
      cases hprovide
      have lacks : lacksFactory o h f = true := by
        by_contra has
        rw [Bool.not_eq_true, lacksFactory_eq_false_iff, hread] at has
        exact hserved (Except.ok.inj has)
      have held := retained.cache.get?_write (placeOf o f) (factoryOf o f).content false
      have heldUnread := retained.cache.get?_unread_write (placeOf o f) (factoryOf o f).content false
      rw [settled] at held heldUnread
      constructor
      · exact read.files_eq
      · refine List.forall_mem_singleton.mpr ?_
        have hself := held (placeOf o f)
        rw [if_pos (show (placeOf o f).Same (placeOf o f) from rfl)] at hself
        simp only [Host.read, Host.mapCache, SourceCache.serve, settled, hself, Host.orMissing]
      · refine List.forall_mem_singleton.mpr fun _ => (heldUnread _).trans ?_
        exact if_pos (show (placeOf o f).Same (placeOf o f) from rfl)
      · intro p hp
        rw [← read.elsewhere p (List.forall_mem_nil _)]
        simp only [Host.mapCache, SourceCache.serve, held,
          if_neg (hp f (List.mem_singleton.mpr rfl))]
        rfl
      · intro p hp
        refine (heldUnread p).trans ?_
        rw [if_neg (hp f (List.mem_singleton.mpr rfl) lacks), read.kept p (List.forall_mem_nil _)]
      · intro p
        have touched := OrderedSet.contains_insert retained.cache.changed (placeOf o f).normalize p
        refine (Bool.eq_iff_iff.mp touched).trans ?_
        rw [Bool.or_eq_true, decide_eq_true_eq, settled, read.changed p]
        simp [lacks, or_comm, Path.Same]
      · show retained.cache.revision + 1 = _
        simp [lacks, read.revision]

/-- Generating the factories of sources with different places renews them, and gives their places. -/
theorem renewed_generateAll {fs : List SourceFile} {targets : List Path}
    (normal : ∀ f ∈ fs.filter (getsFactory o), (placeOf o f).IsNormal)
    (apart : (fs.filter (getsFactory o)).Pairwise fun f g => ¬ (placeOf o f).Same (placeOf o g))
    (hall : generateAll o loader fs h = (.ok targets, after)) :
    targets = (fs.filter (getsFactory o)).map (placeOf o) ∧
      Renewed o (fs.filter (getsFactory o)) h after := by
  induction fs generalizing h targets with
  | nil =>
    cases hall
    exact ⟨rfl, renewed_retainAll o _ []⟩
  | cons f fs ih =>
    unfold generateAll at hall
    rw [generateFor_eq] at hall
    cases hgets : getsFactory o f with
    | false =>
      rw [List.filter_cons_of_neg (by simp [hgets])] at normal apart ⊢
      simp only [hgets, Bool.false_eq_true, if_false] at hall
      cases hrest : generateAll o loader fs h with
      | mk result last =>
        rw [hrest] at hall
        cases result with
        | error e => cases hall
        | ok rest =>
          cases hall
          exact ih normal apart hrest
    | true =>
      rw [List.filter_cons_of_pos hgets] at normal apart ⊢
      obtain ⟨hnormal, normal'⟩ := List.forall_mem_cons.mp normal
      obtain ⟨hapart, apart'⟩ := List.pairwise_cons.mp apart
      simp only [hgets, if_true] at hall
      cases hload : loadAll (loader.load h.cache.files) (resourcesOf f) with
      | error e => simp [hload] at hall
      | ok =>
        cases hprovide : provide (placeOf o f) (factoryOf o f).content h with
        | mk provided next =>
          cases provided with
          | error e => simp [hload, hprovide] at hall
          | ok =>
            simp only [hload, hprovide] at hall
            cases hrest : generateAll o loader fs next with
            | mk result last =>
              rw [hrest] at hall
              cases result with
              | error e => cases hall
              | ok rest =>
                cases hall
                obtain ⟨rfl, renewed⟩ := ih normal' apart' hrest
                have first := renewed_provide hnormal hprovide
                refine ⟨rfl, first.append renewed normal ?_⟩
                exact List.forall_mem_singleton.mpr hapart

/-! ### The sources -/

/-- The sources that a generation for a program provides factories for. -/
def decoratedFiles (o : BuildOptions) (P : Program) (h : Host) : List SourceFile :=
  (reachedFiles o P h).filter (getsFactory o)

/-- All paths are normal, and all sources that get a factory lie below the base path. -/
structure WellPlaced (o : BuildOptions) (P : Program) (h : Host) : Prop where
  absolute : o.basePath.isAbsolute = true
  normal : o.genDir.IsNormal
  program : ∀ p ∈ P.paths, p.IsNormal
  held : ∀ e ∈ h.cache.entries.entries, e.1.IsNormal
  below : ∀ f ∈ decoratedFiles o P h, o.basePath.Below f.path

variable {P : Program} {f : SourceFile}

/-- What is at a settled path has that path as its normal path. -/
theorem fileAt?_path (program : ∀ p ∈ P.paths, p.IsNormal) {p : Path} (settled : p.IsSettled)
    (hf : Route.fileAt? P h p = some f) : f.path.IsNormal ∧ f.path.Same p := by
  unfold Route.fileAt? at hf
  split at hf
  next g hg =>
    cases hf
    obtain ⟨e, he, rfl⟩ := Option.map_eq_some_iff.mp hg
    obtain ⟨hmem, hkey⟩ := OrderedMap.find?_eq_some_iff.mp he
    exact ⟨program _ (OrderedMap.mem_keys.mpr ⟨e.2, hmem⟩), hkey⟩
  next =>
    obtain ⟨hpath, -⟩ := Host.source_eq_some_iff.mp (Route.readable?_eq_some_iff.mp hf)
    rw [hpath]
    exact ⟨Path.isNormal_normalize p, settled.normalize_same⟩

/-- No file is reached twice, and each is reached under its normal path. -/
theorem reachedFiles_apart (program : ∀ p ∈ P.paths, p.IsNormal) :
    (reachedFiles o P h).Pairwise (fun f g => ¬ f.path.Same g.path) ∧
      ∀ f ∈ reachedFiles o P h, f.path.IsNormal := by
  have start : ∀ p ∈ P.paths.filter (isInput o), p.IsSettled :=
    fun p hp => (program p (List.mem_of_mem_filter hp)).isSettled
  have explores := Route.explores_fileAt? P h fun p hp => .inr (start p hp)
  have leads : ∀ (p : Path) (f : SourceFile), p.IsSettled → ∀ q ∈ Route.successors h f, q.IsSettled :=
    fun _ _ _ q hq => Route.isSettled_of_mem_successors hq
  constructor
  · refine (explores.apart_of_found (G := Path.IsSettled) (N := SourceFile.path)
      (fun p f settled hf => ?_) (fun p f settled _ => leads p f settled) start).1
    exact (fileAt?_path program settled (Except.ok.inj hf)).2
  · intro f hf
    obtain ⟨p, hp, hvisit⟩ := explores.reached_of_found (fun q hq => .start hq) f hf
    have settled : p.IsSettled := by
      cases hp with
      | start hp => exact start p hp
      | next _ _ hq => exact Route.isSettled_of_mem_successors hq
    exact (fileAt?_path program settled (Except.ok.inj hvisit)).1

namespace WellPlaced

theorem covers (placed : WellPlaced o P h) (hf : f ∈ decoratedFiles o P h) :
    Covers (planOf o) f.path := by
  obtain ⟨hreached, hgets⟩ := List.mem_filter.mp hf
  simp only [getsFactory, isInput, Bool.and_eq_true, Bool.not_eq_true'] at hgets
  exact ⟨(reachedFiles_apart placed.program).2 f hreached, placed.below f hf, hgets.1.1.1,
    hgets.1.1.2⟩

theorem below_placeOf (placed : WellPlaced o P h) (hf : f ∈ decoratedFiles o P h) :
    o.genDir.Below (placeOf o f) := by
  have hplan : (planOf o).base.isAbsolute = true := placed.absolute
  exact below_factoryPath hplan placed.normal (placed.covers hf)

/-- No two factories have one place. -/
theorem places_apart (placed : WellPlaced o P h) :
    (decoratedFiles o P h).Pairwise fun f g => ¬ (placeOf o f).Same (placeOf o g) := by
  have hplan : (planOf o).base.isAbsolute = true := placed.absolute
  refine ((reachedFiles_apart placed.program).1.filter _).imp_of_mem ?_
  intro f g hf hg apart same
  have hpath := factoryPath_injective hplan (placed.covers hf) (placed.covers hg) same
  exact apart (congrArg Path.components hpath)

end WellPlaced

theorem isNormal_placeOf (o : BuildOptions) (f : SourceFile) : (placeOf o f).IsNormal :=
  Path.isNormal_normalize _

/-! ### Retiring -/

/-- The written files below the directory of generated files that are no factories of the sources. -/
def orphans (o : BuildOptions) (fs : List SourceFile) (h : Host) : List Path :=
  h.cache.stale o.genDir (fs.map (placeOf o))

/-- What a generation for some sources leaves behind: their factories and nothing else below the
directory of generated files. What it changes is what it had to write and what it retired. -/
structure Leaves (o : BuildOptions) (fs : List SourceFile) (h after : Host) : Prop where
  served : ∀ f ∈ fs, after.read (placeOf o f) =
    .ok (some (render f.path (placeOf o f) (decoratedClasses f) o.i18n.locale))
  generated : ∀ w ∈ after.cache.writtenFiles, o.genDir.Below w.path → ∃ f ∈ fs, w.path = placeOf o f
  untouched : ∀ w : WrittenFile, ¬ o.genDir.Below w.path →
    (w ∈ after.cache.writtenFiles ↔ w ∈ h.cache.writtenFiles)
  changed : ∀ p : Path, after.cache.changed.contains p = true ↔
    h.cache.changed.contains p = true ∨
      (∃ f ∈ fs, lacksFactory o h f = true ∧ (placeOf o f).Same p) ∨ ∃ q ∈ orphans o fs h, q.Same p
  revision : after.cache.revision =
    h.cache.revision + (fs.filter (lacksFactory o h)).length + (orphans o fs h).length

/-- Nothing of what is held has another key than a normal path after a host was used. -/
theorem isNormal_of_uses (use : h.Uses after) (held : ∀ e ∈ h.cache.entries.entries, e.1.IsNormal) :
    ∀ e ∈ after.cache.entries.entries, e.1.IsNormal := by
  -- where every path counts as edited, soundness says no more than that
  have sound : h.cache.Sound h.cache.entries.keys := by
    refine ⟨held, fun e he _ => .inl (List.mem_map.mpr ⟨e.1, ?_, held e he⟩)⟩
    exact OrderedMap.mem_keys.mpr ⟨e.2, he⟩
  exact (use.sound sound).normal

/-- Providing factories leaves those files that will be retired as they are. -/
theorem Renewed.orphans_eq {fs : List SourceFile} (renewed : Renewed o fs h after)
    (held : ∀ e ∈ h.cache.entries.entries, e.1.IsNormal)
    (held' : ∀ e ∈ after.cache.entries.entries, e.1.IsNormal) :
    orphans o fs after = orphans o fs h := by
  have spelled : ∀ (p q : Path) (e : CacheEntry), q.components = p.components →
      (!q.isAmong (fs.map (placeOf o))) = !p.isAmong (fs.map (placeOf o)) :=
    fun p q _ hkey => congrArg not (Path.isAmong_congr hkey _)
  have kept : (after.cache.unread.entries.filter fun p _ => !p.isAmong (fs.map (placeOf o))) =
      h.cache.unread.entries.filter fun p _ => !p.isAmong (fs.map (placeOf o)) := by
    refine OrderedMap.ext_get? (Q := Path.IsNormal) (fun hp hq hkey => hp.eq_of_same hq hkey)
      (fun e he => ?_) (fun e he => ?_) fun p => ?_
    · exact held' e (List.mem_of_mem_filter (List.mem_of_mem_filter he))
    · exact held e (List.mem_of_mem_filter (List.mem_of_mem_filter he))
    · rw [OrderedMap.get?_filter _ _ _ (spelled p), OrderedMap.get?_filter _ _ _ (spelled p)]
      cases hamong : p.isAmong (fs.map (placeOf o)) with
      | true => simp
      | false =>
        rw [renewed.kept p fun f hf _ same => ?_]
        have : p.isAmong (fs.map (placeOf o)) = true :=
          List.any_eq_true.mpr ⟨_, List.mem_map_of_mem hf, decide_eq_true same⟩
        simp [hamong] at this
  unfold orphans
  rw [SourceCache.stale_eq, SourceCache.stale_eq, kept]

/-- Once the factories were provided, retiring the others leaves what a generation is to leave. -/
theorem Renewed.leaves_retire {fs : List SourceFile} (renewed : Renewed o fs h mid)
    (normal : o.genDir.IsNormal) (held : ∀ e ∈ h.cache.entries.entries, e.1.IsNormal)
    (held' : ∀ e ∈ mid.cache.entries.entries, e.1.IsNormal)
    (below : ∀ f ∈ fs, o.genDir.Below (placeOf o f)) :
    Leaves o fs h (mid.mapCache fun c => c.retire o.genDir (fs.map (placeOf o))) := by
  have hget : ∀ q, (mid.mapCache fun c => c.retire o.genDir
      (fs.map (placeOf o))).cache.unread.entries.get? q =
        if o.genDir.Below q ∧ ∀ k ∈ fs.map (placeOf o), ¬ k.Same q then none
        else mid.cache.unread.entries.get? q :=
    mid.cache.get?_unread_retire normal (fs.map (placeOf o))
  have hheld := isNormal_of_uses (Host.Uses.refl.retire o.genDir (fs.map (placeOf o))) held'
  have retired : (mid.mapCache fun c => c.retire o.genDir (fs.map (placeOf o))).cache =
      (orphans o fs h).foldl SourceCache.drop mid.cache := by
    rw [← renewed.orphans_eq held held']
    rfl
  obtain ⟨files, -, revision⟩ := mid.cache.dropAll_frame (orphans o fs h)
  generalize (mid.mapCache fun c => c.retire o.genDir (fs.map (placeOf o))) = after
    at hget hheld retired ⊢
  constructor
  · intro f hf
    have kept : ¬ ∃ q ∈ orphans o fs h, q.Same (placeOf o f) := by
      rintro ⟨q, hq, same⟩
      have among : q.isAmong (fs.map (placeOf o)) = true :=
        List.any_eq_true.mpr ⟨_, List.mem_map_of_mem hf, decide_eq_true same.symm⟩
      have apart := List.of_mem_filter hq
      simp [among] at apart
    have settled : (placeOf o f).normalize = placeOf o f := isNormal_placeOf o f
    have hserve := renewed.served f hf
    simp only [Host.read, SourceCache.serve, settled] at hserve
    simp only [Host.read, SourceCache.serve, settled, retired, SourceCache.get?_dropAll, kept,
      if_false, files]
    exact hserve
  · intro w hw hbelow
    obtain ⟨hpath, hw⟩ := (SourceCache.mem_writtenFiles_iff_get? hheld).mp hw
    by_contra other
    have gone : after.cache.unread.entries.get? w.path = none := by
      refine (hget w.path).trans (if_pos ⟨hbelow, fun k hk same => ?_⟩)
      obtain ⟨f, hf, rfl⟩ := List.mem_map.mp hk
      exact other ⟨f, hf, hpath.eq_of_same (isNormal_placeOf o f) same.symm⟩
    cases gone.symm.trans hw
  · intro w hw
    have hkept := renewed.kept w.path fun f hf _ same => hw ((below f hf).congr same)
    rw [SourceCache.mem_writtenFiles_iff_get? hheld, SourceCache.mem_writtenFiles_iff_get? held, hget,
      if_neg fun stale => hw stale.1, hkept]
  · intro p
    rw [retired, SourceCache.contains_changed_dropAll, renewed.changed]
    exact or_comm.trans or_assoc
  · rw [retired, revision, renewed.revision]

/-- A generation that succeeds leaves the factories of all decorated files that are reached, whatever
was there before. -/
theorem leaves_of_generate (placed : WellPlaced o P h)
    (succeeded : generate o loader P h = (.ok (), after)) :
    Leaves o (decoratedFiles o P h) h after := by
  have use : h.Uses (generateAll o loader (reachedFiles o P h)
      (Route.afterReach P h (reachedFiles o P h))).2 :=
    generateAll_induction (fun _ p use => use.read p) loader _
      (fun _ _ _ _ content use => use.write _ content false) (h.uses_retainAll _)
  unfold generate at succeeded
  cases messages : loadMessages o loader h with
  | error e =>
    rw [messages] at succeeded
    cases succeeded
  | ok =>
    rw [messages] at succeeded
    dsimp only at succeeded
    cases hall : generateAll o loader (reachedFiles o P h)
        (Route.afterReach P h (reachedFiles o P h)) with
    | mk result last =>
      rw [hall] at succeeded use
      cases result with
      | error e => cases succeeded
      | ok produced =>
        cases succeeded
        obtain ⟨rfl, renewed⟩ :=
          renewed_generateAll (fun f _ => isNormal_placeOf o f) placed.places_apart hall
        have whole := (renewed_retainAll o h _).append renewed (fun f _ => isNormal_placeOf o f)
          (List.forall_mem_nil _)
        exact whole.leaves_retire placed.normal placed.held (isNormal_of_uses use placed.held)
          fun f hf => placed.below_placeOf hf

/-- A written file stays one as long as nothing is retired. -/
theorem isSome_get?_generateAll (fs : List SourceFile) {p : Path}
    (written : (h.cache.unread.entries.get? p).isSome = true) :
    ((generateAll o loader fs h).2.cache.unread.entries.get? p).isSome = true := by
  refine generateAll_induction (Q := fun g => (g.cache.unread.entries.get? p).isSome = true)
    (fun g q hg => ?_) loader fs (fun f _ _ g content hg => ?_) written
  · show ((g.cache.retain q).unread.entries.get? p).isSome = true
    rwa [SourceCache.unread_retain]
  · show ((g.cache.write (placeOf o f) content false).unread.entries.get? p).isSome = true
    rw [SourceCache.get?_unread_write]
    split
    · rfl
    · exact hg

/-- A generation that fails retires nothing. -/
theorem exists_written_of_generate_error (held : ∀ e ∈ h.cache.entries.entries, e.1.IsNormal)
    {e : GenerationError} (failed : generate o loader P h = (.error e, after)) {w : WrittenFile}
    (hw : w ∈ h.cache.writtenFiles) : ∃ w' ∈ after.cache.writtenFiles, w'.path = w.path := by
  have use : h.Uses after := by
    have use := uses_generate o loader P h
    rwa [failed] at use
  have written : (h.cache.unread.entries.get? w.path).isSome = true :=
    SourceCache.isSome_get?_unread_iff.mpr ⟨w, hw, rfl⟩
  have still : (after.cache.unread.entries.get? w.path).isSome = true := by
    unfold generate at failed
    cases messages : loadMessages o loader h with
    | error e =>
      rw [messages] at failed
      cases failed
      exact written
    | ok =>
      rw [messages] at failed
      dsimp only at failed
      have kept : ((generateAll o loader (reachedFiles o P h) (Route.afterReach P h
          (reachedFiles o P h))).2.cache.unread.entries.get? w.path).isSome = true := by
        refine isSome_get?_generateAll _ ?_
        rwa [Route.afterReach, Host.retainAll, Host.mapCache, SourceCache.unread_retainAll]
      cases hall : generateAll o loader (reachedFiles o P h)
          (Route.afterReach P h (reachedFiles o P h)) with
      | mk result last =>
        rw [hall] at failed kept
        cases result with
        | ok produced => cases failed
        | error e =>
          cases failed
          exact kept
  obtain ⟨w', hw', same⟩ := SourceCache.isSome_get?_unread_iff.mp still
  have normal' := ((SourceCache.mem_writtenFiles_iff_get? (isNormal_of_uses use held)).mp hw').1
  have normal := ((SourceCache.mem_writtenFiles_iff_get? held).mp hw).1
  exact ⟨w', hw', normal'.eq_of_same normal same⟩

/-- A generation that succeeds leaves the factories of all decorated files that are reached, whatever
was there before; one that fails retires nothing. -/
theorem generate_leaves (loader : ResourceLoader) (placed : WellPlaced o P h) :
    match generate o loader P h with
    | (.ok (), after) => Leaves o (decoratedFiles o P h) h after
    | (.error _, after) =>
      ∀ w ∈ h.cache.writtenFiles, ∃ w' ∈ after.cache.writtenFiles, w'.path = w.path := by
  cases hgenerate : generate o loader P h with
  | mk result after =>
    cases result with
    | ok => exact leaves_of_generate placed hgenerate
    | error e => exact fun w hw => exists_written_of_generate_error placed.held hgenerate hw

/-- A build over the root directory. -/
def agedOptions : BuildOptions where
  tsConfigPath := ⟨"/tsconfig.json"⟩
  basePath := ⟨"/"⟩
  roots := [⟨"/a.ts"⟩, ⟨"/b.ts"⟩]
  compiler := .empty
  codegen := .empty
  genDir := ⟨"/g"⟩
  skipCodeGeneration := false
  typeChecking := true
  i18n := ⟨none, none, none⟩
  entryModule := none
  mainPath := none
  overrides := .empty

/-- Two modules. -/
def agedFiles : MemoryFiles :=
  (MemoryFiles.empty.insert ⟨"/a.ts"⟩ "@NgModule()class A").insert ⟨"/b.ts"⟩ "@NgModule()class B"

/-- A host that holds the factory of the first module, an old one of the second module and one of a
module that is gone, and beside them an override. -/
def agedHost : Host :=
  [(⟨"/g/a.ngfactory.ts"⟩, (factoryOf agedOptions ⟨⟨"/a.ts"⟩, "@NgModule()class A"⟩).content),
    (⟨"/g/b.ngfactory.ts"⟩, ""), (⟨"/g/c.ngfactory.ts"⟩, ""), (⟨"/x.ts"⟩, "")].foldl
    (fun (h : Host) f => h.mapCache (·.write f.1 f.2 false))
    (.ofFiles (.memory agedFiles) ⟨"/"⟩)

/-- The program of the two modules. -/
def agedProgram : Program where
  roots := agedOptions.roots
  files := .ofList [(⟨"/a.ts"⟩, "@NgModule()class A"), (⟨"/b.ts"⟩, "@NgModule()class B")]
  options := .empty

/-- Only the old factory is written, and only the one without a module is retired. -/
theorem generate_leaves_aged : ∃ after,
    generate agedOptions .ofFiles agedProgram agedHost = (.ok (), after) ∧
      (∀ w ∈ after.cache.writtenFiles, agedOptions.genDir.Below w.path →
        w.path ∈ [⟨"/g/a.ngfactory.ts"⟩, ⟨"/g/b.ngfactory.ts"⟩]) ∧
      ⟨⟨"/x.ts"⟩, "", false⟩ ∈ after.cache.writtenFiles ∧
      after.cache.revision = agedHost.cache.revision + 1 + 1 := by
  obtain ⟨program, held, below, succeeded⟩ : (∀ p ∈ agedProgram.paths, p.IsNormal) ∧
      (∀ e ∈ agedHost.cache.entries.entries, e.1.IsNormal) ∧
      (∀ f ∈ decoratedFiles agedOptions agedProgram agedHost, agedOptions.basePath.Below f.path) ∧
      (generate agedOptions .ofFiles agedProgram agedHost).1.toOption = some () := by
    decide +kernel
  obtain ⟨places, renewed, retired, override⟩ :
      (decoratedFiles agedOptions agedProgram agedHost).map (placeOf agedOptions) =
        [⟨"/g/a.ngfactory.ts"⟩, ⟨"/g/b.ngfactory.ts"⟩] ∧
      ((decoratedFiles agedOptions agedProgram agedHost).filter
        (lacksFactory agedOptions agedHost)).length = 1 ∧
      (orphans agedOptions (decoratedFiles agedOptions agedProgram agedHost) agedHost).length = 1 ∧
      (⟨⟨"/x.ts"⟩, "", false⟩ : WrittenFile) ∈ agedHost.cache.writtenFiles := by
    decide +kernel
  have leaves := generate_leaves (o := agedOptions) .ofFiles
    ⟨by decide +kernel, by decide +kernel, program, held, below⟩
  cases hgenerate : generate agedOptions .ofFiles agedProgram agedHost with
  | mk result after =>
    rw [hgenerate] at leaves succeeded
    cases result with
    | error e => cases succeeded
    | ok =>
      refine ⟨after, rfl, fun w hw hbelow => ?_, ?_, ?_⟩
      · obtain ⟨f, hf, hpath⟩ := leaves.generated w hw hbelow
        exact places ▸ hpath ▸ List.mem_map_of_mem hf
      · exact (leaves.untouched _ (by decide +kernel)).mpr override
      · rw [leaves.revision, renewed, retired]

end Factory

end Precompile
