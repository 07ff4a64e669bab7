import Precompile.Proofs.Factory.Generator
import Precompile.Proofs.Factory.Place
import Precompile.Proofs.Route.Discovery

/-!
What a generation leaves behind.

Where nothing else lies below the directory of generated files, a generation succeeds exactly when
all resources can be loaded. Afterwards the written files below that directory are the factories of
the decorated sources that were reached, and no other written file has changed (`Generated`).
-/

namespace Precompile.Factory

/-- The factory of a source, as it is held in memory. -/
def factoryOf (o : BuildOptions) (f : SourceFile) : CacheEntry :=
  ⟨render f.path (placeOf o f) (decoratedClasses f) o.i18n.locale, .written false⟩

/-- The resources that the classes of a source name. -/
def resourcesOf (f : SourceFile) : List Path :=
  ((decoratedClasses f).flatMap DecoratedClass.templateUrls).map (resourcePath f.path)

theorem generateFor_eq (o : BuildOptions) (loader : ResourceLoader) (f : SourceFile) (h : Host) :
    generateFor o loader f h =
      if getsFactory o f then
        match loadAll (loader.load h.cache.files) (resourcesOf f) with
        | .error e => (.error e, h)
        | .ok () =>
          match provide (placeOf o f) (factoryOf o f).content h with
          | (.ok (), after) => (.ok (some (placeOf o f)), after)
          | (.error e, after) => (.error e, after)
      else (.ok none, h) := by
  have hsplit : (!isInput o f.path || (decoratedClasses f).isEmpty) = !getsFactory o f := by
    simp [getsFactory]
  unfold generateFor
  dsimp only
  rw [hsplit]
  cases getsFactory o f with
  | false => rfl
  | true =>
    simp only [Bool.not_true, Bool.false_eq_true, if_false, if_true]
    unfold resourcesOf placeOf factoryOf
    cases loadAll (loader.load h.cache.files) _ with
    | error e => rfl
    | ok => rfl

/-! ### Below the directory of generated files -/

/-- Nothing but files written for the build lies below a directory. -/
structure Tidy (dir : Path) (h : Host) : Prop where
  sound : h.cache.Sound []
  virtual : h.cache.Virtual
  vacant : ∀ p : Path, p.IsNormal → dir.Below p → h.cache.files.read p = .error (.notFound p)

variable {dir : Path} {h : Host}

theorem Tidy.retain (tidy : Tidy dir h) (p : Path) : Tidy dir (h.mapCache (·.retain p)) where
  sound := tidy.sound.retain p
  virtual := tidy.virtual.retain p
  vacant := by
    show ∀ q : Path, _ → _ → (h.cache.retain p).files.read q = _
    rw [SourceCache.files_retain]
    exact tidy.vacant

theorem Tidy.write (tidy : Tidy dir h) (p : Path) (content : String) :
    Tidy dir (h.mapCache (·.write p content false)) where
  sound := tidy.sound.write p content false
  virtual := tidy.virtual.write p content
  vacant := tidy.vacant

theorem Tidy.retire (tidy : Tidy dir h) (below : Path) (keep : List Path) :
    Tidy dir (h.mapCache (·.retire below keep)) where
  sound := tidy.sound.retire below keep
  virtual := tidy.virtual.retire below keep
  vacant := by
    have hfiles := (Host.Uses.refl (h := h)).retire below keep |>.files_eq
    rw [hfiles]
    exact tidy.vacant

theorem Tidy.retainAll (tidy : Tidy dir h) (ps : List Path) : Tidy dir (h.retainAll ps) :=
  Host.retainAll_induction (fun _ p tidy => tidy.retain p) ps tidy

/-- A place below the directory has what was written there. -/
theorem Tidy.serve_eq (tidy : Tidy dir h) {p : Path} (normal : p.IsNormal) (below : dir.Below p) :
    h.cache.serve p = match h.cache.unread.entries.get? p with
      | some e => .ok e.content
      | none => .error (.notFound p) := by
  have hp : p.normalize = p := normal
  rw [← SourceCache.serve_unread tidy.sound p, SourceCache.serve, hp]
  cases h.cache.unread.entries.get? p with
  | some e => rfl
  | none => exact tidy.vacant p normal below

theorem Tidy.origin_eq (tidy : Tidy dir h) {p : Path} {e : CacheEntry}
    (he : h.cache.unread.entries.get? p = some e) : e.origin = .written false := by
  rw [SourceCache.get?_unread, Option.filter_eq_some_iff] at he
  obtain ⟨q, hmem, -⟩ := OrderedMap.get?_eq_some_iff.mp he.1
  have hvirtual := tidy.virtual _ hmem
  have hwritten := he.2
  unfold CacheEntry.isWritten at hwritten
  cases horigin : e.origin with
  | disk => simp [horigin] at hwritten
  | written emit =>
    cases emit with
    | false => rfl
    | true => exact absurd horigin hvirtual

/-! ### Generating -/

variable {o : BuildOptions} {loader : ResourceLoader}

/-- A text that is provided below the directory is held there as written, whether it had to be
written or not. -/
theorem provide_tidy (tidy : Tidy dir h) {target : Path} (normal : target.IsNormal)
    (below : dir.Below target) (content : String) :
    ∃ after, provide target content h = (.ok (), after) ∧ Tidy dir after ∧
      after.cache.files = h.cache.files ∧
      ∀ q, after.cache.unread.entries.get? q =
        if target.Same q then some ⟨content, .written false⟩ else h.cache.unread.entries.get? q := by
  have htarget : target.normalize = target := normal
  have hread : h.read target =
      .ok ((h.cache.unread.entries.get? target).map CacheEntry.content) := by
    rw [Host.read, tidy.serve_eq normal below]
    cases h.cache.unread.entries.get? target <;> rfl
  unfold provide
  rw [hread]
  dsimp only
  split
  next hserved =>
    refine ⟨h.retainAll [target], rfl, tidy.retainAll _, SourceCache.files_retain _ _, fun q => ?_⟩
    have hunread : (h.retainAll [target]).cache.unread = h.cache.unread :=
      SourceCache.unread_retainAll h.cache [target]
    rw [hunread]
    split
    next hsame =>
      -- what is served there was written, so it is the same entry
      obtain ⟨e, he, hcontent⟩ := Option.map_eq_some_iff.mp hserved
      rw [← OrderedMap.get?_congr _ hsame, he, ← hcontent, ← tidy.origin_eq he]
    next => rfl
  next =>
    refine ⟨_, rfl, (tidy.retainAll [target]).write target content,
      SourceCache.files_retain h.cache target, fun q => ?_⟩
    have hunread : (h.retainAll [target]).cache.unread = h.cache.unread :=
      SourceCache.unread_retainAll h.cache [target]
    show ((h.retainAll [target]).cache.write target content false).unread.entries.get? q = _
    rw [SourceCache.get?_unread_write, hunread, htarget]

/-- The resources of a source can be loaded, if it gets a factory. -/
def Loads (o : BuildOptions) (loader : ResourceLoader) (files : FileSystem) (f : SourceFile) :
    Prop :=
  getsFactory o f = true → loadAll (loader.load files) (resourcesOf f) = .ok ()

theorem generateFor_tidy (tidy : Tidy dir h) {f : SourceFile}
    (below : getsFactory o f = true → dir.Below (placeOf o f))
    (loads : Loads o loader h.cache.files f) :
    ∃ after, generateFor o loader f h =
        (.ok (if getsFactory o f then some (placeOf o f) else none), after) ∧
      Tidy dir after ∧ after.cache.files = h.cache.files ∧
      ∀ q, after.cache.unread.entries.get? q =
        if getsFactory o f = true ∧ (placeOf o f).Same q then some (factoryOf o f)
        else h.cache.unread.entries.get? q := by
  rw [generateFor_eq]
  cases hgets : getsFactory o f with
  | false => exact ⟨h, rfl, tidy, rfl, fun q => by simp⟩
  | true =>
    obtain ⟨after, hprovide, htidy, hfiles, hget⟩ :=
      provide_tidy tidy (Path.isNormal_normalize _) (below hgets) (factoryOf o f).content
    have hplace : provide (placeOf o f) (factoryOf o f).content h = (.ok (), after) := hprovide
    refine ⟨after, ?_, htidy, hfiles, fun q => ?_⟩
    · rw [loads hgets, hplace]
      rfl
    · rw [hget q]
      simp only [true_and]
      rfl

/-- Where all resources can be loaded and no two sources claim one place for different texts,
generating succeeds, and each factory is held at its place afterwards. -/
theorem generateAll_tidy (tidy : Tidy dir h) {fs : List SourceFile}
    (below : ∀ f ∈ fs, getsFactory o f = true → dir.Below (placeOf o f))
    (apart : ∀ f ∈ fs, ∀ g ∈ fs, getsFactory o f = true → getsFactory o g = true →
      (placeOf o f).Same (placeOf o g) → factoryOf o f = factoryOf o g)
    (loads : ∀ f ∈ fs, Loads o loader h.cache.files f) :
    ∃ after, generateAll o loader fs h = (.ok ((fs.filter (getsFactory o)).map (placeOf o)), after) ∧
      Tidy dir after ∧
      (∀ f ∈ fs, getsFactory o f = true →
        after.cache.unread.entries.get? (placeOf o f) = some (factoryOf o f)) ∧
      ∀ q, (∀ f ∈ fs, getsFactory o f = true → ¬ (placeOf o f).Same q) →
        after.cache.unread.entries.get? q = h.cache.unread.entries.get? q := by
  induction fs generalizing h with
  | nil => exact ⟨h, rfl, tidy, by simp, fun _ _ => rfl⟩
  | cons f fs ih =>
    obtain ⟨next, hfor, hnext, hfiles, hget⟩ :=
      generateFor_tidy tidy (below f List.mem_cons_self) (loads f List.mem_cons_self)
    obtain ⟨after, hall, hafter, hplaced, hkept⟩ := ih hnext
      (fun g hg => below g (List.mem_cons_of_mem _ hg))
      (fun g hg g' hg' => apart g (List.mem_cons_of_mem _ hg) g' (List.mem_cons_of_mem _ hg'))
      (fun g hg => hfiles ▸ loads g (List.mem_cons_of_mem _ hg))
    refine ⟨after, ?_, hafter, fun g hg hgets => ?_, fun q hq => ?_⟩
    · simp only [generateAll, hfor, hall, List.filter_cons]
      cases getsFactory o f <;> rfl
    · -- the last source that claims the place decides over it
      by_cases later : ∃ g' ∈ fs, getsFactory o g' = true ∧ (placeOf o g').Same (placeOf o g)
      · obtain ⟨g', hg', hgets', hsame⟩ := later
        rw [← OrderedMap.get?_congr _ hsame, hplaced g' hg' hgets',
          apart g' (List.mem_cons_of_mem _ hg') g hg hgets' hgets hsame]
      · have hgf : g = f := by
          rcases List.mem_cons.mp hg with rfl | hg
          · rfl
          · exact absurd ⟨g, hg, hgets, rfl⟩ later
        subst hgf
        rw [hkept _ fun g' hg' hgets' hsame => later ⟨g', hg', hgets', hsame⟩, hget,
          if_pos ⟨hgets, rfl⟩]
    · rw [hkept q fun g hg => hq g (List.mem_cons_of_mem _ hg), hget,
        if_neg fun hf => hq f List.mem_cons_self hf.1 hf.2]

/-- Generating fails where a resource cannot be loaded. -/
theorem loads_of_generateAll {fs : List SourceFile} {targets : List Path} {after : Host}
    (hall : generateAll o loader fs h = (.ok targets, after)) :
    ∀ f ∈ fs, Loads o loader h.cache.files f := by
  induction fs generalizing h targets after with
  | nil => simp
  | cons f fs ih =>
    have hfiles := (uses_generateFor o loader f h).files_eq
    unfold generateAll at hall
    cases hfor : generateFor o loader f h with
    | mk result next =>
      rw [hfor] at hall hfiles
      cases result with
      | error e => cases hall
      | ok target =>
        have hloads : Loads o loader h.cache.files f := by
          intro hgets
          rw [generateFor_eq, if_pos hgets] at hfor
          cases hload : loadAll (loader.load h.cache.files) (resourcesOf f) with
          | ok => rfl
          | error e =>
            rw [hload] at hfor
            cases hfor
        dsimp only at hall hfiles
        cases hrest : generateAll o loader fs next with
        | mk result' last =>
          rw [hrest] at hall
          cases result' with
          | error e => cases hall
          | ok targets' =>
            intro g hg
            rcases List.mem_cons.mp hg with rfl | hg
            · exact hloads
            · exact hfiles ▸ ih hrest g hg

/-! ### Generations -/

/-- What a generation for some sources makes of the written files. -/
structure Generated (o : BuildOptions) (fs : List SourceFile) (h after : Host) : Prop where
  tidy : Tidy o.genDir after
  placed : ∀ f ∈ fs, after.cache.unread.entries.get? (placeOf o f) = some (factoryOf o f)
  retired : ∀ q, o.genDir.Below q → (∀ f ∈ fs, ¬ (placeOf o f).Same q) →
    after.cache.unread.entries.get? q = none
  kept : ∀ q, ¬ o.genDir.Below q →
    after.cache.unread.entries.get? q = h.cache.unread.entries.get? q

/-- Where everything can be loaded, a generation succeeds and leaves the factories of the sources
that were reached. -/
theorem generate_tidy (loader : ResourceLoader) (tidy : Tidy o.genDir h)
    (normal : o.genDir.IsNormal) {P : Program}
    (below : ∀ f ∈ (reachedFiles o P h).filter (getsFactory o), o.genDir.Below (placeOf o f))
    (apart : ∀ f ∈ (reachedFiles o P h).filter (getsFactory o),
      ∀ g ∈ (reachedFiles o P h).filter (getsFactory o),
        (placeOf o f).Same (placeOf o g) → factoryOf o f = factoryOf o g)
    (messages : loadMessages o loader h = .ok ())
    (loads : ∀ f ∈ reachedFiles o P h, Loads o loader h.cache.files f) :
    ∃ after, generate o loader P h = (.ok (), after) ∧
      Generated o ((reachedFiles o P h).filter (getsFactory o)) h after := by
  simp only [List.mem_filter, and_imp] at below apart
  have hfiles : (Route.afterReach P h (reachedFiles o P h)).cache.files = h.cache.files :=
    (h.uses_retainAll _).files_eq
  have hunread : (Route.afterReach P h (reachedFiles o P h)).cache.unread = h.cache.unread :=
    SourceCache.unread_retainAll h.cache _
  obtain ⟨last, hall, hlast, hplaced, hkept⟩ :=
    generateAll_tidy (h := Route.afterReach P h (reachedFiles o P h)) (tidy.retainAll _) below
      (fun f hf g hg hf' hg' => apart f hf hf' g hg hg') (hfiles.symm ▸ loads)
  have hget := SourceCache.get?_unread_retire last.cache normal
    (((reachedFiles o P h).filter (getsFactory o)).map (placeOf o))
  refine ⟨last.mapCache fun c => c.retire o.genDir
    (((reachedFiles o P h).filter (getsFactory o)).map (placeOf o)), ?_, ?_⟩
  · simp only [generate, messages, hall]
  · constructor
    · exact hlast.retire _ _
    · intro f hf
      obtain ⟨hmem, hgets⟩ := List.mem_filter.mp hf
      refine (hget _).trans ?_
      rw [if_neg, hplaced f hmem hgets]
      exact fun hstale => hstale.2 _ (List.mem_map_of_mem hf) rfl
    · intro q hq hnone
      refine (hget q).trans (if_pos ⟨hq, fun k hk => ?_⟩)
      obtain ⟨f, hf, rfl⟩ := List.mem_map.mp hk
      exact hnone f hf
    · intro q hq
      refine (hget q).trans ?_
      rw [if_neg fun hstale => hq hstale.1, ← hunread]
      exact hkept q fun f hf hgets hsame => hq ((below f hf hgets).congr hsame)

/-- A generation succeeds only if everything can be loaded. -/
theorem loads_of_generate {P : Program} {after : Host}
    (hgenerate : generate o loader P h = (.ok (), after)) :
    loadMessages o loader h = .ok () ∧
      ∀ f ∈ reachedFiles o P h, Loads o loader h.cache.files f := by
  unfold generate at hgenerate
  cases hmessages : loadMessages o loader h with
  | error e =>
    rw [hmessages] at hgenerate
    cases hgenerate
  | ok =>
    rw [hmessages] at hgenerate
    dsimp only at hgenerate
    cases hall : generateAll o loader (reachedFiles o P h)
      (Route.afterReach P h (reachedFiles o P h)) with
    | mk result last =>
      rw [hall] at hgenerate
      cases result with
      | error e => cases hgenerate
      | ok targets =>
        have hfiles : (Route.afterReach P h (reachedFiles o P h)).cache.files = h.cache.files :=
          (h.uses_retainAll _).files_eq
        exact ⟨rfl, hfiles ▸ loads_of_generateAll hall⟩

/-- The written files after a generation are those of any other generation for the same sources
that started from the same files, and from the same written files outside the directory. -/
theorem Generated.unread_eq {fs fs' : List SourceFile} {h' after after' : Host}
    (generated : Generated o fs h after) (generated' : Generated o fs' h' after')
    (sub : fs ⊆ fs') (sub' : fs' ⊆ fs) (files : after.cache.files = after'.cache.files)
    (outside : ∀ q, ¬ o.genDir.Below q →
      h.cache.unread.entries.get? q = h'.cache.unread.entries.get? q) :
    after.cache.unread = after'.cache.unread := by
  have normal : ∀ {h : Host}, Tidy o.genDir h → ∀ e ∈ h.cache.unread.entries.entries, e.1.IsNormal :=
    fun tidy e he => tidy.sound.normal e (List.mem_of_mem_filter he)
  have entries : after.cache.unread.entries = after'.cache.unread.entries := by
    refine OrderedMap.ext_get? (Q := Path.IsNormal) (fun hp hq hkey => hp.eq_of_same hq hkey)
      (normal generated.tidy) (normal generated'.tidy) fun q => ?_
    -- below the directory the factories decide, and elsewhere nothing was touched
    by_cases hq : o.genDir.Below q
    · by_cases placed : ∃ f ∈ fs, (placeOf o f).Same q
      · obtain ⟨f, hf, hsame⟩ := placed
        rw [← OrderedMap.get?_congr _ hsame, ← OrderedMap.get?_congr _ hsame,
          generated.placed f hf, generated'.placed f (sub hf)]
      · rw [generated.retired q hq fun f hf hsame => placed ⟨f, hf, hsame⟩,
          generated'.retired q hq fun f hf hsame => placed ⟨f, sub' hf, hsame⟩]
    · rw [generated.kept q hq, generated'.kept q hq, outside q hq]
  unfold SourceCache.unread at entries ⊢
  simp only at entries
  rw [files, entries]

end Precompile.Factory
