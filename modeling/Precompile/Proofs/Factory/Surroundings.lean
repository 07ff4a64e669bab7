import Precompile.Proofs.Factory.Missing
import Precompile.Proofs.Factory.Renewal
import Precompile.Proofs.Route.Map

/-!
What a generation leaves alone.

A generation changes nothing but files below the directory of generated files. What a specifier or a
route stood for before is what it stands for afterwards, unless that is one of these files
(`AgreesOutside.resolve?`, `AgreesOutside.get?_ofFile`). And a factory that was provided is still
served in the end, wherever it was put (`Factory.serves_generate`).
-/

namespace Precompile

namespace Host

/-- The hosts have the same files, but for those below a directory. -/
structure AgreesOutside (g : Host) (dir : Path) (h : Host) : Prop where
  base_eq : g.base = h.base
  serve_eq : ∀ p : Path, ¬ dir.Below p.normalize → g.cache.serve p = h.cache.serve p
  isFile_eq : ∀ p : Path, ¬ dir.Below p.normalize → g.cache.isFile p = h.cache.isFile p

namespace AgreesOutside

variable {g h : Host} {dir : Path}

theorem symm (agrees : g.AgreesOutside dir h) : h.AgreesOutside dir g :=
  ⟨agrees.base_eq.symm, fun p hp => (agrees.serve_eq p hp).symm,
    fun p hp => (agrees.isFile_eq p hp).symm⟩

theorem source_eq (agrees : g.AgreesOutside dir h) {p : Path} (hp : ¬ dir.Below p.normalize) :
    g.source p = h.source p := by
  simp only [source, SourceCache.source, agrees.serve_eq p hp]

theorem resolve? (agrees : g.AgreesOutside dir h) {specifier : String} {containing r : Path}
    (hr : g.resolve? specifier containing = some r) (elsewhere : ¬ dir.Below r.normalize) :
    h.resolve? specifier containing = some r :=
  resolve?_of_elsewhere agrees.base_eq.symm (fun p hp => (agrees.isFile_eq p hp).symm) hr elsewhere

theorem mem_importTargets (agrees : g.AgreesOutside dir h) {f : SourceFile} {q : Path}
    (hq : q ∈ g.importTargets f) (elsewhere : ¬ dir.Below q.normalize) : q ∈ h.importTargets f := by
  obtain ⟨i, hi, hiq⟩ := List.mem_filterMap.mp hq
  exact List.mem_filterMap.mpr ⟨i, hi, agrees.resolve? hiq elsewhere⟩

/-- A route leads to the same file in both hosts. -/
theorem get?_ofFile (agrees : g.AgreesOutside dir h) {f : SourceFile} {key : String} {q : Path}
    (hq : (Route.ofFile g f).get? key = some (some q)) (elsewhere : ¬ dir.Below q.normalize) :
    (Route.ofFile h f).get? key = some (some q) := by
  -- the same route decides over the key in both
  refine OrderedMap.get?_insertAll_related (m := .empty) (n := .empty)
    (R := fun v w => v = some (some q) → w = some (some q))
    (fun s : Route.Scanned => s.reference.storageKey)
    (fun s => g.resolve? s.reference.module f.path) (fun s => h.resolve? s.reference.module f.path)
    (Route.scan f.tokens) (fun _ hnone => nomatch hnone) (fun s _ hs => ?_) key hq
  exact congrArg some (agrees.resolve? (Option.some.inj hs) elsewhere)

theorem mem_successors (agrees : g.AgreesOutside dir h) {f : SourceFile} {q : Path}
    (hq : q ∈ Route.successors g f) (elsewhere : ¬ dir.Below q.normalize) :
    q ∈ Route.successors h f := by
  rcases List.mem_append.mp hq with hq | hq
  · obtain ⟨key, hkey⟩ := Route.mem_resolved_iff.mp hq
    exact List.mem_append_left _
      (Route.mem_resolved_iff.mpr ⟨key, agrees.get?_ofFile hkey elsewhere⟩)
  · exact List.mem_append_right _ (agrees.mem_importTargets hq elsewhere)

end AgreesOutside

/-- What was retained does not count. -/
theorem AgreesOutside.of_unread_eq {g g' h : Host} {dir : Path} (agrees : g.AgreesOutside dir h)
    (sound : g.cache.Sound []) (sound' : g'.cache.Sound []) (same : g'.unread = g.unread) :
    g'.AgreesOutside dir h := by
  have cache : g'.cache.unread = g.cache.unread := congrArg Host.cache same
  refine ⟨(congrArg Host.base same).trans agrees.base_eq, fun p hp => ?_, fun p hp => ?_⟩
  · rw [← agrees.serve_eq p hp, ← SourceCache.serve_unread sound, ← SourceCache.serve_unread sound',
      cache]
  · rw [← agrees.isFile_eq p hp, ← SourceCache.isFile_unread sound,
      ← SourceCache.isFile_unread sound', cache]

/-- Hosts over the same files with the same written files outside a directory agree outside it. -/
theorem agreesOutside_of_written {g h : Host} {dir : Path} (sound : g.cache.Sound [])
    (sound' : h.cache.Sound []) (base : g.base = h.base) (files : g.cache.files = h.cache.files)
    (same : ∀ w : WrittenFile, ¬ dir.Below w.path →
      (w ∈ g.cache.writtenFiles ↔ w ∈ h.cache.writtenFiles)) : g.AgreesOutside dir h := by
  have held : ∀ p : Path, p.IsNormal → ¬ dir.Below p →
      g.cache.unread.entries.get? p = h.cache.unread.entries.get? p := by
    intro p normal hp
    ext ⟨content, origin⟩
    cases origin with
    | disk => simp [SourceCache.get?_unread, Option.filter_eq_some_iff, CacheEntry.isWritten]
    | written emit =>
      have hw := same ⟨p, content, emit⟩ hp
      rw [SourceCache.mem_writtenFiles_iff_get? sound.normal,
        SourceCache.mem_writtenFiles_iff_get? sound'.normal] at hw
      simpa [normal] using hw
  constructor
  · exact base
  · intro p hp
    rw [← SourceCache.serve_unread sound, ← SourceCache.serve_unread sound']
    simp only [SourceCache.serve, held _ (Path.isNormal_normalize p) hp, SourceCache.files_unread,
      files]
  · intro p hp
    rw [← SourceCache.isFile_unread sound, ← SourceCache.isFile_unread sound']
    simp only [SourceCache.isFile, OrderedMap.contains_eq_isSome_get?,
      held _ (Path.isNormal_normalize p) hp, SourceCache.files_unread, files]

end Host

namespace Factory

variable {o : BuildOptions} {loader : ResourceLoader} {h after : Host} {P : Program} {f : SourceFile}

/-! ### Visited files -/

/-- The files that the generator visits in a build over a host. -/
def visitedFiles (o : BuildOptions) (h : Host) : List SourceFile :=
  match (Scanning.createProgram o.roots o.compiler none h).1 with
  | .ok P => reachedFiles o P h
  | .error _ => []

theorem factorySources_eq_filter (o : BuildOptions) (h : Host) :
    factorySources o h = (visitedFiles o h).filter (getsFactory o) := by
  unfold factorySources visitedFiles
  cases (Scanning.createProgram o.roots o.compiler none h).1 <;> rfl

/-- The generator visits what routes and imports lead to from the inputs of the program. -/
theorem mem_visitedFiles (sound : h.cache.Sound [])
    (hP : (Scanning.createProgram o.roots o.compiler none h.unread).1 = .ok P) :
    f ∈ visitedFiles o h ↔ Route.Visits h (P.paths.filter (isInput o)) f := by
  unfold visitedFiles
  rw [Scanning.createProgram_unread sound, hP]
  exact (mem_reachedFiles_unread sound hP).trans (Route.visits_unread sound)

/-- An input lies outside the directory of generated files. -/
theorem not_below_of_isInput {p : Path} (input : isInput o p = true) : ¬ o.genDir.Below p := by
  intro below
  have starts := (Path.below_iff.mp below).2
  simp [isInput, starts] at input

/-- Two slashes in front or one, the factory is at the same place. -/
theorem factoryPath_normalize {plan : FactoryPlan} (absolute : plan.base.isAbsolute = true)
    {p : Path} (spelled : p.IsNormal ∨ p = ⟨"//index.ts"⟩) (below : plan.base.Below p) :
    plan.factoryPath p.normalize = plan.factoryPath p := by
  rcases spelled with normal | rfl
  · rw [show p.normalize = p from normal]
  · -- the base path is the root then
    have hp : Path.components ⟨"//index.ts"⟩ = [.root, .name "index.ts"] := by decide +kernel
    have hbase : plan.base.components = [.root] := by
      obtain ⟨rest, hrest⟩ := Path.isAbsolute_iff.mp absolute
      obtain ⟨c, more, hmore⟩ := below
      rw [hp, hrest] at hmore
      cases rest with
      | nil => exact hrest
      | cons d rest => simp at hmore
    have relative : ∀ q : Path, q.components = [.root, .name "index.ts"] →
        q.relativeTo plan.base = q.relativeTo ⟨"/"⟩ := by
      intro q hq
      simp only [Path.relativeTo, Path.stripPrefix?, Path.startsWith, hbase, hq,
        Path.components_root]
    have same : (Path.normalize ⟨"//index.ts"⟩).relativeTo ⟨"/"⟩ =
        Path.relativeTo ⟨"//index.ts"⟩ ⟨"/"⟩ := by
      decide +kernel
    unfold FactoryPlan.factoryPath
    rw [relative _ hp, relative _ (by decide +kernel), same]

/-! ### Files that are provided -/

/-- The host serves some text at a path. -/
def Serves (h : Host) (p : Path) : Prop := ∃ content, h.read p = .ok (some content)

theorem serves_iff {p : Path} : Serves h p ↔ ∃ content, h.cache.serve p = .ok content :=
  exists_congr fun _ => Host.read_eq_some_iff

theorem Serves.retain {p : Path} (serves : Serves h p) (q : Path) :
    Serves (h.mapCache (·.retain q)) p := by
  rw [serves_iff] at serves ⊢
  obtain ⟨content, hserve⟩ := serves
  exact ⟨content, (h.cache.serve_retain q p).trans hserve⟩

theorem serves_write (h : Host) (p : Path) (content : String) (emit : Bool) :
    Serves (h.mapCache (·.write p content emit)) p := by
  have held := h.cache.get?_write p content emit p.normalize
  rw [if_pos (show p.normalize.Same p.normalize from rfl)] at held
  exact serves_iff.mpr ⟨content, by simp only [Host.mapCache, SourceCache.serve, held]⟩

theorem Serves.write {p : Path} (serves : Serves h p) (q : Path) (content : String) (emit : Bool) :
    Serves (h.mapCache (·.write q content emit)) p := by
  rw [serves_iff] at serves ⊢
  obtain ⟨served, hserve⟩ := serves
  have held := h.cache.get?_write q content emit p.normalize
  by_cases same : q.normalize.Same p.normalize
  · rw [if_pos same] at held
    exact ⟨content, by simp only [Host.mapCache, SourceCache.serve, held]⟩
  · rw [if_neg same] at held
    refine ⟨served, ?_⟩
    rw [← hserve]
    simp only [Host.mapCache, SourceCache.serve, held]
    rfl

/-- What is to be kept is still served after files were retired. -/
theorem Serves.retire {p : Path} (serves : Serves h p) (normal : p.IsNormal) (dir : Path)
    {keep : List Path} (kept : p ∈ keep) : Serves (h.mapCache (·.retire dir keep)) p := by
  have settled : p.normalize = p := normal
  rw [serves_iff] at serves ⊢
  obtain ⟨served, hserve⟩ := serves
  have held := h.cache.get?_dropAll (h.cache.stale dir keep) p
  rw [if_neg] at held
  · refine ⟨served, ?_⟩
    rw [← hserve]
    have files := (h.cache.dropAll_frame (h.cache.stale dir keep)).1
    simp only [Host.mapCache, SourceCache.serve, SourceCache.retire, settled, held, files]
  · rintro ⟨q, hq, same⟩
    have among : q.isAmong keep = true :=
      List.any_eq_true.mpr ⟨p, kept, decide_eq_true same.symm⟩
    have apart := List.of_mem_filter hq
    simp [among] at apart

theorem serves_provide {target : Path} {content : String}
    (hprovide : provide target content h = (.ok (), after)) : Serves after target := by
  unfold provide at hprovide
  cases hread : h.read target with
  | error e => simp [hread] at hprovide
  | ok served =>
    rw [hread] at hprovide
    dsimp only at hprovide
    split at hprovide
    next hserved =>
      cases hprovide
      exact Serves.retain ⟨content, hserved ▸ hread⟩ target
    next =>
      cases hprovide
      exact serves_write _ _ _ _

theorem serves_generateAll {fs : List SourceFile} {targets : List Path}
    (hall : generateAll o loader fs h = (.ok targets, after)) :
    ∀ f ∈ fs.filter (getsFactory o), placeOf o f ∈ targets ∧ Serves after (placeOf o f) := by
  induction fs generalizing h targets with
  | nil => simp
  | cons f fs ih =>
    unfold generateAll at hall
    cases hfor : generateFor o loader f h with
    | mk result next =>
      rw [hfor] at hall
      cases result with
      | error e => cases hall
      | ok target =>
        dsimp only at hall
        cases hrest : generateAll o loader fs next with
        | mk result' last =>
          rw [hrest] at hall
          cases result' with
          | error e => cases hall
          | ok rest =>
            cases hall
            intro g hg
            obtain ⟨hg, gets⟩ := List.mem_filter.mp hg
            rcases List.mem_cons.mp hg with rfl | hg
            · rw [generateFor_eq, if_pos gets] at hfor
              cases hload : loadAll (loader.load h.cache.files) (resourcesOf g) with
              | error e => simp [hload] at hfor
              | ok =>
                cases hprovide : provide (placeOf o g) (factoryOf o g).content h with
                | mk provided after' =>
                  cases provided with
                  | error e => simp [hload, hprovide] at hfor
                  | ok =>
                    simp only [hload, hprovide, Prod.mk.injEq, Except.ok.injEq] at hfor
                    obtain ⟨rfl, rfl⟩ := hfor
                    have stays := generateAll_induction (o := o)
                      (Q := fun k => Serves k (placeOf o g))
                      (fun _ q serves => serves.retain q) loader fs
                      (fun _ _ _ _ content serves => serves.write _ content false)
                      (serves_provide hprovide)
                    rw [hrest] at stays
                    exact ⟨List.mem_cons_self, stays⟩
            · obtain ⟨placed, serves⟩ := ih hrest g (List.mem_filter.mpr ⟨hg, gets⟩)
              exact ⟨List.mem_append_right _ placed, serves⟩

/-- After a generation that succeeds, a factory of each decorated file is served, wherever it is. -/
theorem serves_generate (hgenerate : generate o loader P h = (.ok (), after))
    (hf : f ∈ decoratedFiles o P h) : Serves after (placeOf o f) := by
  unfold generate at hgenerate
  cases hmessages : loadMessages o loader h with
  | error e => simp [hmessages] at hgenerate
  | ok =>
    rw [hmessages] at hgenerate
    dsimp only at hgenerate
    cases hall : generateAll o loader (reachedFiles o P h)
      (Route.afterReach P h (reachedFiles o P h)) with
    | mk result last =>
      rw [hall] at hgenerate
      cases result with
      | error e => cases hgenerate
      | ok targets =>
        cases hgenerate
        obtain ⟨placed, serves⟩ := serves_generateAll hall f hf
        exact serves.retire (isNormal_placeOf o f) o.genDir placed

end Factory

end Precompile
