import Precompile.Proofs.Factory.Renewal
import Precompile.Proofs.Scanning.Findings

/-!
Sources that are there but cannot be read.

The generator comes to sources by imports and routes. It passes over a file that the host cannot
read in the same way as over one that is not there, so such a file alone does not make a generation
fail (`generate_ok_iff`), and what it would lead to is lost with it (`generate_hides_nothing_iff`).
-/

namespace Precompile.Factory

open Precompile.Path (Reached)
open Precompile.Route (fileAt? successors)

variable {o : BuildOptions} {loader : ResourceLoader} {P : Program} {h after : Host}
  {f : SourceFile} {p q : Path}

/-! ### What is read -/

theorem isOk_provide (target : Path) (content : String) (h : Host) :
    (provide target content h).1.isOk = (h.read target).isOk := by
  unfold provide
  cases h.read target with
  | error e => rfl
  | ok served =>
    dsimp only
    split <;> rfl

/-- Writing makes a path readable, and no other one. -/
theorem isOk_read_write (h : Host) (target : Path) (content : String) (emit : Bool) (q : Path) :
    ((h.mapCache (·.write target content emit)).read q).isOk =
      (decide (target.normalize.Same q.normalize) || (h.read q).isOk) := by
  have held := h.cache.get?_write target content emit q.normalize
  simp only [Host.read, Host.mapCache, SourceCache.serve, held]
  by_cases same : target.normalize.Same q.normalize
  · simp only [if_pos same, decide_eq_true same, Bool.true_or]
    rfl
  · simp only [if_neg same, decide_eq_false same, Bool.false_or]
    rfl

/-- Where a text is provided, the same paths can be read afterwards as before. -/
theorem isOk_read_provide {target : Path} {content : String}
    (hprovide : provide target content h = (.ok (), after)) (q : Path) :
    (after.read q).isOk = (h.read q).isOk := by
  have readable := isOk_provide target content h
  rw [hprovide] at readable
  unfold provide at hprovide
  cases hread : h.read target with
  | error e => simp [hread] at hprovide
  | ok served =>
    rw [hread] at hprovide
    dsimp only at hprovide
    split at hprovide
    next =>
      cases hprovide
      rw [h.read_retainAll]
    next =>
      cases hprovide
      rw [isOk_read_write, h.read_retainAll]
      by_cases same : target.normalize.Same q.normalize
      · have hq := (Path.isNormal_normalize target).eq_of_same (Path.isNormal_normalize q) same
        have hread' : h.read q = h.read target := by simp only [Host.read, SourceCache.serve, hq]
        rw [decide_eq_true same, hread', ← readable]
        rfl
      · rw [decide_eq_false same, Bool.false_or]

/-- The factory of a source can be provided: the resources that it names can be loaded, and reading
its place does not fail. -/
def Provides (o : BuildOptions) (loader : ResourceLoader) (h : Host) (f : SourceFile) : Prop :=
  loadAll (loader.load h.cache.files) (resourcesOf f) = .ok () ∧
    (h.read (placeOf o f)).isOk = true

theorem Provides.congr {g : Host} (files : g.cache.files = h.cache.files)
    (reads : ∀ q, (g.read q).isOk = (h.read q).isOk) :
    Provides o loader g f ↔ Provides o loader h f := by
  rw [Provides, Provides, files, reads]

/-- What one source needs for its factory, and that nothing becomes readable or unreadable by it. -/
theorem generateFor_ok_iff (o : BuildOptions) (loader : ResourceLoader) (f : SourceFile) (h : Host) :
    (generateFor o loader f h).1.isOk = true ↔
      (getsFactory o f = true → Provides o loader h f) := by
  rw [generateFor_eq]
  cases getsFactory o f with
  | false => simp [Except.isOk, Except.toBool]
  | true =>
    have provided := isOk_provide (placeOf o f) (factoryOf o f).content h
    rw [if_pos rfl, Provides, ← provided]
    cases hload : loadAll (loader.load h.cache.files) (resourcesOf f) with
    | error e => simp [Except.isOk, Except.toBool]
    | ok =>
      cases hprovide : provide (placeOf o f) (factoryOf o f).content h with
      | mk result after => cases result <;> simp [Except.isOk, Except.toBool]

theorem isOk_read_generateFor {target : Option Path}
    (hfor : generateFor o loader f h = (.ok target, after)) (q : Path) :
    (after.read q).isOk = (h.read q).isOk := by
  rw [generateFor_eq] at hfor
  cases hgets : getsFactory o f with
  | false =>
    rw [hgets] at hfor
    cases hfor
    rfl
  | true =>
    rw [if_pos hgets] at hfor
    cases hload : loadAll (loader.load h.cache.files) (resourcesOf f) with
    | error e => simp [hload] at hfor
    | ok =>
      cases hprovide : provide (placeOf o f) (factoryOf o f).content h with
      | mk result after' =>
        cases result with
        | error e => simp [hload, hprovide] at hfor
        | ok =>
          simp only [hload, hprovide, Prod.mk.injEq] at hfor
          rw [← hfor.2]
          exact isOk_read_provide hprovide q

theorem generateAll_ok_iff (o : BuildOptions) (loader : ResourceLoader) (fs : List SourceFile)
    (h : Host) :
    (generateAll o loader fs h).1.isOk = true ↔
      ∀ f ∈ fs.filter (getsFactory o), Provides o loader h f := by
  simp only [List.mem_filter, and_imp]
  induction fs generalizing h with
  | nil => simp [generateAll, Except.isOk, Except.toBool]
  | cons f fs ih =>
    have first := generateFor_ok_iff o loader f h
    have files := (uses_generateFor o loader f h).files_eq
    rw [List.forall_mem_cons, ← first]
    unfold generateAll
    cases hfor : generateFor o loader f h with
    | mk result next =>
      rw [hfor] at files
      cases result with
      | error e => simp [Except.isOk, Except.toBool]
      | ok target =>
        have rest := ih next
        simp only [Provides.congr files (isOk_read_generateFor hfor)] at rest
        rw [← rest]
        cases hall : generateAll o loader fs next with
        | mk result' last => cases result' <;> simp [Except.isOk, Except.toBool, hall]

/-- A generation succeeds wherever messages and factories can be provided, whatever else cannot be
read. -/
theorem generate_ok_iff (o : BuildOptions) (loader : ResourceLoader) (P : Program) (h : Host) :
    (generate o loader P h).1.isOk = true ↔
      loadMessages o loader h = .ok () ∧ ∀ f ∈ decoratedFiles o P h, Provides o loader h f := by
  have all := generateAll_ok_iff o loader (reachedFiles o P h)
    (Route.afterReach P h (reachedFiles o P h))
  have files : (Route.afterReach P h (reachedFiles o P h)).cache.files = h.cache.files :=
    (h.uses_retainAll _).files_eq
  have reads : ∀ q, ((Route.afterReach P h (reachedFiles o P h)).read q).isOk = (h.read q).isOk :=
    fun q => by rw [Route.afterReach, h.read_retainAll]
  simp only [Provides.congr files reads] at all
  unfold decoratedFiles generate
  cases loadMessages o loader h with
  | error e => simp [Except.isOk, Except.toBool]
  | ok =>
    dsimp only
    rw [← all]
    cases hall : generateAll o loader (reachedFiles o P h)
      (Route.afterReach P h (reachedFiles o P h)) with
    | mk result last => cases result <;> simp [Except.isOk, Except.toBool]

/-! ### What is retired -/

/-- Whatever was written is still there. -/
def RetiresNothing (h after : Host) : Prop :=
  ∀ w ∈ h.cache.writtenFiles, ∃ w' ∈ after.cache.writtenFiles, w'.path.Same w.path

theorem retiresNothing_of_error {e : GenerationError}
    (failed : generate o loader P h = (.error e, after)) : RetiresNothing h after := by
  have stays : ∀ fs g p, (g.cache.unread.entries.get? p).isSome = true →
      ((generateAll o loader fs g).2.cache.unread.entries.get? p).isSome = true := by
    intro fs g p
    refine generateAll_induction (Q := fun g => (g.cache.unread.entries.get? p).isSome = true)
      (fun g q hg => ?_) loader fs fun f _ _ g content hg => ?_
    · show ((g.cache.retain q).unread.entries.get? p).isSome = true
      rwa [SourceCache.unread_retain]
    · show ((g.cache.write (placeOf o f) content false).unread.entries.get? p).isSome = true
      rw [SourceCache.get?_unread_write]
      split
      · rfl
      · exact hg
  intro w hw
  unfold generate at failed
  cases hmessages : loadMessages o loader h with
  | error e' =>
    simp only [hmessages, Prod.mk.injEq] at failed
    exact ⟨w, failed.2 ▸ hw, rfl⟩
  | ok =>
    have there := SourceCache.isSome_get?_unread_iff.mpr ⟨w, hw, rfl⟩
    rw [← SourceCache.unread_retainAll h.cache] at there
    have last := stays (reachedFiles o P h) (Route.afterReach P h (reachedFiles o P h)) w.path there
    rw [hmessages] at failed
    dsimp only at failed
    cases hall : generateAll o loader (reachedFiles o P h)
      (Route.afterReach P h (reachedFiles o P h)) with
    | mk result last' =>
      rw [hall] at failed last
      cases result with
      | error e' =>
        cases failed
        exact SourceCache.isSome_get?_unread_iff.mp last
      | ok produced => cases failed

/-! ### What is passed over -/

/-- The generator comes to a path: an input of the program has it, or a file that the generator comes
to names it in a relative import or a route. -/
def Comes (o : BuildOptions) (P : Program) (h : Host) : Path → Prop :=
  Reached (ε := Empty) (fun p => .ok (fileAt? P h p)) (successors h) (P.paths.filter (isInput o))

/-- There is a file, but its text cannot be had. -/
def Unreadable (h : Host) (p : Path) : Prop :=
  h.cache.isFile p = true ∧ (h.source p).isOk = false

/-- A generation does not pass over files that cannot be read: it fails over them and retires
nothing, and where it succeeds it has every file that it comes to. -/
structure HidesNothing (o : BuildOptions) (loader : ResourceLoader) (P : Program) (h : Host) :
    Prop where
  fails : ∀ p, Comes o P h p → Unreadable h p →
    ∃ e after, generate o loader P h = (.error e, after) ∧ RetiresNothing h after
  reads : ∀ after, generate o loader P h = (.ok (), after) →
    ∀ p, Comes o P h p → h.cache.isFile p = true →
      ∃ f ∈ reachedFiles o P h, fileAt? P h p = some f

theorem fileAt?_same (same : p.Same q) : fileAt? P h p = fileAt? P h q := by
  have key : p.components = q.components := same
  simp only [fileAt?, Program.file?, OrderedMap.find?, key, h.source_same same]

/-- A file that is there can be read, unless it is unreadable. -/
theorem exists_source (file : h.cache.isFile p = true) (readable : ¬ Unreadable h p) :
    ∃ f, h.source p = .ok (some f) := by
  cases hsource : h.source p with
  | error e => exact absurd ⟨file, by rw [hsource]; rfl⟩ readable
  | ok found =>
    cases found with
    | some f => exact ⟨f, rfl⟩
    | none =>
      unfold Host.source SourceCache.source at hsource
      cases hserve : h.cache.serve p with
      | ok content => simp [hserve, Except.map, Host.orMissing] at hsource
      | error e =>
        have there := SourceCache.isNotFound_of_isFile file hserve
        simp [hserve, Except.map, Host.orMissing, there] at hsource

/-- The generator has every file that it comes to, but for those that cannot be read. -/
theorem exists_mem_reachedFiles (comes : Comes o P h p) (file : h.cache.isFile p = true)
    (readable : ¬ Unreadable h p) : ∃ f ∈ reachedFiles o P h, fileAt? P h p = some f := by
  have inputs : ∀ q ∈ P.paths.filter (isInput o), P.contains q = true ∨ q.IsSettled :=
    fun q hq => .inl (Program.contains_of_mem_paths (List.mem_of_mem_filter hq))
  obtain ⟨g, hg⟩ := exists_source file readable
  have found := (Route.explores_fileAt? P h inputs).found_of_reached
    (fun _ _ same => congrArg Except.ok (fileAt?_same same)) rfl comes
  rcases found with nothing | ⟨f, hf, there⟩
  · have nothing := Except.ok.inj nothing
    unfold fileAt? at nothing
    rw [hg] at nothing
    split at nothing <;> cases nothing
  · exact ⟨f, hf, Except.ok.inj there⟩

/-- A generation hides a file that cannot be read wherever it comes to one and does not fail for
another reason. -/
theorem generate_hides_nothing_iff (o : BuildOptions) (loader : ResourceLoader) (P : Program)
    (h : Host) : HidesNothing o loader P h ↔
      (∀ p, Comes o P h p → ¬ Unreadable h p) ∨ loadMessages o loader h ≠ .ok () ∨
        ∃ f ∈ decoratedFiles o P h, ¬ Provides o loader h f := by
  have succeeds := generate_ok_iff o loader P h
  constructor
  · intro hides
    by_cases blind : ∃ p, Comes o P h p ∧ Unreadable h p
    · obtain ⟨p, comes, unreadable⟩ := blind
      obtain ⟨e, after, failed, -⟩ := hides.fails p comes unreadable
      rw [failed] at succeeds
      right
      by_contra! other
      exact nomatch succeeds.mpr other
    · exact .inl fun p comes unreadable => blind ⟨p, comes, unreadable⟩
  · intro cause
    cases hgenerate : generate o loader P h with
    | mk result after =>
      rw [hgenerate] at succeeds
      cases result with
      | error e =>
        exact ⟨fun _ _ _ => ⟨e, after, hgenerate, retiresNothing_of_error hgenerate⟩,
          fun _ ok => nomatch hgenerate.symm.trans ok⟩
      | ok =>
        obtain ⟨messages, provides⟩ := succeeds.mp rfl
        have readable := cause.resolve_right fun other => other.elim (absurd messages)
          fun ⟨f, hf, fails⟩ => fails (provides f hf)
        exact ⟨fun p comes unreadable => absurd unreadable (readable p comes),
          fun _ _ p comes file => exists_mem_reachedFiles comes file (readable p comes)⟩

/-- A file with a lazy route to a module. -/
def routingProgram : Program where
  roots := [⟨"/m.ts"⟩]
  files := .ofList [(⟨"/m.ts"⟩, "loadChildren:'./e#E'")]
  options := .empty

/-- A host of the file and the module, in which the module has got a factory and cannot be read any
more. -/
def blindHost : Host :=
  let files := (MemoryFiles.empty.insert ⟨"/m.ts"⟩ "loadChildren:'./e#E'").insert ⟨"/e.ts"⟩
    "@NgModule()class E"
  (Host.ofFiles (.memory (files.holdBack ⟨"/e.ts"⟩)) ⟨"/"⟩).mapCache
    (·.write ⟨"/g/e.ngfactory.ts"⟩ "" false)

/-- The generation succeeds over the module that cannot be read, and retires its factory. -/
theorem unreadable_module_is_hidden :
    ¬ HidesNothing agedOptions .ofFiles routingProgram blindHost ∧
      blindHost.cache.writtenFiles.map WrittenFile.path = [⟨"/g/e.ngfactory.ts"⟩] ∧
      (generate agedOptions .ofFiles routingProgram blindHost).2.cache.writtenFiles = [] := by
  obtain ⟨succeeded, held, retired⟩ :
      (generate agedOptions .ofFiles routingProgram blindHost).1.toOption = some () ∧
      blindHost.cache.writtenFiles.map WrittenFile.path = [⟨"/g/e.ngfactory.ts"⟩] ∧
      (generate agedOptions .ofFiles routingProgram blindHost).2.cache.writtenFiles = [] := by
    decide +kernel
  obtain ⟨input, leads, file, unread⟩ :
      ⟨"/m.ts"⟩ ∈ routingProgram.paths.filter (isInput agedOptions) ∧
      ⟨"/e.ts"⟩ ∈ successors blindHost ⟨⟨"/m.ts"⟩, "loadChildren:'./e#E'"⟩ ∧
      blindHost.cache.isFile ⟨"/e.ts"⟩ = true ∧ (blindHost.source ⟨"/e.ts"⟩).isOk = false := by
    decide +kernel
  refine ⟨fun hides => ?_, held, retired⟩
  have comes : Comes agedOptions routingProgram blindHost ⟨"/e.ts"⟩ := .next (.start input) rfl leads
  obtain ⟨e, after, failed, -⟩ := hides.fails ⟨"/e.ts"⟩ comes ⟨file, unread⟩
  rw [failed] at succeeded
  cases succeeded

end Precompile.Factory
