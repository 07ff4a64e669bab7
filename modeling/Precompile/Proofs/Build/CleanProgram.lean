import Precompile.Proofs.Build.Run

/-!
Programs of a build without code generation.

Whatever was edited, reported and built before, a cycle creates the program that a build from scratch
would create from the same files, and fails to do so exactly when that would fail
(`program_of_make_eq_clean`).
-/

namespace Precompile

/-- A host whose cache is sound and holds nothing that was written, at a given base. -/
structure Host.Plain (base : Path) (edited : List Path) (h : Host) : Prop where
  sound : h.cache.Sound edited
  unwritten : h.cache.Unwritten
  base_eq : h.base = base.normalize

namespace Host

variable {base : Path} {edited : List Path} {h : Host}

theorem plain_ofFiles (files : FileSystem) (base : Path) : (ofFiles files base).Plain base [] where
  sound := SourceCache.sound_ofFiles files
  unwritten := by simp [SourceCache.Unwritten, ofFiles, SourceCache.ofFiles, OrderedMap.empty]
  base_eq := rfl

theorem Plain.retainAll (plain : h.Plain base edited) (ps : List Path) :
    (h.retainAll ps).Plain base edited where
  sound := plain.sound.retainAll ps
  unwritten := plain.unwritten.retainAll ps
  base_eq := plain.base_eq

theorem Plain.enableCaching (plain : h.Plain base edited) :
    (h.mapCache SourceCache.enableCaching).Plain base edited where
  sound := plain.sound.enableCaching
  unwritten := plain.unwritten
  base_eq := plain.base_eq

/-- Without what was retained, such a host is a new one. -/
theorem Plain.unread_eq (plain : h.Plain base edited) :
    h.unread = ofFiles h.cache.files base := by
  simp only [unread, ofFiles, plain.unwritten.unread_eq, plain.base_eq]

end Host

namespace Orchestrator

variable {loader : ResourceLoader} {options : BuildOptions}

/-- Setting up does no more to the host than reading, and turns caching on. -/
theorem host_ofHost (loader : ResourceLoader) (options : BuildOptions) (h : Host)
    (overrides : options.overrides = .empty) :
    ∃ ps qs, (ofHost (.scanning loader) options h).host =
      ((h.retainAll ps).mapCache SourceCache.enableCaching).retainAll qs := by
  obtain ⟨ps, hps⟩ := Scanning.createProgram_host options.roots options.compiler none h
  obtain ⟨qs, hqs⟩ := exists_host_ofHost (.scanning loader) options h
  have seeded : writeOverrides h options.overrides = h := by
    rw [overrides]
    rfl
  refine ⟨ps, qs, ?_⟩
  rw [hqs, seeded, ← hps]
  rfl

theorem over_ofHost (loader : ResourceLoader) (options : BuildOptions) (h : Host)
    (overrides : options.overrides = .empty) : (ofHost (.scanning loader) options h).host.Over h := by
  obtain ⟨ps, qs, hhost⟩ := host_ofHost loader options h overrides
  have cached : ((h.retainAll ps).mapCache SourceCache.enableCaching).Over (h.retainAll ps) :=
    ⟨rfl, rfl, rfl⟩
  rw [hhost]
  exact (Host.over_of_uses (Host.uses_retainAll _ qs)).trans
    (cached.trans (Host.over_of_uses (Host.uses_retainAll h ps)))

theorem files_ofHost (loader : ResourceLoader) (options : BuildOptions) (h : Host)
    (overrides : options.overrides = .empty) :
    (ofHost (.scanning loader) options h).host.cache.files = h.cache.files :=
  (over_ofHost loader options h overrides).files_eq

/-- After the first cycle the files are still those that it was set up over. -/
theorem files_make_ofHost {h : Host} (overrides : options.overrides = .empty) (s : Session) :
    ((ofHost (.scanning loader) options h).make (.scanning loader) s).orchestrator.host.cache.files =
      h.cache.files :=
  (Cycle.files_make (Collaborators.careful_scanning loader) _ s).trans
    (files_ofHost loader options h overrides)

/-- Without code generation, the host is read and handed on, and no more. -/
theorem keep_of_skip (skip : options.skipCodeGeneration = true) {Q : Host → Prop}
    (read : ∀ h ps, Q h → Q (h.retainAll ps)) (handOn : ∀ h published, Q h → Q { h with published }) :
    (Collaborators.scanning loader).Keep options Q where
  createProgram := by
    intro roots compiler previous h hQ
    obtain ⟨ps, hps⟩ := Scanning.createProgram_host roots compiler previous h
    exact hps ▸ read h ps hQ
  generate := fun generates => by simp [skip] at generates
  listAllRoutes := fun P entry h hQ => read h _ hQ
  handOn := handOn

theorem keep_plain (skip : options.skipCodeGeneration = true) (base : Path) :
    (Collaborators.scanning loader).Keep options (Host.Plain base []) :=
  keep_of_skip skip (fun _ ps plain => plain.retainAll ps)
    fun _ _ plain => ⟨plain.sound, plain.unwritten, plain.base_eq⟩

/-- Once all edited paths were reported and taken up, nothing that was retained is out of date. -/
theorem plain_drainedHost {o : Orchestrator} {base : Path} {edited : List Path}
    (plain : o.host.Plain base edited) (reported : ∀ p ∈ edited, o.Reported p) :
    o.drainedHost.Plain base [] where
  sound := by
    rw [cache_drainedHost]
    exact plain.sound.invalidate_all _ reported
  unwritten := by
    rw [cache_drainedHost]
    exact plain.unwritten.invalidate_all _
  base_eq := o.uses_drainedHost.base_eq.trans plain.base_eq

theorem plain_ofHost (loader : ResourceLoader) (files : FileSystem)
    (overrides : options.overrides = .empty) :
    (ofHost (.scanning loader) options (.ofFiles files options.basePath)).host.Plain
      options.basePath [] := by
  obtain ⟨ps, qs, hhost⟩ := host_ofHost loader options (.ofFiles files options.basePath) overrides
  rw [hhost]
  exact ((Host.plain_ofFiles files options.basePath).retainAll ps).enableCaching.retainAll qs

/-- The host stays plain in every run without code generation. -/
theorem Run.plain {files : FileSystem} {edited : List Path} {o : Orchestrator}
    (skip : options.skipCodeGeneration = true) (overrides : options.overrides = .empty)
    (run : Run (.scanning loader)
      (ofHost (.scanning loader) options (.ofFiles files options.basePath)) edited o) :
    o.host.Plain options.basePath edited ∧ o.options = options := by
  exact run.host_induction (Q := Host.Plain options.basePath) (keep_plain skip _)
    (fun h plain => ⟨plain.sound.clearChanged, plain.unwritten, plain.base_eq⟩)
    (plain_ofHost loader files overrides)
    (fun edited h p files plain edit => ⟨plain.sound.edit edit, plain.unwritten, plain.base_eq⟩)
    fun edited o plain reported => plain_drainedHost plain reported

/-- After any run of edits and cycles without code generation in which every edited path was
reported, a cycle creates the program that the same roots have over a new host on the current files.
It fails to create a program exactly when that fails, and with the same error. -/
theorem program_of_make_eq_clean {files : FileSystem} {edited : List Path} {o : Orchestrator}
    {s : Session} (skip : options.skipCodeGeneration = true)
    (overrides : options.overrides = .empty)
    (run : Run (.scanning loader)
      (ofHost (.scanning loader) options (.ofFiles files options.basePath)) edited o)
    (unbound : s.bound = false) (reported : ∀ p ∈ edited, o.Reported p) :
    let after := o.make (.scanning loader) s
    match (Scanning.createProgram options.roots options.compiler none
      (.ofFiles o.host.cache.files options.basePath)).1 with
    | .ok P =>
      after.orchestrator.programs.current = some P ∧
        after.orchestrator.programs.creations = o.programs.creations + 1
    | .error e =>
      after.orchestrator.programs = o.programs ∧ after.stage = .ended .failed ∧
        after.session.errors = s.errors ++ [(BuildError.host e).message] := by
  obtain ⟨plain, hoptions⟩ := run.plain skip overrides
  have drained := plain_drainedHost plain reported
  -- a plain host without what it retained is a new one over the same files
  have clean : (Scanning.createProgram options.roots options.compiler o.programs.current
      o.drainedHost).1 =
      (Scanning.createProgram options.roots options.compiler none
        (.ofFiles o.host.cache.files options.basePath)).1 := by
    rw [Scanning.createProgram_unread drained.sound, drained.unread_eq, o.uses_drainedHost.files_eq]
  intro after
  have hafter : after = Cycle.run (.scanning loader) (Cycle.build (.scanning loader)
      { o.drained with state := .programBuilding } s.bind) :=
    Cycle.make_of_skip o unbound (hoptions ▸ skip)
  have hrun := Cycle.run_build (c := .scanning loader) { o.drained with state := .programBuilding }
    s.bind
  have hcreation : (Cycle.creation (.scanning loader) { o.drained with
      state := .programBuilding }).1 = (Scanning.createProgram options.roots options.compiler
        o.programs.current o.drainedHost).1 := by
    rw [← hoptions]
    rfl
  rw [← clean, hafter]
  rw [hcreation] at hrun
  cases hresult : (Scanning.createProgram options.roots options.compiler o.programs.current
    o.drainedHost).1 with
  | ok P =>
    rw [hresult] at hrun
    dsimp only at hrun ⊢
    rw [hrun]
    exact ⟨rfl, rfl⟩
  | error e =>
    rw [hresult] at hrun
    dsimp only at hrun ⊢
    rw [hrun]
    exact ⟨rfl, rfl, rfl⟩

/-- A main file that imports a file that is not there. -/
def danglingFiles : MemoryFiles := MemoryFiles.empty.insert ⟨"/p/main.ts"⟩ "import './a';"

/-- An imported file that appears between two cycles is in the program of the second one. -/
theorem program_of_make_after_appearance :
    ∃ o : Orchestrator, Run (.scanning .ofFiles) (ofHost (.scanning .ofFiles) plainOptions
        (.ofFiles (.memory danglingFiles) plainOptions.basePath)) [⟨"/p/a.ts"⟩] o ∧
      (∀ p ∈ [(⟨"/p/a.ts"⟩ : Path)], o.Reported p) ∧
      ∃ P, (o.make (.scanning .ofFiles) .fresh).orchestrator.programs.current = some P ∧
        P.paths = [⟨"/p/a.ts"⟩, ⟨"/p/main.ts"⟩] := by
  obtain ⟨first, built, files⟩ : ∃ first, Run (.scanning .ofFiles)
      (ofHost (.scanning .ofFiles) plainOptions
        (.ofFiles (.memory danglingFiles) plainOptions.basePath)) [] first ∧
      first.host.cache.files = .memory danglingFiles :=
    ⟨_, .make .fresh .start rfl (by simp), files_make_ofHost rfl .fresh⟩
  have edit : FileSystem.EditedAt ⟨"/p/a.ts"⟩ first.host.cache.files
      (.memory (danglingFiles.insert ⟨"/p/a.ts"⟩ "")) := by
    rw [files]
    exact danglingFiles.editedAt_insert ⟨"/p/a.ts"⟩ ""
  have run := Run.report [⟨"/p/a.ts"⟩] (.edit ⟨"/p/a.ts"⟩ _ built edit)
  refine ⟨_, run, fun p hp => reported_queueAll _ hp, ?_⟩
  have after := program_of_make_eq_clean (s := .fresh) rfl rfl run rfl
    fun p hp => reported_queueAll _ hp
  have paths : (Scanning.createProgram plainOptions.roots plainOptions.compiler none
      (.ofFiles (.memory (danglingFiles.insert ⟨"/p/a.ts"⟩ "")) plainOptions.basePath)).1.toOption.map
      Program.paths = some [⟨"/p/a.ts"⟩, ⟨"/p/main.ts"⟩] := by
    decide +kernel
  cases hclean : (Scanning.createProgram plainOptions.roots plainOptions.compiler none
      (.ofFiles (.memory (danglingFiles.insert ⟨"/p/a.ts"⟩ "")) plainOptions.basePath)).1 with
  | error e =>
    rw [hclean] at paths
    cases paths
  | ok P =>
    have same : (Scanning.createProgram plainOptions.roots plainOptions.compiler none
        (.ofFiles (queueAll (first.mapHost (·.mapFiles fun _ =>
          .memory (danglingFiles.insert ⟨"/p/a.ts"⟩ ""))) [⟨"/p/a.ts"⟩]).host.cache.files
            plainOptions.basePath)).1 = .ok P := hclean
    rw [same] at after
    rw [hclean] at paths
    exact ⟨P, after.1, Option.some.inj paths⟩

end Orchestrator

end Precompile
