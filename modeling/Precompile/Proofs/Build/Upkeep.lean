import Precompile.Proofs.Build.Run
import Precompile.Proofs.Factory.Sources
import Precompile.Proofs.Program.Staleness

/-!
What a build with code generation keeps up.

As long as the revision of the host has not moved since the current program was created, that
program is the one that would be created anew (`Upkeep`). This is so after every run in which edits
were reported (`Run.upkeep`).
-/

namespace Precompile

variable {loader : ResourceLoader} {options : BuildOptions}

/-- The state of a host and its programs between the steps of cycles: what was retained is true but
for some edited paths, nothing written is output, and the current program is up to date unless the
revision has moved since or files were edited. -/
structure Upkeep (options : BuildOptions) (edited : List Path) (ps : Programs) (h : Host) :
    Prop where
  sound : h.cache.Sound edited
  virtual : h.cache.Virtual
  base_eq : h.base = options.basePath.normalize
  earlier : ∀ r, ps.createdAt = some r → r ≤ h.cache.revision
  current : edited = [] → ps.createdAt = some h.cache.revision → ∃ P, ps.current = some P ∧
    (Scanning.createProgram options.roots options.compiler none h.unread).1 = .ok P

namespace Upkeep

variable {edited : List Path} {ps : Programs} {h : Host}

/-- Using the host for files that are no output keeps it. -/
theorem use (upkeep : Upkeep options edited ps h) {h' : Host} (use : h.Uses h')
    (virtual : h'.cache.Virtual) : Upkeep options edited ps h' where
  sound := use.sound upkeep.sound
  virtual := virtual
  base_eq := use.base_eq.trans upkeep.base_eq
  earlier := fun r hr => Nat.le_trans (upkeep.earlier r hr) use.revision.1
  current := by
    intro hedited
    have upToDate : ps.UpToDate options.roots options.compiler h :=
      ⟨upkeep.earlier, upkeep.current hedited⟩
    exact (upToDate.use use).current

theorem retainAll (upkeep : Upkeep options edited ps h) (qs : List Path) :
    Upkeep options edited ps (h.retainAll qs) :=
  upkeep.use (h.uses_retainAll qs) (upkeep.virtual.retainAll qs)

/-- A program that is created is up to date. -/
theorem create (upkeep : Upkeep options [] ps h) {previous : Option Program} {P : Program} (n : Nat)
    (hP : (Scanning.createProgram options.roots options.compiler previous h).1 = .ok P) :
    Upkeep options [] ⟨some P, n, some h.cache.revision⟩
      (Scanning.createProgram options.roots options.compiler previous h).2 := by
  obtain ⟨qs, hqs⟩ := Scanning.createProgram_host options.roots options.compiler previous h
  have after := upkeep.retainAll qs
  have upToDate := Programs.UpToDate.create n upkeep.sound hP qs
  rw [hqs]
  exact ⟨after.sound, after.virtual, after.base_eq, upToDate.earlier, fun _ => upToDate.current⟩

/-- Trying to create one does no harm. -/
theorem uncreated (upkeep : Upkeep options edited ps h) (previous : Option Program) :
    Upkeep options edited ps
      (Scanning.createProgram options.roots options.compiler previous h).2 := by
  obtain ⟨qs, hqs⟩ := Scanning.createProgram_host options.roots options.compiler previous h
  rw [hqs]
  exact upkeep.retainAll qs

theorem programs_create (upkeep : Upkeep options [] ps h) :
    Upkeep options [] (ps.create Scanning.checker options.roots options.compiler h).2.1
      (ps.create Scanning.checker options.roots options.compiler h).2.2 := by
  have upToDate := Programs.UpToDate.programs_create ⟨upkeep.earlier, upkeep.current rfl⟩
    upkeep.sound
  rcases ps.create_cases options.roots options.compiler h with
    ⟨P, qs, -, hcreate⟩ | ⟨e, qs, -, hcreate⟩
  · have after := upkeep.retainAll qs
    rw [hcreate] at upToDate ⊢
    exact ⟨after.sound, after.virtual, after.base_eq, upToDate.earlier, fun _ => upToDate.current⟩
  · rw [hcreate]
    exact upkeep.retainAll qs

theorem generate (upkeep : Upkeep options edited ps h) (loader : ResourceLoader) (o : BuildOptions)
    (P : Program) :
    Upkeep options edited ps (Factory.generate o loader P h).2 := by
  refine upkeep.use (Factory.uses_generate o loader P h) ?_
  exact Factory.generate_induction (Q := fun h => h.cache.Virtual)
    (fun _ p virtual => virtual.retain p) loader
    (fun _ _ _ _ content virtual => virtual.write _ content)
    (fun _ keep virtual => virtual.retire _ keep) upkeep.virtual

/-- Handing modules on and clearing the changes does not touch what counts. -/
theorem congr (upkeep : Upkeep options edited ps h) {h' : Host}
    (entries : h'.cache.entries = h.cache.entries) (files : h'.cache.files = h.cache.files)
    (revision : h'.cache.revision = h.cache.revision) (base : h'.base = h.base) :
    Upkeep options edited ps h' where
  sound := upkeep.sound.congr files entries
  virtual := by
    unfold SourceCache.Virtual
    rw [entries]
    exact upkeep.virtual
  base_eq := base.trans upkeep.base_eq
  earlier := by
    rw [revision]
    exact upkeep.earlier
  current := by
    have hunread : h'.unread = h.unread := by
      simp only [Host.unread, SourceCache.unread, entries, files, base]
    rw [revision, hunread]
    exact upkeep.current

end Upkeep

/-! ### Upkeep of runs -/

namespace Orchestrator

theorem revision_drainedHost (o : Orchestrator) :
    o.drainedHost.cache.revision = o.host.cache.revision + o.queue.toList.length := by
  rw [cache_drainedHost]
  generalize o.host.cache = c
  induction o.queue.toList generalizing c with
  | nil => rfl
  | cons p ps ih =>
    have moved : (c.invalidate p).revision = c.revision + 1 := rfl
    rw [List.foldl_cons, ih, moved, List.length_cons]
    omega

/-- Once all edited paths were reported and taken up, the host is true to the files. -/
theorem upkeep_drainedHost {o : Orchestrator} {edited : List Path}
    (upkeep : Upkeep options edited o.programs o.host) (reported : ∀ p ∈ edited, o.Reported p) :
    Upkeep options [] o.programs o.drainedHost := by
  have use := o.uses_drainedHost
  have hcache := o.cache_drainedHost
  constructor
  · rw [hcache]
    exact upkeep.sound.invalidate_all _ reported
  · rw [hcache]
    exact upkeep.virtual.invalidate_all _
  · exact use.base_eq.trans upkeep.base_eq
  · exact fun r hr => Nat.le_trans (upkeep.earlier r hr) use.revision.1
  · intro _ hcreated
    -- if the revision has not moved, nothing was reported, and so nothing was edited
    have hle := upkeep.earlier _ hcreated
    have hrevision := o.revision_drainedHost
    have hnone : o.queue.toList = [] := List.eq_nil_of_length_eq_zero (by omega)
    have hedited : edited = [] := List.eq_nil_iff_forall_not_mem.mpr fun p hp => by
      obtain ⟨q, hq, -⟩ := reported p hp
      simp [hnone] at hq
    have hhost : o.drainedHost = o.host := by
      unfold drainedHost
      rw [hnone]
      rfl
    rw [hhost] at hcreated ⊢
    exact upkeep.current hedited hcreated

/-- Writing overrides before there is a program keeps it. -/
theorem upkeep_writeOverrides {h : Host} (upkeep : Upkeep options [] .empty h)
    (overrides : PathMap String) : Upkeep options [] .empty (writeOverrides h overrides) := by
  refine List.foldlRecOn _ _ upkeep fun g upkeep e _ => ?_
  exact upkeep.use (Host.Uses.refl.write e.1 e.2 false) (upkeep.virtual.write e.1 e.2)

theorem upkeep_ofHost (loader : ResourceLoader) {h : Host}
    (upkeep : Upkeep options [] .empty h) :
    Upkeep options [] (ofHost (.scanning loader) options h).programs
      (ofHost (.scanning loader) options h).host := by
  have seeded := upkeep_writeOverrides upkeep options.overrides
  have cached : Upkeep options []
      (Programs.empty.create Scanning.checker options.roots options.compiler
        (writeOverrides h options.overrides)).2.1
      ((Programs.empty.create Scanning.checker options.roots options.compiler
        (writeOverrides h options.overrides)).2.2.mapCache SourceCache.enableCaching) :=
    seeded.programs_create.congr rfl rfl rfl rfl
  obtain ⟨qs, hqs⟩ := host_findEntry options ((Programs.empty.create Scanning.checker options.roots
    options.compiler (writeOverrides h options.overrides)).2.2.mapCache SourceCache.enableCaching)
  have retained := cached.retainAll qs
  rw [← hqs] at retained
  exact retained

end Orchestrator

namespace Cycle

/-! ### Upkeep of cycles -/

/-- The host and the programs of a cycle are kept up. -/
def Kept (options : BuildOptions) (cycle : Cycle) : Prop :=
  cycle.orchestrator.options = options ∧
    Upkeep options [] cycle.orchestrator.programs cycle.orchestrator.host

/-- Each step but the first keeps the host and the programs up. -/
theorem Steps.kept {cycle next : Cycle} (steps : Steps (.scanning loader) cycle next)
    (kept : Kept options cycle) (begun : cycle.stage ≠ .invalidating) : Kept options next := by
  obtain ⟨rfl, upkeep⟩ := kept
  have generated : ∀ (o : Orchestrator) P, Upkeep o.options [] o.programs o.host →
      Upkeep o.options [] o.programs (generation (.scanning loader) o P).host := by
    intro o P upkeep
    unfold generation CodeGenerator.run
    split
    · exact upkeep
    · exact upkeep.generate loader o.options P
  cases steps with
  | invalidate => exact absurd rfl begun
  | keep => exact ⟨rfl, upkeep⟩
  | prepare hP => exact ⟨rfl, upkeep.create _ hP⟩
  | @generate o s P => exact ⟨rfl, generated o P upkeep⟩
  | @ungenerated o s P => exact ⟨rfl, generated o P upkeep⟩
  | build hP => exact ⟨rfl, upkeep.create _ hP⟩
  | @unprepared o => exact ⟨rfl, upkeep.uncreated o.programs.current⟩
  | @unbuilt o => exact ⟨rfl, upkeep.uncreated o.programs.current⟩
  | check => exact ⟨rfl, upkeep⟩
  | unchecked => exact ⟨rfl, upkeep⟩
  | discoverAll => exact ⟨rfl, upkeep.retainAll _⟩
  | discoverChanged => exact ⟨rfl, upkeep⟩
  | merge => exact ⟨rfl, upkeep⟩
  | publish => exact ⟨rfl, upkeep⟩
  | unregistered => exact ⟨rfl, upkeep⟩
  | register => exact ⟨rfl, upkeep.congr rfl rfl rfl rfl⟩
  | settle => exact ⟨rfl, upkeep.congr rfl rfl rfl rfl⟩
  | ended => exact ⟨rfl, upkeep⟩

theorem Kept.run {cycle : Cycle} (kept : Kept options cycle)
    (begun : cycle.stage ≠ .invalidating) : Kept options (run (.scanning loader) cycle) := by
  have hrun := run_induction (c := .scanning loader)
    (I := fun r => Kept options r ∧ r.stage ≠ .invalidating)
    (fun r _ ⟨hkept, hbegun⟩ => ⟨(steps_step r).kept hkept hbegun, stage_step_ne r⟩) cycle
    ⟨kept, begun⟩
  exact hrun.1

end Cycle

namespace Orchestrator

theorem upkeep_make {o : Orchestrator} {s : Session} (hs : s.bound = false)
    (hoptions : o.options = options) (upkeep : Upkeep options [] o.programs o.drainedHost) :
    (o.make (.scanning loader) s).Kept options := by
  rw [Cycle.make_of_unbound o hs]
  refine Cycle.Kept.run ⟨hoptions, upkeep⟩ ?_
  show (if o.options.skipCodeGeneration then Stage.building else .preparing) ≠ .invalidating
  split <;> exact nofun

/-- After every run, the host and the programs are kept up. -/
theorem Run.upkeep {files : FileSystem} {edited : List Path} {o : Orchestrator}
    (run : Run (.scanning loader)
      (ofHost (.scanning loader) options (.ofFiles files options.basePath)) edited o) :
    o.options = options ∧ Upkeep options edited o.programs o.host := by
  induction run with
  | start =>
    refine ⟨rfl, upkeep_ofHost loader ?_⟩
    exact ⟨SourceCache.sound_ofFiles files, (fun e he => nomatch he), rfl, nofun, nofun⟩
  | edit p files _ hedit ih =>
    obtain ⟨hoptions, upkeep⟩ := ih
    exact ⟨hoptions, upkeep.sound.edit hedit, upkeep.virtual, upkeep.base_eq, upkeep.earlier,
      nofun⟩
  | report ps _ ih => exact ih
  | attach r _ ih => exact ih
  | onInvalid _ ih => exact ih
  | @diagnose _ o path s _ ih =>
    obtain ⟨diagnosed, heq⟩ := diagnose_eq (.scanning loader) path s o
    rw [heq]
    exact ih
  | @make _ o s _ hs reported ih =>
    exact upkeep_make hs ih.1 (upkeep_drainedHost ih.2 reported)
  | refuse s _ hs ih =>
    rw [Cycle.make_of_bound _ hs]
    exact ih

end Orchestrator

end Precompile
