import Precompile.Proofs.Build.Upkeep

/-!
Cycles with and without code generation.

Without code generation a cycle creates the program of the host as it was after the reported paths
were invalidated (`Cycle.make_skipping`). With it, a cycle that succeeds has generated for that
program, and created the program of what was there then (`regenerates_of_make`). Where that can be
done, a cycle does succeed (`succeeded_of_regenerates`).
-/

namespace Precompile

variable {loader : ResourceLoader} {options : BuildOptions}

namespace Cycle

/-! ### The work of a cycle -/

/-- Late steps of a cycle do not write. -/
theorem Steps.unread_late {cycle next : Cycle} (steps : Steps (.scanning loader) cycle next)
    (late : cycle.stage.IsLate) :
    next.orchestrator.host.cache.unread = cycle.orchestrator.host.cache.unread := by
  cases steps with
  | invalidate => cases late
  | keep => cases late
  | prepare => cases late
  | generate => cases late
  | ungenerated => cases late
  | build => cases late
  | unprepared => cases late
  | unbuilt => cases late
  | discoverAll => exact SourceCache.unread_retainAll _ _
  | _ => rfl

theorem unread_run_late {cycle : Cycle} (late : cycle.stage.IsLate) :
    (run (.scanning loader) cycle).orchestrator.host.cache.unread =
      cycle.orchestrator.host.cache.unread := by
  have hrun := run_induction (c := .scanning loader) (I := fun r => r.stage.IsLate ∧
    r.orchestrator.host.cache.unread = cycle.orchestrator.host.cache.unread)
    (fun r _ ⟨hlate, hunread⟩ =>
      ⟨((steps_step r).late hlate).1, ((steps_step r).unread_late hlate).trans hunread⟩)
    cycle ⟨late, rfl⟩
  exact hrun.2

/-- The program that a cycle creates is the one of the files and the written texts. -/
theorem creation_unread (loader : ResourceLoader) {o : Orchestrator}
    (upkeep : Upkeep o.options [] o.programs o.host) :
    (creation (.scanning loader) o).1 =
      (Scanning.createProgram o.options.roots o.options.compiler none o.host.unread).1 :=
  Scanning.createProgram_unread upkeep.sound o.options.roots o.options.compiler o.programs.current

theorem exists_creation (loader : ResourceLoader) (o : Orchestrator) :
    ∃ ps, (creation (.scanning loader) o).2 = o.host.retainAll ps :=
  Scanning.createProgram_host o.options.roots o.options.compiler o.programs.current o.host

/-- What comes of a cycle from the stage where the program is created that is checked. -/
theorem run_build_scanning (loader : ResourceLoader) {o : Orchestrator} (s : Session)
    (upkeep : Upkeep options [] o.programs o.host) (hoptions : o.options = options) :
    match (Scanning.createProgram options.roots options.compiler none o.host.unread).1 with
    | .ok P =>
      ((run (.scanning loader) (build (.scanning loader) o s)).stage.outcome? = some .succeeded ↔
          (options.typeChecking = true → Scanning.globalDiagnostics P = [])) ∧
        (run (.scanning loader) (build (.scanning loader) o s)).orchestrator.programs.current =
          some P ∧
        (run (.scanning loader) (build (.scanning loader) o s)).orchestrator.host.cache.unread =
          o.host.cache.unread
    | .error _ =>
      (run (.scanning loader) (build (.scanning loader) o s)).stage = .ended .failed := by
  subst hoptions
  have hbuild : build (.scanning loader) o s = _ := create_eq o s (checkStage o)
  rw [hbuild, ← creation_unread loader upkeep]
  cases (creation (.scanning loader) o).1 with
  | ok P =>
    dsimp only
    have late : (goTo (created (.scanning loader) o P) s (checkStage o P)).stage.IsLate := by
      rw [stage_goTo, checkStage]
      split <;> trivial
    refine ⟨?_, ?_, ?_⟩
    · unfold checkStage
      cases o.options.typeChecking with
      | false => exact ⟨fun _ => (by simp), fun _ => outcome?_run_of_sure trivial⟩
      | true =>
        have hchecked := outcome?_run_checking (c := .scanning loader)
          (created (.scanning loader) o P) s P
        exact hchecked.trans ⟨fun hnone _ => hnone, fun hnone => hnone rfl⟩
    · rw [run_late late]
      rfl
    · obtain ⟨ps, hps⟩ := exists_creation loader o
      rw [unread_run_late late]
      show (creation (.scanning loader) o).2.cache.unread = _
      rw [hps]
      exact SourceCache.unread_retainAll _ _
  | error e =>
    exact congrArg stage (run_of_ended _ (fail { o with
      host := (creation (.scanning loader) o).2 } s (.host e)) (Option.some_ne_none _))

/-- A cycle without code generation creates the program of the host whose reported paths were
invalidated, and writes nothing. -/
theorem make_skipping (loader : ResourceLoader) {o : Orchestrator} {s : Session}
    (hs : s.bound = false) (hoptions : o.options = options)
    (upkeep : Upkeep options [] o.programs o.drainedHost)
    (skip : options.skipCodeGeneration = true) :
    match (Scanning.createProgram options.roots options.compiler none o.drainedHost.unread).1 with
    | .ok P =>
      ((o.make (.scanning loader) s).stage.outcome? = some .succeeded ↔
          (options.typeChecking = true → Scanning.globalDiagnostics P = [])) ∧
        (o.make (.scanning loader) s).orchestrator.programs.current = some P ∧
        (o.make (.scanning loader) s).orchestrator.host.cache.unread = o.drainedHost.cache.unread
    | .error _ => (o.make (.scanning loader) s).stage = .ended .failed := by
  let started : Orchestrator := { o.drained with state := .programBuilding }
  have upkeep : Upkeep options [] started.programs started.host := upkeep
  have hrun := run_build_scanning loader s.bind upkeep hoptions
  rw [← make_of_skip (c := .scanning loader) o hs (hoptions ▸ skip)] at hrun
  exact hrun

/-- A cycle goes on from generating with the host that the generator leaves, or fails with it. -/
theorem run_generating (loader : ResourceLoader) {o : Orchestrator} (s : Session) (P : Program)
    (upkeep : Upkeep options [] o.programs o.host) (hoptions : o.options = options)
    (generates : options.skipCodeGeneration = false) :
    match Factory.generate options loader P o.host with
    | (.ok (), after) => ∃ o', o'.host = after ∧ o'.options = options ∧
        Upkeep options [] o'.programs o'.host ∧
        run (.scanning loader) (goTo o s (.generating P)) =
          run (.scanning loader) (build (.scanning loader) o' s)
    | (.error _, _) =>
      (run (.scanning loader) (goTo o s (.generating P))).stage = .ended .failed := by
  subst hoptions
  let started : Orchestrator := { o with state := .generating }
  have ran : generation (.scanning loader) started P =
      ⟨(Factory.generate o.options loader P o.host).1,
        (Factory.generate o.options loader P o.host).2, o.runs + 1⟩ :=
    if_neg (by simp [started, generates])
  have kept := upkeep.generate loader o.options P
  have hrun : run (.scanning loader) (goTo o s (.generating P)) =
      run (.scanning loader) (step (.scanning loader) ⟨started, s, .generating P⟩) := run_step _ _ rfl
  have steps := steps_step (c := .scanning loader) ⟨started, s, .generating P⟩
  rw [hrun]
  generalize step (.scanning loader) ⟨started, s, .generating P⟩ = next at steps ⊢
  cases hgenerate : Factory.generate o.options loader P o.host with
  | mk result after =>
    rw [hgenerate] at ran kept
    cases steps with
    | generate hok =>
      rw [ran] at hok
      obtain rfl : result = .ok () := hok
      -- the orchestrator as it is when the program to check is created
      let next : Orchestrator :=
        { generated (.scanning loader) started P with state := .programBuilding }
      have hhost : next.host = after := congrArg GeneratorRun.host ran
      have kept : Upkeep o.options [] next.programs next.host := hhost.symm ▸ kept
      exact ⟨next, hhost, rfl, kept, run_step _ (goTo next s .building) rfl⟩
    | @ungenerated _ _ _ e herror =>
      rw [ran] at herror
      obtain rfl : result = .error e := herror
      exact congrArg stage (run_of_ended _
        (fail (generated (.scanning loader) started P) s (.generation e)) nofun)

/-- A cycle with code generation generates for the program of the host whose reported paths were
invalidated, or fails for want of one. -/
theorem make_generating (loader : ResourceLoader) {o : Orchestrator} {s : Session}
    (hs : s.bound = false) (hoptions : o.options = options)
    (upkeep : Upkeep options [] o.programs o.drainedHost)
    (generates : options.skipCodeGeneration = false) :
    match (Scanning.createProgram options.roots options.compiler none o.drainedHost.unread).1 with
    | .ok P => ∃ o' ps, o'.host = o.drainedHost.retainAll ps ∧ o'.options = options ∧
        Upkeep options [] o'.programs o'.host ∧
        o.make (.scanning loader) s = run (.scanning loader) (goTo o' s.bind (.generating P))
    | .error _ => (o.make (.scanning loader) s).stage = .ended .failed := by
  subst hoptions
  let started : Orchestrator := { o.drained with state := .generating }
  have hmake : o.make (.scanning loader) s = run (.scanning loader)
      (step (.scanning loader) ⟨started, s.bind, .preparing⟩) := by
    rw [make_of_unbound o hs, if_neg (by simp [generates])]
    exact run_step _ _ rfl
  have upkeep : Upkeep started.options [] started.programs started.host := upkeep
  have hclean := creation_unread loader upkeep
  have steps := steps_step (c := .scanning loader) ⟨started, s.bind, .preparing⟩
  rw [hmake]
  generalize step (.scanning loader) ⟨started, s.bind, .preparing⟩ = next at steps ⊢
  cases steps with
  | @keep _ _ P hcurrent hcreated =>
    -- the current program is the one that would be created
    obtain ⟨P', hcurrent', hP⟩ := upkeep.current rfl hcreated
    obtain rfl : P = P' := Option.some.inj (hcurrent.symm.trans hcurrent')
    rw [show (Scanning.createProgram o.options.roots o.options.compiler none
      o.drainedHost.unread).1 = .ok P from hP]
    exact ⟨started, [], rfl, rfl, upkeep, rfl⟩
  | @prepare _ _ P hP =>
    obtain ⟨ps, hps⟩ := exists_creation loader started
    rw [show (Scanning.createProgram o.options.roots o.options.compiler none
      o.drainedHost.unread).1 = .ok P from hclean.symm.trans hP]
    exact ⟨created (.scanning loader) started P, ps, hps, rfl, upkeep.create _ hP, rfl⟩
  | @unprepared _ _ e herror =>
    rw [show (Scanning.createProgram o.options.roots o.options.compiler none
      o.drainedHost.unread).1 = .error e from hclean.symm.trans herror]
    exact congrArg stage (run_of_ended _ (fail { started with
      host := (creation (.scanning loader) started).2 } s.bind (.host e)) nofun)

end Cycle

/-- What a successful cycle with code generation makes of a host: factories are generated for the
program of the host, and the program of what is there afterwards stands up to the check. -/
structure Regenerates (options : BuildOptions) (loader : ResourceLoader) (h after : Host)
    (P : Program) : Prop where
  generated : ∃ input ps,
    (Scanning.createProgram options.roots options.compiler none h.unread).1 = .ok input ∧
      Factory.generate options loader input (h.retainAll ps) = (.ok (), after)
  created : (Scanning.createProgram options.roots options.compiler none after.unread).1 = .ok P
  checked : options.typeChecking = true → Scanning.globalDiagnostics P = []

namespace Orchestrator

variable {o : Orchestrator} {s : Session}

/-- A cycle with code generation that succeeds has regenerated the host. -/
theorem regenerates_of_make (hs : s.bound = false) (hoptions : o.options = options)
    (upkeep : Upkeep options [] o.programs o.drainedHost)
    (generates : options.skipCodeGeneration = false)
    (succeeded : (o.make (.scanning loader) s).stage.outcome? = some .succeeded) :
    ∃ after P, Regenerates options loader o.drainedHost after P ∧
      (o.make (.scanning loader) s).orchestrator.programs.current = some P ∧
      (o.make (.scanning loader) s).orchestrator.host.cache.unread = after.cache.unread := by
  have hmake := Cycle.make_generating loader hs hoptions upkeep generates
  cases hinput : (Scanning.createProgram options.roots options.compiler none
    o.drainedHost.unread).1 with
  | error e =>
    rw [hinput] at hmake
    rw [show (o.make (.scanning loader) s).stage = _ from hmake] at succeeded
    cases succeeded
  | ok input =>
    rw [hinput] at hmake
    obtain ⟨o', ps, hhost, hoptions', upkeep', heq⟩ := hmake
    have hrun := Cycle.run_generating loader s.bind input upkeep' hoptions' generates
    rw [heq] at succeeded ⊢
    rw [hhost] at hrun
    cases hgenerate : Factory.generate options loader input (o.drainedHost.retainAll ps) with
    | mk result after =>
      rw [hgenerate] at hrun
      cases result with
      | error e =>
        rw [show (Cycle.run _ _).stage = _ from hrun] at succeeded
        cases succeeded
      | ok =>
        obtain ⟨next, rfl, hoptions'', upkeep'', heq'⟩ := hrun
        have hbuild := Cycle.run_build_scanning loader s.bind upkeep'' hoptions''
        rw [heq'] at succeeded ⊢
        cases houtput : (Scanning.createProgram options.roots options.compiler none
          next.host.unread).1 with
        | error e =>
          rw [houtput] at hbuild
          rw [show (Cycle.run _ _).stage = _ from hbuild] at succeeded
          cases succeeded
        | ok P =>
          rw [houtput] at hbuild
          obtain ⟨hiff, hcurrent, hunread⟩ := hbuild
          exact ⟨next.host, P, ⟨⟨input, ps, hinput, hgenerate⟩, houtput, hiff.mp succeeded⟩,
            hcurrent, hunread⟩

/-- Where the host can be regenerated whatever is read before, a cycle succeeds. -/
theorem succeeded_of_regenerates (hs : s.bound = false) (hoptions : o.options = options)
    (upkeep : Upkeep options [] o.programs o.drainedHost)
    (generates : options.skipCodeGeneration = false) {input : Program}
    (hinput : (Scanning.createProgram options.roots options.compiler none
      o.drainedHost.unread).1 = .ok input)
    (regenerates : ∀ ps, ∃ after P,
      Factory.generate options loader input (o.drainedHost.retainAll ps) = (.ok (), after) ∧
        Regenerates options loader o.drainedHost after P) :
    (o.make (.scanning loader) s).stage.outcome? = some .succeeded := by
  have hmake := Cycle.make_generating loader hs hoptions upkeep generates
  rw [hinput] at hmake
  obtain ⟨o', ps, hhost, hoptions', upkeep', heq⟩ := hmake
  obtain ⟨after, P, hgenerate, regenerated⟩ := regenerates ps
  have hrun := Cycle.run_generating loader s.bind input upkeep' hoptions' generates
  rw [hhost, hgenerate] at hrun
  obtain ⟨next, rfl, hoptions'', upkeep'', heq'⟩ := hrun
  have hbuild := Cycle.run_build_scanning loader s.bind upkeep'' hoptions''
  rw [regenerated.created] at hbuild
  rw [heq, heq']
  exact hbuild.1.mpr regenerated.checked

end Orchestrator

end Precompile
