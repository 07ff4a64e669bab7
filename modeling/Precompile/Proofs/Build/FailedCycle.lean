import Precompile.Proofs.Build.Run

/-!
Cycles that fail.

Whatever made a cycle fail, nothing that is published has moved: routes, registry, markers and entry
module are those from before, no change is forgotten, and one error was reported
(`make_failed`).
-/

namespace Precompile

/-- What requests for modules, bundlers and later cycles see is the same. -/
structure Orchestrator.SamePublic (o o' : Orchestrator) : Prop where
  routes : o'.routes = o.routes
  published : o'.published = o.published
  registry : o'.registry = o.registry
  firstRun : o'.firstRun = o.firstRun
  lastDiscovery : o'.lastDiscovery = o.lastDiscovery
  diagnosed : o'.diagnosed = o.diagnosed
  entryModule : o'.entryModule = o.entryModule
  handedOn : o'.host.published = o.host.published

namespace Cycle

variable {c : Collaborators}

/-- A cycle has left what is public as it was, has forgotten no change, and has reported no more than
the given errors. -/
structure Contained (o : Orchestrator) (s : Session) (reported : List String) (cycle : Cycle) :
    Prop where
  samePublic : o.SamePublic cycle.orchestrator
  changed : ∀ p, o.host.cache.changed.contains p = true →
    cycle.orchestrator.host.cache.changed.contains p = true
  errors : cycle.session.errors = s.errors ++ reported
  warnings : cycle.session.warnings = s.warnings

variable {o : Orchestrator} {s : Session} {reported : List String} {cycle : Cycle}

/-- Using the host, replacing the programs and moving on keep a cycle contained. -/
theorem Contained.advance (h : Contained o s [] cycle) {host : Host}
    (use : cycle.orchestrator.host.Uses host) (programs : Programs) (runs : Nat)
    (queue : InvalidationQueue) (stage : Stage) :
    Contained o s []
      (goTo { cycle.orchestrator with host, programs, runs, queue } cycle.session stage) where
  samePublic := { h.samePublic with handedOn := use.published_eq.trans h.samePublic.handedOn }
  changed := fun p hp => use.changed (h.changed p hp)
  errors := h.errors
  warnings := h.warnings

/-- Failing reports one error. -/
theorem Contained.fail (h : Contained o s [] cycle) {host : Host}
    (use : cycle.orchestrator.host.Uses host) (runs : Nat) {t : Session}
    (errors : t.errors = cycle.session.errors) (warnings : t.warnings = cycle.session.warnings)
    (e : BuildError) :
    Contained o s [e.message] (fail { cycle.orchestrator with host, runs } t e) where
  samePublic := { h.samePublic with handedOn := use.published_eq.trans h.samePublic.handedOn }
  changed := fun p hp => use.changed (h.changed p hp)
  errors := congrArg (· ++ [e.message]) (errors.trans (h.errors.trans (List.append_nil _)))
  warnings := warnings.trans h.warnings

/-- What a run keeps: a cycle is contained as long as it can fail, and once it has failed it is but
for one error. -/
def Atomic (o : Orchestrator) (s : Session) (cycle : Cycle) : Prop :=
  (cycle.stage.CanFail → Contained o s [] cycle) ∧
    (cycle.stage = .ended .failed → ∃ message, Contained o s [message] cycle)

theorem Contained.atomic (h : Contained o s [] cycle) (going : cycle.stage ≠ .ended .failed) :
    Atomic o s cycle :=
  ⟨fun _ => h, fun failed => absurd failed going⟩

theorem Contained.atomic_of_failed {message : String} (h : Contained o s [message] cycle)
    (failed : cycle.stage = .ended .failed) : Atomic o s cycle :=
  ⟨fun can => by simp [failed, Stage.CanFail] at can, fun _ => ⟨message, h⟩⟩

theorem Contained.atomic_of_going (h : Contained o s [] cycle)
    (going : cycle.stage.outcome? = none) : Atomic o s cycle :=
  h.atomic fun failed => by simp [failed, Stage.outcome?] at going

/-- Once nothing can fail any more there is nothing to keep. -/
theorem atomic_of_safe (cannot : ¬ cycle.stage.CanFail)
    (safe : cycle.stage.outcome? = none ∨ cycle.stage.outcome? = some .succeeded) :
    Atomic o s cycle :=
  ⟨fun can => absurd can cannot, fun failed => by simp [failed, Stage.outcome?] at safe⟩

/-- Each step keeps a cycle atomic. -/
theorem Steps.atomic {next : Cycle} (steps : Steps c cycle next) (careful : c.Careful)
    (h : Atomic o s cycle) : Atomic o s next := by
  obtain ⟨contained, failed⟩ := h
  -- whatever the collaborators do, they only use the host
  have used : ∀ o : Orchestrator, o.host.Uses (creation c o).2 := uses_creation careful
  have ran : ∀ (o : Orchestrator) P, o.host.Uses (generation c o P).host :=
    uses_generation careful
  cases steps with
  | invalidate o' s' =>
    refine ((contained trivial).advance o'.uses_drainedHost _ _ .empty _).atomic_of_going ?_
    rw [stage_goTo]
    split <;> rfl
  | keep => exact ((contained trivial).advance .refl _ _ _ _).atomic_of_going rfl
  | @prepare o' => exact ((contained trivial).advance (used o') _ _ _ _).atomic_of_going rfl
  | @generate o' _ P => exact ((contained trivial).advance (ran o' P) _ _ _ _).atomic_of_going rfl
  | @ungenerated o' _ P =>
    exact ((contained trivial).fail (ran o' P) _ rfl rfl _).atomic_of_failed rfl
  | @build o' =>
    refine ((contained trivial).advance (used o') _ _ _ _).atomic_of_going ?_
    rw [stage_goTo, checkStage]
    split <;> rfl
  | @unprepared o' =>
    exact ((contained trivial).fail (used o') _ rfl rfl _).atomic_of_failed rfl
  | @unbuilt o' =>
    exact ((contained trivial).fail (used o') _ rfl rfl _).atomic_of_failed rfl
  | check => exact atomic_of_safe id (.inl rfl)
  | @unchecked o' s' P =>
    exact ((contained trivial).fail (t := s'.record _) .refl _ rfl rfl _).atomic_of_failed rfl
  | settle => exact atomic_of_safe id (.inr rfl)
  | ended => exact ⟨contained, failed⟩
  | _ => exact atomic_of_safe id (.inl rfl)

end Cycle

namespace Orchestrator

variable {c : Collaborators} {o : Orchestrator} {s : Session}

theorem contained_drained (o : Orchestrator) (s : Session) (stage : Stage) :
    Cycle.Contained o.drained s [] (Cycle.goTo o.drained s.bind stage) :=
  ⟨⟨rfl, rfl, rfl, rfl, rfl, rfl, rfl, rfl⟩, fun _ h => h, (List.append_nil _).symm, rfl⟩

/-- A cycle that fails leaves everything that is public as it was. It forgets no change, every path
that it took from the queue counts as changed, and it reports one error and no warning. Nothing is
assumed of the collaborators but that they use the host carefully. -/
theorem make_failed (careful : c.Careful) (o : Orchestrator) {s : Session} (unbound : s.bound = false)
    (failed : (o.make c s).stage = .ended .failed) :
    let after := o.make c s
    o.SamePublic after.orchestrator ∧
      (∀ p, o.host.cache.changed.contains p = true →
        after.orchestrator.host.cache.changed.contains p = true) ∧
      (∀ p ∈ o.queue.toList, after.orchestrator.host.cache.changed.contains p.normalize = true) ∧
      (∃ message, after.session.errors = s.errors ++ [message]) ∧
      after.session.warnings = s.warnings := by
  intro after
  have atomic : Cycle.Atomic o.drained s after := by
    -- nothing public has moved when the queue was taken, and each step keeps it so
    have going : (if o.options.skipCodeGeneration then Stage.building else .preparing) ≠
        .ended .failed := by
      split <;> exact nofun
    have hafter : after = Cycle.run c _ := Cycle.make_of_unbound o unbound
    rw [hafter]
    exact Cycle.run_induction (fun r _ h => (Cycle.steps_step r).atomic careful h) _
      ((contained_drained o s _).atomic going)
  obtain ⟨message, contained⟩ := atomic.2 failed
  have same := contained.samePublic
  refine ⟨⟨same.routes, same.published, same.registry, same.firstRun, same.lastDiscovery,
    same.diagnosed, same.entryModule, ?_⟩, fun p hp => ?_, fun p hp => ?_,
    ⟨message, contained.errors⟩, contained.warnings⟩
  · exact same.handedOn.trans o.uses_drainedHost.published_eq
  · exact contained.changed p (o.uses_drainedHost.changed hp)
  · exact contained.changed p.normalize (o.changed_drainedHost hp)

/-- Collaborators whose checker never creates a program. -/
def refusing : Collaborators :=
  ⟨{ Scanning.checker with createProgram := fun _ _ _ h => (.error (.program "no roots"), h) },
    Factory.generator, .ofFiles⟩

theorem careful_refusing : refusing.Careful where
  createProgram := fun _ _ _ _ => .refl
  generate := (Collaborators.careful_scanning .ofFiles).generate
  listAllRoutes := (Collaborators.careful_scanning .ofFiles).listAllRoutes

/-- A reported path is still a changed one after a cycle in which no program could be created. -/
theorem make_failed_of_refusing :
    let o := ((ofHost refusing plainOptions (.ofFiles (.memory .empty) plainOptions.basePath)).attach
      .empty).queueAll [⟨"/p/main.ts"⟩]
    (o.make refusing .fresh).stage = .ended .failed ∧
      o.SamePublic (o.make refusing .fresh).orchestrator ∧
      (o.make refusing .fresh).orchestrator.host.cache.changed.contains ⟨"/p/main.ts"⟩ = true ∧
      ∃ message, (o.make refusing .fresh).session.errors = [message] := by
  intro o
  have failed : (o.make refusing .fresh).stage = .ended .failed := by
    rw [Cycle.make_of_skip o rfl rfl]
    refine congrArg Cycle.stage (Cycle.run_of_ended refusing _ ?_)
    show (some CycleOutcome.failed) ≠ none
    exact nofun
  obtain ⟨same, -, drained, reported, -⟩ := make_failed careful_refusing o rfl failed
  refine ⟨failed, same, ?_, reported⟩
  have hnormal : Path.normalize ⟨"/p/main.ts"⟩ = ⟨"/p/main.ts"⟩ := by decide +kernel
  rw [← hnormal]
  exact drained ⟨"/p/main.ts"⟩ (by decide +kernel)

end Orchestrator

end Precompile
