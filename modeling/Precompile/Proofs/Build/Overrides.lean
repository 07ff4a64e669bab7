import Precompile.Proofs.Build.Interleaving
import Precompile.Proofs.Build.Versions

/-!
Texts that take the place of files.

Overrides are written before the first program is created, and held from then on like everything
else that is held in memory. So an override stands until a cycle takes up a report of its path, or
the generator has a factory to put there (`Orchestrator.override_stands`).
-/

namespace Precompile

variable {p : Path} {content : String}

/-! ### What is held through reading, retiring and generating -/

theorem SourceCache.Holds.retainAll {h : Host} (holds : h.cache.Holds p content) (normal : p.IsNormal)
    (qs : List Path) : (h.retainAll qs).cache.Holds p content :=
  Host.retainAll_induction (Q := fun g => g.cache.Holds p content)
    (fun _ q holds => holds.retain normal q) qs holds

/-- Only paths strictly below the directory are retired. -/
theorem SourceCache.amid_retire (edits : Path → Prop) (c : SourceCache) (dir : Path)
    (keep : List Path) : c.Amid edits (fun q => dir.normalize.Below q) [] (c.retire dir keep) := by
  apply List.foldlRecOn (motive := fun c' => c.Amid edits _ [] c') _ drop .refl
  intro c' amid q hq
  have below : dir.normalize.Below q := (mem_writtenBelow.mp (List.mem_of_mem_filter hq)).2
  exact amid.drop q fun _ same => below.congr same

namespace Factory

/-- The generator has a factory to put at a path. -/
def Places (o : BuildOptions) (P : Program) (h : Host) (p : Path) : Prop :=
  ∃ f ∈ reachedFiles o P h, getsFactory o f = true ∧ (placeOf o f).Same p

/-- A generation writes where it has a factory to put, and drops only what lies below the directory
of generated files. -/
theorem amid_generate (edits : Path → Prop) (o : BuildOptions) (loader : ResourceLoader)
    (P : Program) (h : Host) : ∃ texts, h.cache.Amid edits
      (fun q => Places o P h q ∨ o.genDir.normalize.Below q) texts (generate o loader P h).2.cache := by
  refine generate_induction (Q := fun g => ∃ texts, h.cache.Amid edits _ texts g.cache)
    ?_ loader ?_ ?_ ⟨[], .refl⟩
  · rintro g q ⟨texts, amid⟩
    exact ⟨_, amid.read q⟩
  · rintro f hf gets g content ⟨texts, amid⟩
    have normal : (placeOf o f).normalize = placeOf o f := Path.isNormal_normalize _
    exact ⟨texts, amid.write _ content false fun q same =>
      .inl ⟨f, hf, gets, normal ▸ same⟩⟩
  · rintro g keep ⟨texts, amid⟩
    exact ⟨_, amid.trans ((g.cache.amid_retire edits o.genDir keep).mono fun _ => .inr)⟩

end Factory

/-! ### Programs -/

/-- A program has no other text at a path than a given one. -/
def Program.HasOnly (P : Program) (p : Path) (content : String) : Prop :=
  ∀ e ∈ P.files.entries, e.1.normalize = p → e.2 = content

/-- A program that is created over a host has what the host holds. -/
theorem Scanning.hasOnly_createProgram {roots : List Path} {options : CompilerOptions}
    {previous : Option Program} {h : Host} {P : Program} (normal : p.IsNormal)
    (holds : h.cache.Holds p content)
    (hP : (createProgram roots options previous h).1 = .ok P) : P.HasOnly p content := by
  intro e he same
  obtain ⟨settled, source⟩ := source_of_mem_files hP e he
  have hpath : e.1 = p := (show e.1.normalize = e.1 from settled).symm.trans same
  have served := (Host.source_eq_some_iff.mp source).2
  rw [hpath, holds.serve normal] at served
  exact (Except.ok.inj served).symm

/-- What a cycle is about to work with has no other text at a path than a given one. -/
def Stage.HasOnly (stage : Stage) (p : Path) (content : String) : Prop :=
  ∀ e ∈ stage.texts, e.1.normalize = p → e.2 = content

namespace Cycle

variable {start : Orchestrator} {cycle next : Cycle} {loader : ResourceLoader}

/-- The next step of a cycle does away with what is held at a path: it takes up a report of the path,
or it runs the generator, which has a factory to put there. -/
def Displaces (cycle : Cycle) (p : Path) : Prop :=
  match cycle.stage with
  | .invalidating => cycle.orchestrator.Reported p
  | .generating P => Factory.Places cycle.orchestrator.options P cycle.orchestrator.host p
  | _ => False

instance (cycle : Cycle) (p : Path) : Decidable (cycle.Displaces p) :=
  match cycle with
  | ⟨o, _, .invalidating⟩ =>
    inferInstanceAs (Decidable (∃ q ∈ o.queue.toList, q.normalize = p.normalize))
  | ⟨o, _, .generating P⟩ =>
    inferInstanceAs (Decidable (∃ f ∈ Factory.reachedFiles o.options P o.host,
      Factory.getsFactory o.options f = true ∧ (Factory.placeOf o.options f).Same p))
  | ⟨_, _, .preparing⟩ | ⟨_, _, .building⟩ | ⟨_, _, .checking _⟩ | ⟨_, _, .discovering _⟩
  | ⟨_, _, .merging _⟩ | ⟨_, _, .publishing⟩ | ⟨_, _, .registering⟩ | ⟨_, _, .settling⟩
  | ⟨_, _, .ended _⟩ => inferInstanceAs (Decidable False)

/-- What can become of an orchestrator as long as no step does away with what is held at a path.
Files are edited, paths are reported and a bundler is attached at any moment between two steps. -/
inductive Sparing (c : Collaborators) (start : Orchestrator) (p : Path) : Cycle → Prop where
  | start (s : Session) (outcome : CycleOutcome) : Sparing c start p ⟨start, s, .ended outcome⟩
  | react {cycle : Cycle} (e : Event) : Sparing c start p cycle →
      (e = .step → ¬ cycle.Displaces p) → Sparing c start p (react c cycle e)
  | attach {cycle : Cycle} (r : Registry) : Sparing c start p cycle →
      Sparing c start p { cycle with orchestrator := cycle.orchestrator.attach r }
  | onInvalid {cycle : Cycle} : Sparing c start p cycle →
      Sparing c start p { cycle with orchestrator := cycle.orchestrator.onInvalid }
  | diagnose {cycle : Cycle} (q : Path) (s : Session) : Sparing c start p cycle →
      Sparing c start p { cycle with orchestrator := (cycle.orchestrator.diagnose c q s).1 }

/-- A text is held at a path outside the directory of generated files, and programs have no other
text there. -/
structure Holding (p : Path) (content : String) (cycle : Cycle) : Prop where
  held : cycle.orchestrator.host.cache.Holds p content
  outside : ¬ cycle.orchestrator.options.genDir.normalize.Below p
  current : ∀ P, cycle.orchestrator.programs.current = some P → P.HasOnly p content
  stage : cycle.stage.HasOnly p content

/-- What leaves the programs alone only has to see to the host and to the program that it goes on
with. -/
theorem Holding.goes (h : Holding p content cycle)
    (held : next.orchestrator.host.cache.Holds p content)
    (options : next.orchestrator.options = cycle.orchestrator.options)
    (programs : next.orchestrator.programs = cycle.orchestrator.programs)
    (stage : next.stage.HasOnly p content) : Holding p content next where
  held := held
  outside := options ▸ h.outside
  current := programs ▸ h.current
  stage := stage

theorem Sparing.steps {c : Collaborators} (sparing : Sparing c start p cycle) (n : Nat)
    (spared : ∀ k < n, ¬ (reactAll c cycle (List.replicate k .step)).Displaces p) :
    Sparing c start p (reactAll c cycle (List.replicate n .step)) := by
  induction n with
  | zero => exact sparing
  | succ n ih =>
    have last : reactAll c cycle (List.replicate (n + 1) .step) =
        Cycle.react c (reactAll c cycle (List.replicate n .step)) .step := by
      rw [List.replicate_succ', reactAll, List.foldl_append]
      rfl
    rw [last]
    exact .react .step (ih fun k hk => spared k (Nat.lt_succ_of_lt hk)) fun _ =>
      spared n (Nat.lt_succ_self n)

/-! ### Steps -/

theorem holds_creation {o : Orchestrator} (normal : p.IsNormal)
    (held : o.host.cache.Holds p content) :
    (creation (.scanning loader) o).2.cache.Holds p content := by
  obtain ⟨qs, hqs⟩ := Scanning.createProgram_host o.options.roots o.options.compiler
    o.programs.current o.host
  show (Scanning.createProgram _ _ _ _).2.cache.Holds p content
  rw [hqs]
  exact held.retainAll normal qs

theorem holds_generation {o : Orchestrator} {P : Program} (normal : p.IsNormal)
    (held : o.host.cache.Holds p content) (outside : ¬ o.options.genDir.normalize.Below p)
    (spared : ¬ Factory.Places o.options P o.host p) :
    (generation (.scanning loader) o P).host.cache.Holds p content := by
  unfold generation CodeGenerator.run
  split
  · exact held
  · obtain ⟨texts, amid⟩ := Factory.amid_generate (fun _ => False) o.options loader P o.host
    exact amid.holds normal (fun moved => moved.elim spared outside) held

/-- What was not reported is still held once the reported paths were invalidated. -/
theorem holds_drainedHost {o : Orchestrator} (normal : p.IsNormal)
    (held : o.host.cache.Holds p content) (spared : ¬ o.Reported p) :
    o.drainedHost.cache.Holds p content := by
  obtain ⟨origin, hget⟩ := held
  refine ⟨origin, ?_⟩
  rw [o.cache_drainedHost, SourceCache.foldl_invalidate, SourceCache.get?_dropAll, if_neg, hget]
  rintro ⟨q, hq, same⟩
  obtain ⟨r, hr, rfl⟩ := List.mem_map.mp hq
  refine spared ⟨r, hr, ?_⟩
  rw [(Path.isNormal_normalize r).eq_of_same normal same, show p.normalize = p from normal]

/-- A program that is created becomes the current one, and the cycle may go on with it. -/
theorem Holding.creates {o : Orchestrator} {s : Session} {stage next : Stage} {P : Program}
    (h : Holding p content ⟨o, s, stage⟩) (normal : p.IsNormal)
    (hP : (creation (.scanning loader) o).1 = .ok P)
    (texts : next.texts = P.files.entries ∨ next.texts = []) :
    Holding p content (goTo (created (.scanning loader) o P) s next) := by
  have only : P.HasOnly p content := Scanning.hasOnly_createProgram normal h.held hP
  refine ⟨holds_creation normal h.held, h.outside, fun Q hQ => ?_, fun e he => ?_⟩
  · cases hQ
    exact only
  · rcases texts with same | none
    · exact only e (same ▸ he)
    · exact absurd (none ▸ he) List.not_mem_nil

theorem Holding.step (h : Holding p content cycle) (normal : p.IsNormal)
    (spared : ¬ cycle.Displaces p) : Holding p content (Cycle.step (.scanning loader) cycle) := by
  have steps := steps_step (c := .scanning loader) cycle
  have bare : ∀ stage : Stage, stage.texts = [] → stage.HasOnly p content := by
    intro stage none e he
    exact absurd (none ▸ he) List.not_mem_nil
  generalize Cycle.step (.scanning loader) cycle = next at steps ⊢
  cases steps with
  | invalidate o s =>
    refine h.goes (holds_drainedHost normal h.held spared) rfl rfl (bare _ ?_)
    rw [stage_goTo]
    split <;> rfl
  | keep hcurrent => exact h.goes h.held rfl rfl (h.current _ hcurrent)
  | prepare hP => exact h.creates normal hP (.inl rfl)
  | unprepared => exact h.goes (holds_creation normal h.held) rfl rfl (bare _ rfl)
  | generate =>
    exact h.goes (holds_generation normal h.held h.outside spared) rfl rfl (bare _ rfl)
  | ungenerated =>
    exact h.goes (holds_generation normal h.held h.outside spared) rfl rfl (bare _ rfl)
  | build hP =>
    refine h.creates normal hP (.inl ?_)
    unfold checkStage
    split <;> rfl
  | unbuilt => exact h.goes (holds_creation normal h.held) rfl rfl (bare _ rfl)
  | check => exact h.goes h.held rfl rfl h.stage
  | discoverAll => exact h.goes (h.held.retainAll normal _) rfl rfl (bare _ rfl)
  | ended => exact h
  | unchecked | discoverChanged | merge | publish | unregistered | register | settle =>
    exact h.goes h.held rfl rfl (bare _ rfl)

/-- What happens between two steps does not touch what is held. -/
theorem Holding.react (h : Holding p content cycle) (normal : p.IsNormal) {e : Event}
    (spared : e = .step → ¬ cycle.Displaces p) :
    Holding p content (Cycle.react (.scanning loader) cycle e) := by
  cases e with
  | report q => exact h.goes h.held rfl rfl h.stage
  | edit files => exact h.goes h.held rfl rfl h.stage
  | begin s =>
    by_cases going : cycle.stage.outcome? = none
    · rwa [react_begin_of_going going]
    · rw [react_begin_of_ended going]
      unfold Cycle.begin
      split
      · exact h.goes h.held rfl rfl nofun
      · exact h.goes h.held rfl rfl nofun
  | step => exact h.step normal (spared rfl)

theorem Sparing.holding (sparing : Sparing (.scanning loader) start p cycle) (normal : p.IsNormal)
    (first : ∀ s outcome, Holding p content ⟨start, s, .ended outcome⟩) :
    Holding p content cycle := by
  induction sparing with
  | start s outcome => exact first s outcome
  | react e _ spared ih => exact ih.react normal spared
  | attach r _ ih => exact ih.goes ih.held rfl rfl ih.stage
  | onInvalid _ ih => exact ih.goes ih.held rfl rfl ih.stage
  | @diagnose cycle q s _ ih =>
    obtain ⟨diagnosed, heq⟩ :=
      Orchestrator.diagnose_eq (.scanning loader) q s cycle.orchestrator
    rw [heq]
    exact ih.goes ih.held rfl rfl ih.stage

end Cycle

/-! ### Setting up -/

namespace Orchestrator

open Precompile.Cycle (Holding Sparing)

variable {loader : ResourceLoader} {start : Orchestrator} {cycle : Cycle}

/-- The cache of a host in which overrides were written. -/
theorem entries_writeOverrides (h : Host) (overrides : PathMap String) :
    (writeOverrides h overrides).cache.entries = h.cache.entries.insertAll
      (overrides.entries.map fun e => (e.1.normalize, ⟨e.2, .written false⟩)) := by
  unfold writeOverrides
  induction overrides.entries generalizing h with
  | nil => rfl
  | cons e es ih => exact ih (h.mapCache fun c => c.write e.1 e.2 false)

theorem holds_writeOverrides (h : Host) {overrides : PathMap String}
    (normal : ∀ e ∈ overrides.entries, e.1.IsNormal) (there : (p, content) ∈ overrides.entries) :
    (writeOverrides h overrides).cache.Holds p content := by
  have settled : p.IsNormal := normal (p, content) there
  refine ⟨.written false, ?_⟩
  rw [entries_writeOverrides]
  refine OrderedMap.get?_insertAll_of_agree (.inr ?_) ?_
  · refine List.mem_map.mpr ⟨(p, content), there, ?_⟩
    rw [show p.normalize = p from settled]
  · intro e' he' same
    obtain ⟨e, he, rfl⟩ := List.mem_map.mp he'
    -- two overrides of one path are the same entry
    have hkey : e.1.Same p := (show e.1.normalize = e.1 from normal e he) ▸ same
    rw [OrderedMap.eq_of_key_eq he there hkey]

theorem holding_ofHost {options : BuildOptions} {h : Host}
    (normal : ∀ e ∈ options.overrides.entries, e.1.IsNormal)
    (override : (p, content) ∈ options.overrides.entries)
    (outside : ¬ options.genDir.normalize.Below p) (s : Session) (outcome : CycleOutcome) :
    Holding p content ⟨ofHost (.scanning loader) options h, s, .ended outcome⟩ := by
  have seeded := holds_writeOverrides h normal override
  have settled : p.IsNormal := normal (p, content) override
  refine ⟨?_, outside, fun P hP => ?_, nofun⟩
  · obtain ⟨qs, hqs⟩ := exists_host_ofHost (.scanning loader) options h
    obtain ⟨rs, hrs⟩ := Scanning.createProgram_host options.roots options.compiler none
      (writeOverrides h options.overrides)
    have created : (Scanning.createProgram options.roots options.compiler none
        (writeOverrides h options.overrides)).2.cache.Holds p content := by
      rw [hrs]
      exact seeded.retainAll settled rs
    show (ofHost (.scanning loader) options h).host.cache.Holds p content
    rw [hqs]
    exact SourceCache.Holds.retainAll (h := Host.mapCache _ SourceCache.enableCaching) created
      settled qs
  · have programs := programs_ofHost (.scanning loader) options h
    have current : (ofHost (.scanning loader) options h).programs.current = some P := hP
    rw [programs] at current
    split at current
    next hcreate =>
      cases current
      exact Scanning.hasOnly_createProgram settled seeded hcreate
    next => cases current

/-- What becomes of an override. -/
structure Overrides (loader : ResourceLoader) (p : Path) (content : String) (cycle : Cycle) :
    Prop where
  -- The host serves it, in whatever spelling its path is asked for.
  served : ∀ q : Path, q.normalize = p →
    cycle.orchestrator.host.source q = .ok (some ⟨p, content⟩)
  -- Neither the last program that was created nor the one that the cycle works with has another text.
  current : ∀ P, cycle.orchestrator.programs.current = some P → P.HasOnly p content
  stage : cycle.stage.HasOnly p content
  -- A cycle that takes up a report of the path leaves it to the file system, like any other path.
  released : cycle.stage = .invalidating → cycle.orchestrator.Reported p →
    ∀ q : Path, q.normalize = p →
      (Cycle.step (.scanning loader) cycle).orchestrator.host.cache.serve q =
        cycle.orchestrator.host.cache.files.read p

/-- However files are edited, paths are reported and cycles run, an override outside the directory of
generated files stands until a cycle takes up a report of its path or has a factory to put there. -/
theorem override_stands {given : UserOptions} {cwd : Path} {files : FileSystem}
    (ready : setUp (.scanning loader) given cwd files = .ok start)
    (override : (p, content) ∈ start.options.overrides.entries)
    (outside : ¬ start.options.genDir.normalize.Below p)
    (sparing : Sparing (.scanning loader) start p cycle) : Overrides loader p content cycle := by
  obtain ⟨options, rfl, normal, -⟩ := exists_ofHost_of_setUp ready
  have settled : p.IsNormal := normal (p, content) override
  have holding := sparing.holding settled (holding_ofHost normal override outside)
  refine ⟨fun q hq => ?_, holding.current, holding.stage, fun first reported q hq => ?_⟩
  · have served : cycle.orchestrator.host.cache.serve q = .ok content := by
      rw [← holding.held.serve settled]
      unfold SourceCache.serve
      rw [hq, show p.normalize = p from settled]
    exact Host.source_eq_some_iff.mpr ⟨hq.symm, served⟩
  · obtain ⟨r, hr, hsame⟩ := reported
    have hstep : (Cycle.step (.scanning loader) cycle).orchestrator.host =
        cycle.orchestrator.drainedHost := by
      simp only [Cycle.step, first]
      rfl
    have gone := cycle.orchestrator.contains_drainedHost hr
    rw [hsame, show p.normalize = p from settled, ← OrderedMap.get?_eq_none_iff] at gone
    rw [hstep, SourceCache.serve, hq, gone]
    exact congrArg (FileSystem.read · p) cycle.orchestrator.uses_drainedHost.files_eq

/-- A build whose configuration lists one main file, where a text takes the place of a file. -/
def overriding (main name text : String) (files : MemoryFiles) : Except ConfigError Orchestrator :=
  setUp (.scanning .ofFiles)
    { (default : UserOptions) with
      tsConfigPath := some "tsconfig.json"
      hostOverrideFileSystem := .ofList [(name, text)] }
    ⟨"/p"⟩
    (.memory (files.insert ⟨"/p/tsconfig.json"⟩ ("\x7b\"files\":[\"" ++ main ++ "\"]\x7d")))

theorem not_below_of_startsWith {dir : Path} (apart : p.startsWith dir = false) : ¬ dir.Below p := by
  intro below
  rw [(Path.below_iff.mp below).2] at apart
  cases apart

/-- A main file without any class. -/
def plainMain : MemoryFiles := MemoryFiles.empty.insert ⟨"/p/m.ts"⟩ "const a;"

/-- A cycle that begins once the main file was edited on the file system and another path was
reported. -/
def begunElsewhere (o : Orchestrator) : Cycle :=
  Cycle.reactAll (.scanning .ofFiles) ⟨o, .fresh, .ended .succeeded⟩
    [.edit (.memory (plainMain.insert ⟨"/p/m.ts"⟩ "")), .report ⟨"/p/n.ts"⟩, .begin .fresh]

/-- The override of the main file is what factories are generated for and what is checked, whatever
the file system has. -/
theorem override_stands_unreported : ∃ start,
    overriding "m.ts" "m.ts" "let b;" plainMain = .ok start ∧
      let cycle := Cycle.reactAll (.scanning .ofFiles) (begunElsewhere start) (List.replicate 4 .step)
      cycle.stage.texts.map (·.1) = [⟨"/p/m.ts"⟩] ∧
        Overrides .ofFiles ⟨"/p/m.ts"⟩ "let b;" cycle := by
  have seen : (overriding "m.ts" "m.ts" "let b;" plainMain).toOption.any (fun o =>
      decide ((⟨"/p/m.ts"⟩, "let b;") ∈ o.options.overrides.entries ∧
        Path.startsWith ⟨"/p/m.ts"⟩ o.options.genDir.normalize = false ∧
        (∀ k < 4, ¬ (Cycle.reactAll (.scanning .ofFiles) (begunElsewhere o)
          (List.replicate k .step)).Displaces ⟨"/p/m.ts"⟩) ∧
        (Cycle.reactAll (.scanning .ofFiles) (begunElsewhere o)
          (List.replicate 4 .step)).stage.texts.map (·.1) = [⟨"/p/m.ts"⟩])) = true := by
    decide +kernel
  obtain ⟨start, ready, override, outside, spared, checked⟩ := exists_of_any seen
  have begun : Sparing (.scanning .ofFiles) start ⟨"/p/m.ts"⟩ (begunElsewhere start) :=
    .react (.begin .fresh) (.react (.report _) (.react (.edit _) (.start _ _) nofun) nofun) nofun
  exact ⟨start, ready, checked, override_stands ready override (not_below_of_startsWith outside)
    (begun.steps 4 spared)⟩

/-- The host serves another text than an override, and the last program has that text. -/
def GivesWay (p : Path) (content : String) (cycle : Cycle) : Prop :=
  ∃ text ≠ content, cycle.orchestrator.host.source p = .ok (some ⟨p, text⟩) ∧
    ∃ P, cycle.orchestrator.programs.current = some P ∧ P.files.get? p = some text

/-- The same as it can be computed. -/
def givesWay (p : Path) (content : String) : Cycle → Bool
  | ⟨o, _, _⟩ =>
    match o.programs.current, o.host.cache.serve p with
    | some P, .ok text => decide (text ≠ content) && decide (P.files.get? p = some text)
    | _, _ => false

theorem GivesWay.of_givesWay (normal : p.IsNormal) (seen : givesWay p content cycle = true) :
    GivesWay p content cycle := by
  obtain ⟨o, s, stage⟩ := cycle
  unfold givesWay at seen
  dsimp only at seen
  split at seen
  next P text current served =>
    simp only [Bool.and_eq_true, decide_eq_true_eq] at seen
    obtain ⟨other, there⟩ := seen
    exact ⟨text, other, Host.source_eq_some_iff.mpr ⟨normal.symm, served⟩, P, current, there⟩
  next => cases seen

/-- A decorated class outside the base path. -/
def decoratedElsewhere : MemoryFiles := MemoryFiles.empty.insert ⟨"/a.ts"⟩ "@NgModule()class A"

/-- A report of its path does away with an override, and so does the factory of a class outside the
base path. -/
theorem override_gives_way :
    (∃ start, overriding "m.ts" "m.ts" "" plainMain = .ok start ∧
      (⟨"/p/m.ts"⟩, "") ∈ start.options.overrides.entries ∧
      ¬ start.options.genDir.normalize.Below ⟨"/p/m.ts"⟩ ∧
      GivesWay ⟨"/p/m.ts"⟩ ""
        ((start.queueAll [⟨"/p/m.ts"⟩]).make (.scanning .ofFiles) .fresh)) ∧
    ∃ start, overriding "../a.ts" "a.ngfactory.ts" "" decoratedElsewhere = .ok start ∧
      (⟨"/p/a.ngfactory.ts"⟩, "") ∈ start.options.overrides.entries ∧
      ¬ start.options.genDir.normalize.Below ⟨"/p/a.ngfactory.ts"⟩ ∧
      GivesWay ⟨"/p/a.ngfactory.ts"⟩ "" (start.make (.scanning .ofFiles) .fresh) := by
  constructor
  · have seen : (overriding "m.ts" "m.ts" "" plainMain).toOption.any (fun o =>
        decide ((⟨"/p/m.ts"⟩, "") ∈ o.options.overrides.entries ∧
          Path.startsWith ⟨"/p/m.ts"⟩ o.options.genDir.normalize = false ∧
          givesWay ⟨"/p/m.ts"⟩ ""
            ((o.queueAll [⟨"/p/m.ts"⟩]).make (.scanning .ofFiles) .fresh) = true)) = true := by
      decide +kernel
    obtain ⟨start, ready, override, outside, other⟩ := exists_of_any seen
    exact ⟨start, ready, override, not_below_of_startsWith outside,
      .of_givesWay (by decide +kernel) other⟩
  · have seen : (overriding "../a.ts" "a.ngfactory.ts" "" decoratedElsewhere).toOption.any (fun o =>
        decide ((⟨"/p/a.ngfactory.ts"⟩, "") ∈ o.options.overrides.entries ∧
          Path.startsWith ⟨"/p/a.ngfactory.ts"⟩ o.options.genDir.normalize = false ∧
          givesWay ⟨"/p/a.ngfactory.ts"⟩ "" (o.make (.scanning .ofFiles) .fresh) = true)) =
          true := by
      decide +kernel
    obtain ⟨start, ready, override, outside, other⟩ := exists_of_any seen
    exact ⟨start, ready, override, not_below_of_startsWith outside,
      .of_givesWay (by decide +kernel) other⟩

end Orchestrator

end Precompile
