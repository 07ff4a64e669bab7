import Precompile.Proofs.Build.Run

/-!
Reports between the steps of cycles.

Paths are reported, files are edited and cycles begin in any order between the steps of a cycle
(`Cycle.react`). A report waits in the queue and changes nothing else until the next cycle takes it
up; from then on its path counts as changed until a cycle succeeds, and that cycle looks for routes
in it (`Cycle.report_delivered`).
-/

namespace Precompile

/-- What can happen around a cycle and in it. -/
inductive Event where
  -- A path is reported.
  | report (p : Path)
  -- The files are edited.
  | edit (files : FileSystem)
  -- A cycle is to begin. It does so only if none is on its way.
  | begin (s : Session)
  -- The cycle takes its next step.
  | step

/-- Routes were looked for in this cycle. -/
def Stage.HasDiscovered : Stage → Prop
  | .merging _ | .publishing | .registering | .settling => True
  | _ => False

namespace Cycle

variable {c : Collaborators}

/-- The cycle with another queue. -/
def withQueue (cycle : Cycle) (queue : InvalidationQueue) : Cycle :=
  { cycle with orchestrator := { cycle.orchestrator with queue } }

/-- What becomes of a cycle by an event. -/
def react (c : Collaborators) (cycle : Cycle) : Event → Cycle
  | .report p => cycle.withQueue (cycle.orchestrator.queue.push p)
  | .edit files =>
    { cycle with orchestrator := cycle.orchestrator.mapHost (·.mapFiles fun _ => files) }
  | .begin s => if cycle.stage.outcome?.isSome then begin cycle.orchestrator s else cycle
  | .step => step c cycle

/-- What becomes of a cycle by several events, one after the other. -/
def reactAll (c : Collaborators) (cycle : Cycle) (events : List Event) : Cycle :=
  events.foldl (react c) cycle

/-- No event of a trace is a step at a given stage. -/
def Avoids (c : Collaborators) (stage : Stage → Prop) (cycle : Cycle) (events : List Event) : Prop :=
  ∀ before after, events = before ++ .step :: after → ¬ stage (reactAll c cycle before).stage

theorem Avoids.head {stage : Stage → Prop} {cycle : Cycle} {events : List Event}
    (h : Avoids c stage cycle (.step :: events)) : ¬ stage cycle.stage :=
  h [] events rfl

theorem Avoids.tail {stage : Stage → Prop} {cycle : Cycle} {e : Event} {events : List Event}
    (h : Avoids c stage cycle (e :: events)) : Avoids c stage (react c cycle e) events :=
  fun before after heq => h (e :: before) after (congrArg (e :: ·) heq)

theorem react_begin_of_ended {r : Cycle} (ended : r.stage.outcome? ≠ none) (s : Session) :
    react c r (.begin s) = begin r.orchestrator s :=
  if_pos (Option.isSome_iff_ne_none.mpr ended)

theorem react_begin_of_going {r : Cycle} (going : r.stage.outcome? = none) (s : Session) :
    react c r (.begin s) = r :=
  if_neg (by simp [going])

/-! ### The queue -/

theorem create_withQueue (o : Orchestrator) (s : Session) (next : Program → Stage)
    (queue : InvalidationQueue) :
    create c { o with queue } s next = (create c o s next).withQueue queue := by
  unfold create Programs.create
  dsimp only
  rcases c.checker.createProgram o.options.roots o.options.compiler o.programs.current o.host with
    ⟨result, host⟩
  cases result <;> rfl

theorem prepare_withQueue (o : Orchestrator) (s : Session) (queue : InvalidationQueue) :
    prepare c { o with queue } s = (prepare c o s).withQueue queue := by
  unfold prepare
  dsimp only
  cases o.programs.current with
  | none => exact create_withQueue o s _ queue
  | some P =>
    dsimp only
    split
    · exact create_withQueue o s _ queue
    · rfl

theorem begin_withQueue (o : Orchestrator) (s : Session) (queue : InvalidationQueue) :
    begin { o with queue } s = (begin o s).withQueue queue := by
  unfold begin
  by_cases hs : s.bound = true
  · rw [if_pos hs, if_pos hs]
    rfl
  · rw [if_neg hs, if_neg hs]
    rfl

theorem discover_withQueue (o : Orchestrator) (s : Session) (P : Program)
    (queue : InvalidationQueue) :
    discover c { o with queue } s P = (discover c o s P).withQueue queue := by
  unfold discover
  by_cases hfirst : o.firstRun = true
  · rw [if_pos hfirst, if_pos hfirst]
    rfl
  · rw [if_neg hfirst, if_neg hfirst]
    rfl

/-- The steps after the first one do not look at the queue. -/
theorem step_withQueue {cycle : Cycle} (begun : cycle.stage ≠ .invalidating)
    (queue : InvalidationQueue) :
    step c (cycle.withQueue queue) = (step c cycle).withQueue queue := by
  obtain ⟨o, s, stage⟩ := cycle
  cases stage with
  | invalidating => exact absurd rfl begun
  | preparing => exact prepare_withQueue o s queue
  | generating P =>
    simp only [step, withQueue, generate]
    split <;> rfl
  | building => exact create_withQueue o s _ queue
  | checking P =>
    simp only [step, withQueue, check]
    split <;> rfl
  | discovering P => exact discover_withQueue o s P queue
  | merging found => rfl
  | publishing => rfl
  | registering =>
    simp only [step, withQueue, register]
    split <;> rfl
  | settling => rfl
  | ended outcome => rfl

/-- A path waits in the queue, in whatever spelling. -/
def Waits (p : Path) (cycle : Cycle) : Prop :=
  cycle.orchestrator.queue.pending.contains p = true

/-- Two cycles that differ in nothing but their queues. -/
def AlikeButQueue (cycle cycle' : Cycle) : Prop := ∃ queue, cycle' = cycle.withQueue queue

/-- Unless the queue is taken up, what happens to a cycle happens to one with another queue. -/
theorem AlikeButQueue.react {cycle cycle' : Cycle} (alike : AlikeButQueue cycle cycle') {e : Event}
    (kept : e = .step → cycle.stage ≠ .invalidating) :
    AlikeButQueue (react c cycle e) (react c cycle' e) := by
  obtain ⟨queue, rfl⟩ := alike
  cases e with
  | report p => exact ⟨queue.push p, rfl⟩
  | edit files => exact ⟨queue, rfl⟩
  | begin s =>
    refine ⟨queue, ?_⟩
    by_cases going : cycle.stage.outcome? = none
    · rw [react_begin_of_going going, react_begin_of_going (r := cycle.withQueue queue) going]
    · rw [react_begin_of_ended going, react_begin_of_ended (r := cycle.withQueue queue) going]
      exact begin_withQueue cycle.orchestrator s queue
  | step => exact ⟨queue, step_withQueue (kept rfl) queue⟩

theorem Waits.react {p : Path} {cycle : Cycle} (waits : Waits p cycle) {e : Event}
    (kept : e = .step → cycle.stage ≠ .invalidating) : Waits p (react c cycle e) := by
  cases e with
  | report q => exact OrderedSet.contains_insert_of_contains waits q
  | edit files => exact waits
  | begin s =>
    by_cases going : cycle.stage.outcome? = none
    · rwa [react_begin_of_going going]
    · rw [react_begin_of_ended going]
      unfold Cycle.begin
      split <;> exact waits
  | step =>
    have hqueue := step_withQueue (c := c) (kept rfl) cycle.orchestrator.queue
    have hsame : cycle.withQueue cycle.orchestrator.queue = cycle := rfl
    rw [hsame] at hqueue
    unfold Waits Cycle.react
    dsimp only
    rw [hqueue]
    exact waits

/-! ### Traces -/

/-- What every event keeps, unless it is a step at one of some stages, holds after a trace without
such steps. -/
theorem reactAll_induction {I : Cycle → Prop} {stage : Stage → Prop}
    (keep : ∀ cycle e, I cycle → (e = .step → ¬ stage cycle.stage) → I (react c cycle e))
    {cycle : Cycle} {events : List Event} (avoids : Avoids c stage cycle events)
    (start : I cycle) : I (reactAll c cycle events) := by
  induction events generalizing cycle with
  | nil => exact start
  | cons e events ih => exact ih avoids.tail (keep cycle e start fun he => (he ▸ avoids).head)

/-- Unless the queue is taken up, a report waits in it and makes no other difference. -/
theorem AlikeButQueue.reactAll {p : Path} {cycle cycle' : Cycle} {events : List Event}
    (alike : AlikeButQueue cycle cycle') (waits : Waits p cycle')
    (avoids : Avoids c (· = .invalidating) cycle events) :
    Waits p (reactAll c cycle' events) ∧
      AlikeButQueue (reactAll c cycle events) (reactAll c cycle' events) := by
  induction events generalizing cycle cycle' with
  | nil => exact ⟨waits, alike⟩
  | cons e events ih =>
    -- the two cycles are at the same stage, so neither takes up its queue
    have kept : e = .step → cycle.stage ≠ .invalidating := fun he => (he ▸ avoids).head
    have same : cycle'.stage = cycle.stage := by
      obtain ⟨queue, rfl⟩ := alike
      rfl
    exact ih (alike.react kept) (waits.react (same ▸ kept)) avoids.tail

/-- The first stage is reached by beginning a cycle on a session that is not bound, and in no other
way. -/
theorem stage_react_eq_invalidating {cycle : Cycle} {e : Event}
    (h : (react c cycle e).stage = .invalidating) :
    (cycle.stage = .invalidating ∧ e ≠ .step) ∨
      ∃ s, e = .begin s ∧ s.bound = false ∧ cycle.stage.outcome? ≠ none := by
  cases e with
  | report p => exact .inl ⟨h, nofun⟩
  | edit files => exact .inl ⟨h, nofun⟩
  | begin s =>
    by_cases going : cycle.stage.outcome? = none
    · rw [react_begin_of_going going] at h
      exact .inl ⟨h, nofun⟩
    · rw [react_begin_of_ended going] at h
      refine .inr ⟨s, rfl, ?_, going⟩
      by_cases hs : s.bound = true
      · rw [begin, if_pos hs] at h
        cases h
      · simpa using hs
  | step => exact absurd h (stage_step_ne cycle)

/-! ### From taking up a report to success -/

/-- The changed files that are scanned are those of the program. -/
theorem isAmong_scannedOf {P : Program} {changed : PathSet} {p : Path}
    (h : changed.contains p = true) :
    p.isAmong (Route.scannedOf P changed.keys) = P.contains p := by
  obtain ⟨q, hq, hsame⟩ := OrderedMap.exists_mem_keys h
  have hcontains : ∀ r, r.Same p → P.contains r = P.contains p := fun r hr =>
    OrderedMap.contains_congr P.files hr
  rw [Bool.eq_iff_iff]
  constructor
  · intro among
    obtain ⟨r, hr, hrp⟩ := List.any_eq_true.mp among
    rw [← hcontains r (of_decide_eq_true hrp)]
    exact (List.mem_filter.mp hr).2
  · intro there
    refine List.any_eq_true.mpr ⟨q, List.mem_filter.mpr ⟨hq, ?_⟩, decide_eq_true hsame⟩
    rw [hcontains q hsame, there]

/-- A path counts as changed. Where routes were looked for in changed files, they were looked for in
this one exactly if it is in the program. -/
structure Tracked (p : Path) (cycle : Cycle) : Prop where
  changed : cycle.orchestrator.host.cache.changed.contains p = true
  program : ∀ P, cycle.stage = .checking P ∨ cycle.stage = .discovering P →
    cycle.orchestrator.programs.current = some P
  scanned : cycle.stage.HasDiscovered → cycle.orchestrator.firstRun = false →
    ∃ scanned P, cycle.orchestrator.lastDiscovery = some (.incremental scanned) ∧
      cycle.orchestrator.programs.current = some P ∧ p.isAmong scanned = P.contains p

theorem Tracked.of_invalidate {p : Path} {o : Orchestrator} (s : Session)
    (changed : o.drainedHost.cache.changed.contains p = true) : Tracked p (invalidate o s) := by
  refine ⟨changed, fun P hP => ?_, fun found => ?_⟩
  · rw [invalidate, stage_goTo] at hP
    split at hP <;> rcases hP with hP | hP <;> cases hP
  · rw [invalidate, stage_goTo] at found
    split at found <;> cases found

/-- Until the cycle in which a path counts as changed succeeds, each step keeps track of it. -/
theorem Steps.tracked {p : Path} {cycle next : Cycle} (steps : Steps c cycle next)
    (careful : c.Careful) (h : Tracked p cycle) (going : cycle.stage ≠ .settling) :
    Tracked p next := by
  have keep := careful.keep cycle.orchestrator.options
    (Q := fun h => h.cache.changed.contains p = true) (fun _ _ use hp => use.changed hp)
    (fun _ _ hp => hp)
  have changed : next.orchestrator.host.cache.changed.contains p = true :=
    steps.host keep (fun _ => cycle.orchestrator.uses_drainedHost.changed h.changed)
      (fun hs => absurd hs going) h.changed
  cases steps with
  | invalidate o s => exact .of_invalidate s changed
  | keep => exact ⟨changed, by simp, False.elim⟩
  | prepare => exact ⟨changed, by simp, False.elim⟩
  | generate => exact ⟨changed, by simp, False.elim⟩
  | ungenerated => exact ⟨changed, by simp, False.elim⟩
  | @build o s P =>
    refine ⟨changed, fun Q hQ => ?_, fun found => ?_⟩
    · have same : P = Q := by
        rw [stage_goTo, checkStage] at hQ
        split at hQ <;> rcases hQ with hQ | hQ <;> cases hQ <;> rfl
      exact congrArg some same
    · rw [stage_goTo, checkStage] at found
      split at found <;> cases found
  | unprepared => exact ⟨changed, by simp, False.elim⟩
  | unbuilt => exact ⟨changed, by simp, False.elim⟩
  | check =>
    refine ⟨changed, fun Q hQ => ?_, False.elim⟩
    rcases hQ with hQ | hQ <;> cases hQ
    exact h.program _ (.inl rfl)
  | unchecked => exact ⟨changed, by simp, False.elim⟩
  | @discoverAll o s P first =>
    exact ⟨changed, by simp, fun _ later => absurd (first.symm.trans later) (by simp)⟩
  | @discoverChanged o s P =>
    -- the changed files of the program are scanned, and the path is a changed one
    exact ⟨changed, by simp,
      fun _ _ => ⟨_, P, rfl, h.program P (.inr rfl), isAmong_scannedOf h.changed⟩⟩
  | merge => exact ⟨changed, by simp [Cycle.merge], fun _ => h.scanned trivial⟩
  | publish => exact ⟨changed, by simp [Cycle.publish], fun _ => h.scanned trivial⟩
  | unregistered => exact ⟨changed, by simp, fun _ => h.scanned trivial⟩
  | register => exact ⟨changed, by simp, fun _ => h.scanned trivial⟩
  | settle => exact absurd rfl going
  | ended => exact h

theorem Tracked.begin {p : Path} {cycle : Cycle} (h : Tracked p cycle) (s : Session) :
    Tracked p (begin cycle.orchestrator s) := by
  unfold Cycle.begin
  split
  · exact ⟨h.changed, nofun, nofun⟩
  · exact ⟨h.changed, nofun, nofun⟩

theorem Tracked.react {p : Path} {cycle : Cycle} (careful : c.Careful) (h : Tracked p cycle)
    {e : Event} (going : e = .step → cycle.stage ≠ .settling) : Tracked p (react c cycle e) := by
  cases e with
  | report q => exact ⟨h.changed, h.program, h.scanned⟩
  | edit files => exact ⟨h.changed, h.program, h.scanned⟩
  | begin s =>
    by_cases ended : cycle.stage.outcome? = none
    · rwa [react_begin_of_going ended]
    · rw [react_begin_of_ended ended]
      exact h.begin s
  | step => exact (steps_step cycle).tracked careful h (going rfl)

/-! ### Delivery -/

/-- The way of a reported path. -/
structure Delivery (c : Collaborators) (p : Path) (cycle : Cycle) : Prop where
  -- Until a cycle takes up the queue, the report waits in it and makes no other difference.
  waits : ∀ events, Avoids c (· = .invalidating) cycle events →
    Waits p (reactAll c (react c cycle (.report p)) events) ∧
      AlikeButQueue (reactAll c cycle events) (reactAll c (react c cycle (.report p)) events)
  -- The step that takes up the queue invalidates the path and creates no program.
  taken : ∀ events, Avoids c (· = .invalidating) cycle events →
    let waiting := reactAll c (react c cycle (.report p)) events
    let next := step c waiting
    waiting.stage = .invalidating →
      next.orchestrator.host.cache.changed.contains p.normalize = true ∧
        next.orchestrator.host.cache.entries.contains p.normalize = false ∧
        next.orchestrator.queue = .empty ∧
        next.orchestrator.programs = waiting.orchestrator.programs
  -- From then on the path counts as changed until a cycle succeeds. If that cycle is not the first
  -- one to succeed, it looks for routes in the path exactly if its program contains the path.
  tracked : ∀ events later, Avoids c (· = .invalidating) cycle events →
    let waiting := reactAll c (react c cycle (.report p)) events
    let last := reactAll c (step c waiting) later
    waiting.stage = .invalidating → Avoids c (· = .settling) (step c waiting) later →
      last.orchestrator.host.cache.changed.contains p.normalize = true ∧
        (last.stage = .settling → last.orchestrator.firstRun = false →
          (step c last).stage = .ended .succeeded ∧
            ∃ scanned P, (step c last).orchestrator.lastDiscovery = some (.incremental scanned) ∧
              (step c last).orchestrator.programs.current = some P ∧
              p.normalize.isAmong scanned = P.contains p.normalize)

/-- The queue is taken up by the first step of each cycle that begins on a session that is not bound,
before it creates a program, and by no other step. -/
structure TakesUpOnce (c : Collaborators) : Prop where
  binds : ∀ (r : Cycle) (s : Session), r.stage.outcome? ≠ none → s.bound = false →
    (react c r (.begin s)).stage = .invalidating
  refuses : ∀ (r : Cycle) (s : Session), r.stage.outcome? ≠ none → s.bound = true →
    (react c r (.begin s)).stage = .ended .failed ∧
      (react c r (.begin s)).orchestrator.queue = r.orchestrator.queue
  only : ∀ (r : Cycle) (e : Event), (react c r e).stage = .invalidating →
    (react c r e).orchestrator.programs = r.orchestrator.programs ∧
      ((r.stage = .invalidating ∧ e ≠ .step) ∨ ∃ s, e = .begin s ∧ s.bound = false)

theorem takesUpOnce (c : Collaborators) : TakesUpOnce c where
  binds := by
    intro r s ended hs
    rw [react_begin_of_ended ended, begin, if_neg (by simp [hs])]
    rfl
  refuses := by
    intro r s ended hs
    rw [react_begin_of_ended ended, begin, if_pos hs]
    exact ⟨rfl, rfl⟩
  only := by
    intro r e h
    have from_ := stage_react_eq_invalidating h
    refine ⟨?_, from_.imp_right fun ⟨s, he, hs, _⟩ => ⟨s, he, hs⟩⟩
    cases e with
    | report p => rfl
    | edit files => rfl
    | begin s =>
      by_cases ended : r.stage.outcome? = none
      · rw [react_begin_of_going ended]
      · rw [react_begin_of_ended ended, begin]
        split <;> rfl
    | step => exact absurd h (stage_step_ne r)

/-- What waits in the queue is invalidated by the step that takes it up. -/
theorem taken_of_waits {p : Path} {cycle : Cycle} (waits : Waits p cycle)
    (first : cycle.stage = .invalidating) :
    (step c cycle).orchestrator.host.cache.changed.contains p.normalize = true ∧
      (step c cycle).orchestrator.host.cache.entries.contains p.normalize = false ∧
      (step c cycle).orchestrator.queue = .empty ∧
      (step c cycle).orchestrator.programs = cycle.orchestrator.programs := by
  obtain ⟨q, hq, hsame⟩ := OrderedMap.exists_mem_keys waits
  have hnormal : q.normalize = p.normalize := Path.Same.normalize_eq hsame
  have hstep : step c cycle = invalidate cycle.orchestrator cycle.session := by
    simp only [step, first]
  rw [hstep, ← hnormal]
  exact ⟨cycle.orchestrator.changed_drainedHost hq, cycle.orchestrator.contains_drainedHost hq,
    rfl, rfl⟩

theorem Tracked.of_waits {p : Path} {cycle : Cycle} (waits : Waits p cycle)
    (first : cycle.stage = .invalidating) : Tracked p.normalize (Cycle.step c cycle) := by
  have taken := (taken_of_waits (c := c) waits first).1
  have hstep : Cycle.step c cycle = invalidate cycle.orchestrator cycle.session := by
    simp only [Cycle.step, first]
  rw [hstep] at taken ⊢
  exact .of_invalidate cycle.session taken

/-- A cycle that succeeds keeps what it found. -/
theorem Tracked.settle {p : Path} {cycle : Cycle} (h : Tracked p cycle)
    (last : cycle.stage = .settling) (later : cycle.orchestrator.firstRun = false) :
    (Cycle.step c cycle).stage = .ended .succeeded ∧
      ∃ scanned P, (Cycle.step c cycle).orchestrator.lastDiscovery = some (.incremental scanned) ∧
        (Cycle.step c cycle).orchestrator.programs.current = some P ∧
        p.isAmong scanned = P.contains p := by
  have hstep : Cycle.step c cycle = Cycle.settle cycle.orchestrator cycle.session := by
    simp only [Cycle.step, last]
  rw [hstep]
  exact ⟨rfl, h.scanned (last ▸ trivial) later⟩

/-- In every interleaving of reports, edits and cycles, a reported path is invalidated by the next
cycle that takes up the queue and by none before, and stays a changed one until a cycle succeeds. -/
theorem report_delivered (careful : c.Careful) (cycle : Cycle) (p : Path) :
    Delivery c p cycle ∧ TakesUpOnce c := by
  have waits : ∀ events, Avoids c (· = .invalidating) cycle events →
      Waits p (reactAll c (react c cycle (.report p)) events) ∧
        AlikeButQueue (reactAll c cycle events) (reactAll c (react c cycle (.report p)) events) := by
    intro events avoids
    have alike : AlikeButQueue cycle (react c cycle (.report p)) := ⟨_, rfl⟩
    exact alike.reactAll (OrderedSet.contains_insert_self _ p) avoids
  refine ⟨⟨waits, fun events avoids first => taken_of_waits (waits events avoids).1 first,
    fun events later avoids first until_ => ?_⟩, takesUpOnce c⟩
  have tracked : Tracked p.normalize
      (reactAll c (step c (reactAll c (react c cycle (.report p)) events)) later) :=
    reactAll_induction (fun _ _ h going => h.react careful going) until_
      (Tracked.of_waits (waits events avoids).1 first)
  exact ⟨tracked.changed, tracked.settle⟩

/-- A build of one main file after its first cycle. -/
def builtOnce : Cycle :=
  (Orchestrator.ofHost (.scanning .ofFiles) Orchestrator.plainOptions
    (.ofFiles (.memory (MemoryFiles.empty.insert ⟨"/p/main.ts"⟩ ""))
      Orchestrator.plainOptions.basePath)).make (.scanning .ofFiles) .fresh

/-- The same build where the main file is reported and a second cycle is about to begin its work. -/
def reportedAgain : Cycle :=
  reactAll (.scanning .ofFiles) (react (.scanning .ofFiles) builtOnce (.report ⟨"/p/main.ts"⟩))
    [.begin .fresh]

/-- The second cycle when it is about to succeed. -/
def aboutToSucceed : Cycle :=
  reactAll (.scanning .ofFiles) (step (.scanning .ofFiles) reportedAgain) (List.replicate 6 .step)

/-- The second cycle looks for routes in the main file that was reported before it. -/
theorem report_delivered_to_second_cycle :
    reportedAgain.stage = .invalidating ∧ aboutToSucceed.stage = .settling ∧
      ∃ scanned, (step (.scanning .ofFiles) aboutToSucceed).orchestrator.lastDiscovery =
          some (.incremental scanned) ∧
        (⟨"/p/main.ts"⟩ : Path).isAmong scanned = true := by
  have first : reportedAgain.stage = .invalidating := by
    have hremaining : reportedAgain.stage.remaining = 10 := by decide +kernel
    cases hs : reportedAgain.stage <;> simp [hs, Stage.remaining] at hremaining ⊢
  have last : aboutToSucceed.stage = .settling := by
    have hremaining : aboutToSucceed.stage.remaining = 1 := by decide +kernel
    cases hs : aboutToSucceed.stage <;> simp [hs, Stage.remaining] at hremaining ⊢
  have early : Avoids (.scanning .ofFiles) (· = .invalidating) builtOnce [.begin .fresh] := by
    intro before after h
    rcases before with _ | ⟨e, _ | ⟨e', before⟩⟩ <;> simp at h
  have until_ : Avoids (.scanning .ofFiles) (· = .settling)
      (step (.scanning .ofFiles) reportedAgain) (List.replicate 6 .step) := by
    intro before after h settling
    obtain ⟨hlength, hbefore, -⟩ := List.append_eq_replicate_iff.mp h.symm
    have hlt : before.length < 6 := by
      rw [List.length_cons] at hlength
      omega
    -- the stages before the last one are told apart by what remains
    have going : ∀ n < 6, (reactAll (.scanning .ofFiles) (step (.scanning .ofFiles) reportedAgain)
        (List.replicate n .step)).stage.remaining ≠ 1 := by
      decide +kernel
    refine going before.length hlt ?_
    rw [← hbefore, settling]
    rfl
  obtain ⟨delivery, -⟩ := report_delivered (Collaborators.careful_scanning .ofFiles) builtOnce
    ⟨"/p/main.ts"⟩
  have later : aboutToSucceed.orchestrator.firstRun = false := by decide +kernel
  obtain ⟨-, scanned, P, hscanned, hP, hamong⟩ :=
    (delivery.tracked [.begin .fresh] (List.replicate 6 .step) early first until_).2 last later
  have hcurrent : (step (.scanning .ofFiles) aboutToSucceed).orchestrator.programs.current.any
      (Program.contains · ⟨"/p/main.ts"⟩) = true := by
    decide +kernel
  have hnormal : Path.normalize ⟨"/p/main.ts"⟩ = ⟨"/p/main.ts"⟩ := by decide +kernel
  have there : P.contains ⟨"/p/main.ts"⟩ = true := by
    rw [show (step (.scanning .ofFiles) aboutToSucceed).orchestrator.programs.current = some P from
      hP] at hcurrent
    exact hcurrent
  rw [hnormal, there] at hamong
  exact ⟨first, last, scanned, hscanned, hamong⟩

end Cycle

end Precompile
