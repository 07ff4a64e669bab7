import Precompile.Proofs.Build.Interleaving
import Precompile.Proofs.Build.Lifecycle
import Precompile.Proofs.Host.Mirror

/-!
# What resolvers see of a build

Modules are looked up and listed while cycles come and go. Who asks during a cycle waits, and what
is found is looked up in a later step, by which time another cycle may be on its way. The steps of
the cycles and of those who ask follow each other in any order (`Traffic`). Still nobody sees half a
cycle (`Traffic.orderly_run`): the registry is that of the cycle that succeeded last, and the routes
are those that a cycle published as a whole when nothing could make it fail any more.
-/

namespace Precompile

/-! ### Inquiries -/

/-- What is asked while a build goes on. -/
inductive Inquiry where
  -- A bundler looks a module up, which it may find in the registry.
  | module (request : String)
  -- A bundler lists the modules below a directory.
  | context (r : ContextRequest)

/-- What is found. -/
inductive Finding where
  | registry (r : Option Registry)
  | context (r : ContextRequest)

/-- How far an inquiry has got. -/
inductive Progress where
  | waiting
  | released
  | answered (found : Finding)

/-- Whether an inquiry waits for a cycle on its way. -/
def Inquiry.waits : Inquiry → Bool
  | module request => Orchestrator.waitsFor request
  | context r => r.listsRoutes

namespace Orchestrator

def holdsBack (o : Orchestrator) (q : Inquiry) : Bool := q.waits && o.ready.isPending

/-- The request as it is handed on by one that does not wait any more. -/
def handOnContext (o : Orchestrator) (r : ContextRequest) : ContextRequest :=
  if r.listsRoutes then r.answer (contextTarget o.options) o.published else r

/-- What an inquiry finds that does not wait any more. -/
def find (o : Orchestrator) : Inquiry → Finding
  | .module _ => .registry o.registry
  | .context r => .context (o.handOnContext r)

theorem holdsBack_module (o : Orchestrator) (request : String) :
    o.holdsBack (.module request) = o.mustWait request := rfl

/-- Waiting and looking up are the two halves of the answer to a request. -/
theorem answerContext?_eq (o : Orchestrator) (r : ContextRequest) :
    o.answerContext? r = if o.holdsBack (.context r) then none else some (o.handOnContext r) := by
  simp only [answerContext?, holdsBack, handOnContext, Inquiry.waits]
  by_cases lists : r.listsRoutes = true <;> simp [lists]

end Orchestrator

/-! ### Records -/

/-- What is told of a cycle. -/
structure CycleRecord where
  -- How it ended, once it has.
  outcome : Option CycleOutcome
  -- The routes that it published, if it has.
  published : Option RouteMap
  -- The modules that were held in memory when it ended.
  modules : Registry

namespace CycleRecord

def begun : CycleRecord := ⟨none, none, .empty⟩

def publish (routes : RouteMap) (r : CycleRecord) : CycleRecord := { r with published := some routes }

def close (outcome : CycleOutcome) (modules : Registry) (r : CycleRecord) : CycleRecord :=
  { r with outcome := some outcome, modules }

/-- The cycle has ended, and it has published routes if it succeeded and only then. -/
def Closed (r : CycleRecord) : Prop :=
  ∃ outcome, r.outcome = some outcome ∧ (r.published.isSome = true ↔ outcome = .succeeded)

/-- The routes that were published last, none before the first time. -/
def lastPublished (records : List CycleRecord) : RouteMap :=
  (records.findSome? published).getD .empty

theorem lastPublished_cons {r : CycleRecord} (none : r.published = none) (past : List CycleRecord) :
    lastPublished (r :: past) = lastPublished past := by
  simp [lastPublished, none]

end CycleRecord

/-! ### The build and those who ask -/

/-- What a build is doing. -/
inductive Activity where
  -- No cycle is on its way.
  | resting (o : Orchestrator)
  -- A cycle was begun on a session that is bound already, and is about to fail for that.
  | refusing (o : Orchestrator) (s : Session)
  -- A cycle is on its way.
  | working (cycle : Cycle)

namespace Activity

def orchestrator : Activity → Orchestrator
  | resting o => o
  | refusing o _ => { o with ready := .pending }
  | working cycle => cycle.orchestrator

def map (f : Orchestrator → Orchestrator) : Activity → Activity
  | resting o => resting (f o)
  | refusing o s => refusing (f o) s
  | working cycle => working { cycle with orchestrator := f cycle.orchestrator }

def isResting : Activity → Bool
  | resting _ => true
  | _ => false

end Activity

/-- A build, the records of its cycles with the latest first, and how far each inquiry has got. -/
structure Traffic where
  activity : Activity
  records : List CycleRecord
  inquiries : Nat → Option (Inquiry × Progress)

/-- What can happen: to the build, or to an inquiry, which is made, is woken to see whether it still
has to wait, and looks up what it is about. -/
inductive TrafficEvent where
  | build (e : Event)
  | ask (id : Nat) (q : Inquiry)
  | poll (id : Nat)
  | read (id : Nat)

namespace Traffic

/-- An orchestrator with an empty registry, before its first cycle and with no inquiries. -/
def start (c : Collaborators) (o : BuildOptions) (files : FileSystem) (base : Path) : Traffic :=
  ⟨.resting ((Orchestrator.ofHost c o (.ofFiles files base)).attach .empty), [], fun _ => none⟩

def orchestrator (t : Traffic) : Orchestrator := t.activity.orchestrator

/-- Notes the routes that a cycle is about to publish. -/
def noted (t : Traffic) (cycle : Cycle) : Traffic :=
  match cycle.stage with
  | .publishing =>
    { t with records := t.records.modifyHead (.publish cycle.orchestrator.routes) }
  | _ => t

/-- Goes on with a cycle, or rests if it has ended. -/
def follow (t : Traffic) (next : Cycle) : Traffic :=
  match next.stage.outcome? with
  | none => { t with activity := .working next }
  | some outcome =>
    { t with
      activity := .resting next.orchestrator
      records := t.records.modifyHead (.close outcome next.orchestrator.host.modules) }

def build (c : Collaborators) (t : Traffic) : Event → Traffic
  | .report p => { t with activity := t.activity.map fun o => o.queueAll [p] }
  | .edit files => { t with activity := t.activity.map (·.mapHost (·.mapFiles fun _ => files)) }
  | .begin s =>
    match t.activity with
    | .resting o =>
      { t with
        activity := if s.bound then .refusing o s else .working (Cycle.begin o s)
        records := .begun :: t.records }
    | _ => t
  | .step =>
    match t.activity with
    | .resting _ => t
    | .refusing o s => t.follow (Cycle.begin o s)
    | .working cycle => (t.noted cycle).follow (Cycle.step c cycle)

/-- Sets how far an inquiry has got. -/
def advance (t : Traffic) (id : Nat) (q : Inquiry) (p : Progress) : Traffic :=
  { t with inquiries := Function.update t.inquiries id (some (q, p)) }

def after (c : Collaborators) (t : Traffic) : TrafficEvent → Traffic
  | .build e => t.build c e
  | .ask id q =>
    match t.inquiries id with
    | none => t.advance id q .waiting
    | some _ => t
  | .poll id =>
    match t.inquiries id with
    | some (q, .waiting) => if t.orchestrator.holdsBack q then t else t.advance id q .released
    | _ => t
  | .read id =>
    match t.inquiries id with
    | some (q, .released) => t.advance id q (.answered (t.orchestrator.find q))
    | _ => t

def run (c : Collaborators) (t : Traffic) (events : List TrafficEvent) : Traffic :=
  events.foldl (after c) t

end Traffic

/-! ### What a step shows to others -/

/-- The cycle has published its routes and is not over yet. -/
def Stage.HasPublished : Stage → Prop
  | .registering | .settling => True
  | _ => False

theorem Stage.HasPublished.isSure {stage : Stage} (h : stage.HasPublished) : stage.IsSure := by
  cases stage <;> trivial

theorem Stage.Leads.hasPublished_iff {stage next : Stage} (h : stage.Leads next)
    (going : next.outcome? = none) : next.HasPublished ↔ stage = .publishing ∨ stage.HasPublished := by
  cases h with
  | succeed => cases going
  | fail => cases going
  | _ => simp [Stage.HasPublished]

/-- A cycle ends by success after everything was published, or it fails before. -/
theorem Stage.Leads.outcome {stage next : Stage} (h : stage.Leads next) {outcome : CycleOutcome}
    (ended : next.outcome? = some outcome) :
    (stage = .settling ∧ outcome = .succeeded) ∨
      (stage ≠ .publishing ∧ ¬ stage.HasPublished ∧ outcome = .failed) := by
  cases h with
  | succeed =>
    cases ended
    exact .inl ⟨rfl, rfl⟩
  | fail can =>
    cases ended
    cases stage <;> simp_all [Stage.CanFail, Stage.HasPublished]
  | _ => cases ended

namespace Orchestrator

/-- The registry has what was handed on last and nothing else. -/
def Registers (o : Orchestrator) : Prop :=
  ∃ r, o.registry = some r ∧ o.host.Tracked r ∧ PathMap.HasNormalKeys o.host.cache.entries

theorem hasNormalKeys_uses {h h' : Host} (use : h.Uses h')
    (normal : PathMap.HasNormalKeys h.cache.entries) : PathMap.HasNormalKeys h'.cache.entries :=
  use.cache_induction (Q := fun c => PathMap.HasNormalKeys c.entries)
    (fun _ p hc => SourceCache.normal_retain hc p)
    (fun _ p _ _ hc => hc.insert (Path.isNormal_normalize p) _) (fun _ p hc => hc.erase p) normal

theorem Registers.congr {o o' : Orchestrator} (registers : o.Registers)
    (registry : o'.registry = o.registry) (use : o.host.Uses o'.host) : o'.Registers := by
  obtain ⟨r, there, tracked, normal⟩ := registers
  exact ⟨r, registry.trans there, tracked.congr use.published_eq, hasNormalKeys_uses use normal⟩

theorem registers_ofHost {c : Collaborators} (careful : c.Careful) (options : BuildOptions)
    (files : FileSystem) (base : Path) :
    ((ofHost c options (.ofFiles files base)).attach .empty).Registers := by
  have use : (Host.ofFiles files base).Uses (c.checker.createProgram options.roots options.compiler
      none (writeOverrides (.ofFiles files base) options.overrides)).2 :=
    (uses_writeOverrides _ options.overrides).trans (careful.createProgram _ _ _ _)
  obtain ⟨ps, hps⟩ := exists_host_ofHost c options (.ofFiles files base)
  have retained := Host.uses_retainAll ((c.checker.createProgram options.roots options.compiler none
    (writeOverrides (.ofFiles files base) options.overrides)).2.mapCache SourceCache.enableCaching) ps
  refine ⟨.empty, rfl, ?_, ?_⟩
  · refine (Host.tracked_ofFiles files base).congr ?_
    show (ofHost c options (.ofFiles files base)).host.published = _
    rw [hps, retained.published_eq]
    exact use.published_eq
  · have start : PathMap.HasNormalKeys (Host.ofFiles files base).cache.entries := nofun
    have created := hasNormalKeys_uses use start
    show PathMap.HasNormalKeys (ofHost c options (.ofFiles files base)).host.cache.entries
    rw [hps]
    exact hasNormalKeys_uses retained created

end Orchestrator

namespace Cycle

variable {c : Collaborators}

theorem Steps.ready {cycle next : Cycle} (steps : Steps c cycle next)
    (going : cycle.stage.outcome? = none) : next.orchestrator.ready =
      match next.stage.outcome? with
      | none => cycle.orchestrator.ready
      | some outcome => .done outcome := by
  cases steps with
  | invalidate o s =>
    rw [stage_goTo]
    split <;> rfl
  | @build o s P =>
    rw [stage_goTo, outcome?_checkStage o P]
    rfl
  | ended => cases going
  | _ => rfl

/-- Only publishing changes what requests are answered with. -/
theorem Steps.published {cycle next : Cycle} (steps : Steps c cycle next) :
    (cycle.stage = .publishing ∧ next.orchestrator.published = cycle.orchestrator.routes) ∨
      (cycle.stage ≠ .publishing ∧
        next.orchestrator.published = cycle.orchestrator.published) := by
  cases steps with
  | publish => exact .inl ⟨rfl, rfl⟩
  | _ => exact .inr ⟨nofun, rfl⟩

theorem Steps.registers {cycle next : Cycle} (steps : Steps c cycle next) (careful : c.Careful)
    (registers : cycle.orchestrator.Registers) : next.orchestrator.Registers := by
  cases steps with
  | invalidate o s => exact registers.congr rfl o.uses_drainedHost
  | prepare => exact registers.congr rfl (uses_creation careful _)
  | unprepared => exact registers.congr rfl (uses_creation careful _)
  | generate => exact registers.congr rfl (uses_generation careful _ _)
  | ungenerated => exact registers.congr rfl (uses_generation careful _ _)
  | build => exact registers.congr rfl (uses_creation careful _)
  | unbuilt => exact registers.congr rfl (uses_creation careful _)
  | discoverAll => exact registers.congr rfl (careful.listAllRoutes _ _ _)
  | @register o s r there =>
    obtain ⟨r', there', tracked, normal⟩ := registers
    cases there.symm.trans there'
    exact ⟨_, rfl, tracked.populate normal, normal⟩
  | settle =>
    obtain ⟨r, there, tracked, normal⟩ := registers
    exact ⟨r, there, tracked.congr rfl, normal⟩
  | _ => exact registers

/-- Before markers are cleared, the modules held in memory are handed on. -/
theorem Steps.modules {cycle next : Cycle} (steps : Steps c cycle next)
    (registers : cycle.orchestrator.Registers) (last : next.stage = .settling) :
    next.orchestrator.registry = some next.orchestrator.host.modules := by
  obtain ⟨r, there, tracked, normal⟩ := registers
  cases steps with
  | @unregistered o s none => cases none.symm.trans there
  | @register o s r' there' =>
    cases there.symm.trans there'
    exact congrArg some (tracked.registry_populate normal)
  | invalidate o s =>
    rw [stage_goTo] at last
    split at last <;> cases last
  | build =>
    rw [stage_goTo, checkStage] at last
    split at last <;> cases last
  | _ => cases last

end Cycle

namespace Traffic

open CycleRecord (lastPublished)

variable {c : Collaborators} {t : Traffic} {o : Orchestrator} {cycle : Cycle}
  {records : List CycleRecord}

/-! ### What is so between two events -/

/-- Requests are answered with the routes that were published last, and the registry has what was
handed on last. -/
structure Shows (o : Orchestrator) (records : List CycleRecord) : Prop where
  published : o.published = lastPublished records
  registers : o.Registers

/-- What is so while no cycle is on its way. -/
structure AtRest (o : Orchestrator) (records : List CycleRecord) : Prop extends Shows o records where
  closed : ∀ r ∈ records, r.Closed
  ready : o.ready.isPending = false
  modules : ∀ r, records.head? = some r → r.outcome = some .succeeded →
    o.registry = some r.modules ∧ r.modules = o.host.modules

/-- What is so while a cycle is about to be refused. -/
structure AtDoor (o : Orchestrator) (s : Session) (records : List CycleRecord) : Prop
    extends Shows o records where
  bound : s.bound = true
  current : ∃ past, records = .begun :: past ∧ ∀ r ∈ past, r.Closed

/-- What is so while a cycle is on its way. -/
structure AtWork (cycle : Cycle) (records : List CycleRecord) : Prop
    extends Shows cycle.orchestrator records where
  going : cycle.stage.outcome? = none
  ready : cycle.orchestrator.ready = .pending
  current : ∃ now past, records = now :: past ∧ now.outcome = none ∧
    (now.published.isSome = true ↔ cycle.stage.HasPublished) ∧ ∀ r ∈ past, r.Closed
  modules : cycle.stage = .settling →
    cycle.orchestrator.registry = some cycle.orchestrator.host.modules

/-- The records tell what the build is doing. -/
def Coherent (t : Traffic) : Prop :=
  match t.activity with
  | .resting o => AtRest o t.records
  | .refusing o s => AtDoor o s t.records
  | .working cycle => AtWork cycle t.records

theorem coherent_start (careful : c.Careful) (options : BuildOptions) (files : FileSystem)
    (base : Path) : (start c options files base).Coherent where
  published := rfl
  registers := Orchestrator.registers_ofHost careful options files base
  closed := nofun
  ready := rfl
  modules := nofun

/-- A change to an orchestrator that others do not see. -/
structure Quiet (f : Orchestrator → Orchestrator) : Prop where
  published : ∀ o, (f o).published = o.published
  ready : ∀ o, (f o).ready = o.ready
  registry : ∀ o, (f o).registry = o.registry
  modules : ∀ o, (f o).host.modules = o.host.modules
  registers : ∀ o, o.Registers → (f o).Registers

theorem quiet_report (p : Path) : Quiet (·.queueAll [p]) :=
  ⟨fun _ => rfl, fun _ => rfl, fun _ => rfl, fun _ => rfl, fun _ registers => registers⟩

theorem quiet_edit (files : FileSystem) : Quiet (·.mapHost (·.mapFiles fun _ => files)) where
  published _ := rfl
  ready _ := rfl
  registry _ := rfl
  modules _ := rfl
  registers := fun _ ⟨r, there, tracked, normal⟩ => ⟨r, there, tracked.congr rfl, normal⟩

theorem Shows.map {f : Orchestrator → Orchestrator} (shown : Shows o records) (quiet : Quiet f) :
    Shows (f o) records :=
  ⟨(quiet.published o).trans shown.published, quiet.registers o shown.registers⟩

theorem Coherent.map {f : Orchestrator → Orchestrator} (coherent : t.Coherent) (quiet : Quiet f) :
    Coherent { t with activity := t.activity.map f } := by
  obtain ⟨activity, records, inquiries⟩ := t
  cases activity with
  | resting o =>
    have rest : AtRest o records := coherent
    refine ⟨rest.toShows.map quiet, rest.closed, (quiet.ready o).symm ▸ rest.ready, ?_⟩
    intro r latest succeeded
    show (f o).registry = _ ∧ r.modules = (f o).host.modules
    rw [quiet.registry, quiet.modules]
    exact rest.modules r latest succeeded
  | refusing o s =>
    have door : AtDoor o s records := coherent
    exact ⟨door.toShows.map quiet, door.bound, door.current⟩
  | working cycle =>
    have work : AtWork cycle records := coherent
    refine ⟨work.toShows.map quiet, work.going, (quiet.ready _).trans work.ready, work.current, ?_⟩
    intro last
    show (f cycle.orchestrator).registry = some (f cycle.orchestrator).host.modules
    rw [quiet.registry, quiet.modules]
    exact work.modules last

/-- A cycle that begins has published nothing yet. -/
theorem AtRest.begin (rest : AtRest o t.records) (s : Session) (resting : t.activity = .resting o) :
    (t.build c (.begin s)).Coherent := by
  have shown : Shows o (.begun :: t.records) :=
    ⟨rest.published.trans (CycleRecord.lastPublished_cons rfl _).symm, rest.registers⟩
  unfold build Coherent
  rw [resting]
  by_cases hs : s.bound = true
  · simp only [if_pos hs]
    exact ⟨shown, hs, t.records, rfl, rest.closed⟩
  · simp only [if_neg hs]
    rw [Cycle.begin_of_unbound o (by simpa using hs)]
    exact ⟨⟨shown.published, shown.registers⟩, rfl, rfl,
      ⟨.begun, t.records, rfl, rfl, ⟨nofun, nofun⟩, rest.closed⟩, nofun⟩

/-- Being refused is a failure. -/
theorem AtDoor.step {s : Session} (door : AtDoor o s t.records) :
    (t.follow (Cycle.begin o s)).Coherent := by
  obtain ⟨past, hrecords, closed⟩ := door.current
  have refused : Cycle.begin o s = ⟨{ o with ready := .done .failed },
      s.pushError BuildError.duplicateSession.message, .ended .failed⟩ := if_pos door.bound
  have none : lastPublished t.records = lastPublished past :=
    hrecords ▸ CycleRecord.lastPublished_cons rfl past
  rw [refused]
  unfold follow Coherent
  simp only [Stage.outcome?, hrecords, List.modifyHead_cons]
  refine ⟨⟨?_, door.registers⟩, ?_, rfl, ?_⟩
  · rw [CycleRecord.lastPublished_cons rfl, ← none]
    exact door.published
  · have unpublished : CycleRecord.Closed { CycleRecord.begun with outcome := some .failed } :=
      ⟨.failed, rfl, by simp [CycleRecord.begun]⟩
    exact List.forall_mem_cons.mpr ⟨unpublished, closed⟩
  · intro r latest succeeded
    cases latest
    cases succeeded

theorem noted_of_publishing (h : cycle.stage = .publishing) : t.noted cycle =
    { t with records := t.records.modifyHead (.publish cycle.orchestrator.routes) } := by
  unfold noted
  rw [h]

theorem noted_of_ne (h : cycle.stage ≠ .publishing) : t.noted cycle = t := by
  unfold noted
  split
  next publishing => exact absurd publishing h
  next => rfl

/-- What is noted of a step is what it publishes. -/
theorem AtWork.noted {next : Cycle} (work : AtWork cycle t.records)
    (steps : Cycle.Steps c cycle next) :
    ∃ now past, (t.noted cycle).records = now :: past ∧ now.outcome = none ∧
      (now.published.isSome = true ↔ cycle.stage = .publishing ∨ cycle.stage.HasPublished) ∧
      (∀ r ∈ past, r.Closed) ∧ next.orchestrator.published = lastPublished (now :: past) := by
  obtain ⟨now, past, hrecords, going, published, closed⟩ := work.current
  rcases steps.published with ⟨publishing, routes⟩ | ⟨other, same⟩
  · refine ⟨now.publish cycle.orchestrator.routes, past, ?_, going, ?_, closed, routes⟩
    · rw [noted_of_publishing publishing, hrecords]
      rfl
    · simp [CycleRecord.publish, publishing]
  · refine ⟨now, past, ?_, going, ?_, closed, ?_⟩
    · rw [noted_of_ne other, hrecords]
    · rw [published]
      exact ⟨.inr, fun h => h.resolve_left other⟩
    · rw [same, work.published, hrecords]

/-- Each step of a cycle keeps the records in line with it, up to the last step, which closes them. -/
theorem AtWork.step (careful : c.Careful) (work : AtWork cycle t.records) :
    ((t.noted cycle).follow (Cycle.step c cycle)).Coherent := by
  have steps := Cycle.steps_step (c := c) cycle
  have leads := steps.leads work.going
  have ready := steps.ready work.going
  have registers := steps.registers careful work.registers
  obtain ⟨now, past, hrecords, going, published, closed, last⟩ := work.noted steps
  unfold follow Coherent
  cases hout : (Cycle.step c cycle).stage.outcome? with
  | none =>
    rw [hout] at ready
    have shown : Shows (Cycle.step c cycle).orchestrator (t.noted cycle).records :=
      ⟨hrecords ▸ last, registers⟩
    refine ⟨shown, hout, ready.trans work.ready, ⟨now, past, hrecords, going, ?_, closed⟩,
      steps.modules work.registers⟩
    rw [published, leads.hasPublished_iff hout]
  | some outcome =>
    rw [hout] at ready
    simp only [hrecords, List.modifyHead_cons]
    have settled := leads.outcome hout
    refine ⟨⟨last, registers⟩, ?_, by rw [ready]; rfl, ?_⟩
    · refine List.forall_mem_cons.mpr ⟨⟨outcome, rfl, ?_⟩, closed⟩
      show now.published.isSome = true ↔ _
      rw [published]
      rcases settled with ⟨stage, rfl⟩ | ⟨before, not, rfl⟩
      · simp [stage, Stage.HasPublished]
      · simp [before, not]
    · intro r latest succeeded
      cases latest
      rcases settled with ⟨stage, -⟩ | ⟨-, -, rfl⟩
      · -- the last step clears markers only, so the modules are those handed on before it
        have clears : Cycle.step c cycle = Cycle.settle cycle.orchestrator cycle.session := by
          simp only [Cycle.step, stage]
        refine ⟨?_, rfl⟩
        show (Cycle.step c cycle).orchestrator.registry =
          some (Cycle.step c cycle).orchestrator.host.modules
        rw [clears]
        exact work.modules stage
      · cases succeeded

theorem Coherent.build (careful : c.Careful) (coherent : t.Coherent) (e : Event) :
    (t.build c e).Coherent := by
  cases e with
  | report p => exact coherent.map (quiet_report p)
  | edit files => exact coherent.map (quiet_edit files)
  | begin s =>
    cases activity : t.activity with
    | resting o =>
      unfold Coherent at coherent
      rw [activity] at coherent
      exact coherent.begin s activity
    | refusing o s' =>
      unfold Traffic.build
      rw [activity]
      exact coherent
    | working cycle =>
      unfold Traffic.build
      rw [activity]
      exact coherent
  | step =>
    unfold Traffic.build
    cases activity : t.activity with
    | resting o => exact coherent
    | refusing o s =>
      unfold Coherent at coherent
      rw [activity] at coherent
      exact coherent.step
    | working cycle =>
      unfold Coherent at coherent
      rw [activity] at coherent
      exact coherent.step careful

/-- What those who ask do makes no difference to the build. -/
theorem Coherent.advance (coherent : t.Coherent) (id : Nat) (q : Inquiry) (p : Progress) :
    (t.advance id q p).Coherent := coherent

theorem Coherent.after (careful : c.Careful) (coherent : t.Coherent) (e : TrafficEvent) :
    (t.after c e).Coherent := by
  cases e with
  | build e => exact coherent.build careful e
  | ask id q =>
    simp only [Traffic.after]
    split
    · exact coherent.advance id q .waiting
    · exact coherent
  | poll id =>
    simp only [Traffic.after]
    split
    next q _ =>
      split
      · exact coherent
      · exact coherent.advance id q .released
    next => exact coherent
  | read id =>
    simp only [Traffic.after]
    split
    next q _ => exact coherent.advance id q _
    next => exact coherent

theorem Coherent.run (careful : c.Careful) (coherent : t.Coherent) (events : List TrafficEvent) :
    (t.run c events).Coherent := by
  unfold Traffic.run
  induction events generalizing t with
  | nil => exact coherent
  | cons e events ih => exact ih (coherent.after careful e)

/-! ### What those who ask can rely on -/

/-- The signal is on exactly while a cycle is on its way. -/
theorem Coherent.isPending (coherent : t.Coherent) :
    t.orchestrator.ready.isPending = !t.activity.isResting := by
  obtain ⟨activity, records, inquiries⟩ := t
  cases activity with
  | resting o => exact AtRest.ready coherent
  | refusing o s => rfl
  | working cycle =>
    have ready : cycle.orchestrator.ready = .pending := AtWork.ready coherent
    show cycle.orchestrator.ready.isPending = true
    rw [ready]
    rfl

theorem Coherent.shown (coherent : t.Coherent) : Shows t.orchestrator t.records := by
  obtain ⟨activity, records, inquiries⟩ := t
  cases activity with
  | resting o => exact AtRest.toShows coherent
  | refusing o s =>
    have door : AtDoor o s records := coherent
    exact ⟨door.published, door.registers⟩
  | working cycle => exact AtWork.toShows coherent

theorem inquiries_build (e : Event) : (t.build c e).inquiries = t.inquiries := by
  have followed (t : Traffic) (next : Cycle) : (t.follow next).inquiries = t.inquiries := by
    unfold follow
    split <;> rfl
  have noting (cycle : Cycle) : (t.noted cycle).inquiries = t.inquiries := by
    unfold noted
    split <;> rfl
  cases e with
  | report p => rfl
  | edit files => rfl
  | begin s =>
    simp only [build]
    split <;> rfl
  | step =>
    simp only [build]
    split
    · rfl
    · exact followed _ _
    next cycle _ => exact (followed _ _).trans (noting cycle)

/-- An inquiry that waits gets on only by being woken at a time at which it need not wait. -/
theorem inquiries_after_of_waiting {id : Nat} {q : Inquiry}
    (waiting : t.inquiries id = some (q, .waiting)) (e : TrafficEvent) :
    (t.after c e).inquiries id = some (q, .waiting) ∨
      e = .poll id ∧ t.orchestrator.holdsBack q = false ∧
        t.after c e = t.advance id q .released := by
  have apart : ∀ id' (q' : Inquiry) p, id' ≠ id →
      (t.advance id' q' p).inquiries id = some (q, .waiting) := by
    intro id' q' p hne
    rw [← waiting]
    exact Function.update_of_ne hne.symm _ _
  cases e with
  | build e =>
    refine .inl ?_
    rw [← waiting]
    exact congrFun (inquiries_build e) id
  | ask id' q' =>
    refine .inl ?_
    simp only [Traffic.after]
    split
    next free =>
      refine apart id' q' .waiting ?_
      rintro rfl
      cases free.symm.trans waiting
    next => exact waiting
  | poll id' =>
    by_cases hid : id' = id
    · subst hid
      simp only [Traffic.after, waiting]
      split
      next => exact .inl waiting
      next free => exact .inr ⟨trivial, by simpa using free, rfl⟩
    · refine .inl ?_
      simp only [Traffic.after]
      split
      next q' _ =>
        split
        · exact waiting
        · exact apart id' q' .released hid
      next => exact waiting
  | read id' =>
    refine .inl ?_
    simp only [Traffic.after]
    split
    next q' released =>
      refine apart id' q' _ ?_
      rintro rfl
      cases released.symm.trans waiting
    next => exact waiting

theorem inquiries_advance (t : Traffic) (id : Nat) (q : Inquiry) (p : Progress) :
    (t.advance id q p).inquiries id = some (q, p) := Function.update_self _ _ _

theorem inquiries_read {id : Nat} {q : Inquiry} (released : t.inquiries id = some (q, .released)) :
    (t.after c (.read id)).inquiries id = some (q, .answered (t.orchestrator.find q)) := by
  simp only [after, released]
  exact inquiries_advance t id q _

/-- Routes are published by cycles that succeed. One that has published and is not over yet will. -/
theorem Coherent.succeeds (coherent : t.Coherent) {r : CycleRecord} (hr : r ∈ t.records)
    (published : r.published.isSome = true) : r.outcome = some .succeeded ∨
      ∃ cycle, t.activity = .working cycle ∧ t.records.head? = some r ∧ cycle.stage.HasPublished ∧
        (Cycle.run c cycle).stage.outcome? = some .succeeded := by
  have past : r.Closed → r.outcome = some .succeeded := by
    rintro ⟨outcome, ended, succeeded⟩
    rw [ended, succeeded.mp published]
  obtain ⟨activity, records, inquiries⟩ := t
  cases activity with
  | resting o =>
    have rest : AtRest o records := coherent
    exact .inl (past (rest.closed r hr))
  | refusing o s =>
    have door : AtDoor o s records := coherent
    obtain ⟨earlier, rfl, closed⟩ := door.current
    rcases List.mem_cons.mp hr with rfl | hr
    · cases published
    · exact .inl (past (closed r hr))
  | working cycle =>
    have work : AtWork cycle records := coherent
    obtain ⟨now, earlier, rfl, -, stage, closed⟩ := work.current
    rcases List.mem_cons.mp hr with rfl | hr
    · have done := stage.mp published
      exact .inr ⟨cycle, rfl, rfl, done, Cycle.outcome?_run_of_sure done.isSure⟩
    · exact .inl (past (closed r hr))

theorem Coherent.published_of_succeeded (coherent : t.Coherent) {r : CycleRecord}
    (hr : r ∈ t.records) (succeeded : r.outcome = some .succeeded) :
    r.published.isSome = true := by
  have past : r.Closed → r.published.isSome = true := by
    rintro ⟨outcome, ended, published⟩
    cases ended.symm.trans succeeded
    exact published.mpr rfl
  obtain ⟨activity, records, inquiries⟩ := t
  cases activity with
  | resting o =>
    have rest : AtRest o records := coherent
    exact past (rest.closed r hr)
  | refusing o s =>
    have door : AtDoor o s records := coherent
    obtain ⟨earlier, rfl, closed⟩ := door.current
    rcases List.mem_cons.mp hr with rfl | hr
    · cases succeeded
    · exact past (closed r hr)
  | working cycle =>
    have work : AtWork cycle records := coherent
    obtain ⟨now, earlier, rfl, going, -, closed⟩ := work.current
    rcases List.mem_cons.mp hr with rfl | hr
    · cases going.symm.trans succeeded
    · exact past (closed r hr)

/-- What those who ask can rely on. -/
structure Orderly (c : Collaborators) (t : Traffic) : Prop where
  -- Whoever waits for cycles gets on by being woken while none is on its way, and in no other way.
  released : ∀ id q e, t.inquiries id = some (q, .waiting) → q.waits = true →
    (t.after c e).inquiries id ≠ some (q, .waiting) →
      e = .poll id ∧ t.activity.isResting = true
  -- Nobody is stuck once no cycle is on its way.
  unstuck : ∀ id q, t.inquiries id = some (q, .waiting) → t.activity.isResting = true →
    (t.after c (.poll id)).inquiries id = some (q, .released)
  -- Between a cycle that succeeded and the next one, the registry has the modules that are held in
  -- memory, which are those of that cycle, and whoever looks there finds them.
  modules : ∀ o r, t.activity = .resting o → t.records.head? = some r →
    r.outcome = some .succeeded →
      o.registry = some r.modules ∧ r.modules = o.host.modules ∧
        ∀ id request, t.inquiries id = some (.module request, .released) →
          (t.after c (.read id)).inquiries id =
            some (.module request, .answered (.registry (some r.modules)))
  -- The modules below a directory are listed by the routes that were published last, as a whole.
  routes : ∀ id r, t.inquiries id = some (.context r, .released) → r.listsRoutes = true →
    ∃ answer, (t.after c (.read id)).inquiries id = some (.context r, .answered (.context answer)) ∧
      answer = r.answer (Orchestrator.contextTarget t.orchestrator.options)
        (lastPublished t.records) ∧
      answer.contextDependencies =
        (lastPublished t.records).resolved.map fun (key, path) => ⟨key, path⟩
  -- Only cycles that succeed publish, and all of them do. One that has published is about to succeed.
  succeeds : ∀ r ∈ t.records, r.published.isSome = true → r.outcome = some .succeeded ∨
    ∃ cycle, t.activity = .working cycle ∧ t.records.head? = some r ∧ cycle.stage.HasPublished ∧
      (Cycle.run c cycle).stage.outcome? = some .succeeded
  publishes : ∀ r ∈ t.records, r.outcome = some .succeeded → r.published.isSome = true

theorem Coherent.orderly (coherent : t.Coherent) : t.Orderly c := by
  have pending := coherent.isPending
  constructor
  · intro id q e waiting waits moved
    obtain ⟨he, free, -⟩ := (inquiries_after_of_waiting waiting e).resolve_left moved
    refine ⟨he, ?_⟩
    rw [Orchestrator.holdsBack, waits, pending] at free
    simpa using free
  · intro id q waiting resting
    have free : t.orchestrator.holdsBack q = false := by
      rw [Orchestrator.holdsBack, pending, resting]
      exact Bool.and_false _
    simp only [Traffic.after, waiting, free]
    exact inquiries_advance t id q .released
  · intro o r resting latest succeeded
    have rest : AtRest o t.records := by
      have now := coherent
      unfold Coherent at now
      rwa [resting] at now
    obtain ⟨registry, held⟩ := rest.modules r latest succeeded
    refine ⟨registry, held, fun id request released => ?_⟩
    rw [inquiries_read released, Orchestrator.find, orchestrator, resting]
    show some (_, Progress.answered (.registry o.registry)) = _
    rw [registry]
  · intro id r released lists
    have answer : t.orchestrator.handOnContext r =
        r.answer (Orchestrator.contextTarget t.orchestrator.options) (lastPublished t.records) := by
      rw [Orchestrator.handOnContext, if_pos lists, coherent.shown.published]
    exact ⟨_, inquiries_read released, answer, congrArg ContextRequest.contextDependencies answer⟩
  · exact fun r hr => coherent.succeeds hr
  · exact fun r hr => coherent.published_of_succeeded hr

/-- However cycles, reports, edits and inquiries follow each other, and however the cycles end, those
who ask see whole cycles only. -/
theorem orderly_run (careful : c.Careful) (options : BuildOptions) (files : FileSystem)
    (base : Path) (events : List TrafficEvent) :
    ((start c options files base).run c events).Orderly c :=
  ((coherent_start careful options files base).run careful events).orderly

/-- A build of one main file beside a module that is held in memory. -/
def virtualOptions : BuildOptions :=
  { Orchestrator.plainOptions with
    overrides := (OrderedMap.empty : PathMap String).insert ⟨"/p/virtual.ts"⟩ "" }

/-- While the first cycle is on its way somebody asks for a module, and is woken twice in vain. -/
def kept : List TrafficEvent :=
  [.build (.begin .fresh), .ask 0 (.module "./virtual.ts"), .poll 0] ++
    List.replicate 7 (.build .step) ++ [.poll 0]

/-- The cycle succeeds, and the inquiry gets on. -/
def letGo : List TrafficEvent := kept ++ [.build .step, .poll 0]

def virtualTraffic (events : List TrafficEvent) : Traffic :=
  (start (.scanning .ofFiles) virtualOptions
    (.memory (MemoryFiles.empty.insert ⟨"/p/main.ts"⟩ "")) ⟨"/p"⟩).run (.scanning .ofFiles) events

/-- Whether somebody still waits, and the modules in the registry that was looked into. -/
def outlook (t : Traffic) (id : Nat) : Bool × List Path :=
  match t.inquiries id with
  | some (_, .waiting) => (true, [])
  | some (_, .answered (.registry (some r))) => (false, r.keys)
  | _ => (false, [])

/-- Whoever asks while the first cycle is on its way waits until it has succeeded, and then finds the
module that is held in memory. -/
theorem orderly_virtual : (virtualTraffic kept).Orderly (.scanning .ofFiles) ∧
    (virtualTraffic letGo).Orderly (.scanning .ofFiles) ∧
    (virtualTraffic kept).activity.isResting = false ∧ (virtualTraffic kept).outlook 0 = (true, []) ∧
    (virtualTraffic letGo).activity.isResting = true ∧
    (virtualTraffic (letGo ++ [.read 0])).outlook 0 = (false, [⟨"/p/virtual.ts"⟩]) := by
  have careful := Collaborators.careful_scanning .ofFiles
  refine ⟨orderly_run careful _ _ _ kept, orderly_run careful _ _ _ letGo, ?_⟩
  decide +kernel

end Traffic

end Precompile
