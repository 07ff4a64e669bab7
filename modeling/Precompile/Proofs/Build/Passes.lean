import Precompile.Proofs.Build.Lifecycle
import Precompile.Proofs.Route.Map

/-!
# Routes over whole runs

A cycle that succeeds passes over the routes once, and a cycle that fails does not get there
(`Cycle.passes_make`). So the routes after a run are told by the passes of its cycles alone: at each
key stands what the last pass that found it made of it, and a warning was given each time two passes
in a row that found it disagreed about its file (`Lifecycle.told_run`).
-/

namespace Precompile

/-- The routes that a stage is about to merge. -/
def Stage.found? : Stage → Option RouteMap
  | .merging found => some found
  | _ => none

/-- The stages after the routes were merged, or that never get there. -/
def Stage.IsMerged : Stage → Prop
  | .publishing | .registering | .settling | .ended _ => True
  | _ => False

theorem Stage.Leads.isMerged {stage next : Stage} (leads : stage.Leads next)
    (merged : stage.IsMerged) : next.IsMerged := by
  cases leads with
  | register | settle | succeed | fail => trivial
  | _ => cases merged

/-- A stage before the routes were merged merges them, leads on, or fails. -/
theorem Stage.Leads.of_unmerged {stage next : Stage} (leads : stage.Leads next)
    (unmerged : ¬ stage.IsMerged) :
    (∃ found, stage = .merging found ∧ next = .publishing) ∨
      stage.found? = none ∧ (¬ next.IsMerged ∨ next = .ended .failed) := by
  cases leads with
  | publish found => exact .inl ⟨found, rfl, rfl⟩
  | fail can => 
    refine .inr ⟨?_, .inr rfl⟩
    cases stage with
    | merging => cases can
    | _ => rfl
  | register | settle | succeed => exact absurd trivial unmerged
  | _ => exact .inr ⟨rfl, .inl id⟩

namespace Cycle

variable {c : Collaborators}

/-- What the passes over the routes find, from a cycle on. -/
def passes (c : Collaborators) (cycle : Cycle) : List RouteMap :=
  (trace c cycle).filterMap (·.stage.found?)

/-- The routes and the warnings after one more pass. -/
def tell (o : BuildOptions) (told : RouteMap × List String) (found : RouteMap) :
    RouteMap × List String :=
  let routes := (planOf o).apply found
  (told.1.merge routes,
    told.2 ++ .replicate (told.1.conflicts routes).length RouteConflict.warningText)

theorem passes_of_going {cycle : Cycle} (going : cycle.stage.outcome? = none) :
    passes c cycle = cycle.stage.found?.toList ++ passes c (step c cycle) := by
  unfold passes
  rw [trace_of_going going, List.filterMap_cons]
  cases cycle.stage.found? <;> rfl

theorem passes_of_ended {cycle : Cycle} (ended : cycle.stage.outcome? ≠ none) :
    passes c cycle = [] := by
  unfold passes
  rw [trace_of_ended ended]
  cases hs : cycle.stage <;> simp [hs, Stage.outcome?, Stage.found?] at ended ⊢

theorem warnings_warn (s : Session) (conflicts : List RouteConflict) :
    (conflicts.foldl warn s).warnings =
      s.warnings ++ .replicate conflicts.length RouteConflict.warningText := by
  induction conflicts generalizing s with
  | nil => simp
  | cons conflict rest ih =>
    have first : (warn s conflict).warnings = s.warnings ++ [RouteConflict.warningText] := rfl
    rw [List.foldl_cons, ih, first, List.append_assoc]
    rfl

/-! ### What one cycle tells -/

/-- Only merging changes the routes, and only there is a warning given. -/
theorem Steps.told {cycle next : Cycle} (steps : Steps c cycle next) :
    (next.orchestrator.routes, next.session.warnings) =
      cycle.stage.found?.toList.foldl (tell cycle.orchestrator.options)
        (cycle.orchestrator.routes, cycle.session.warnings) := by
  cases steps with
  | merge o s found => exact Prod.ext rfl (warnings_warn s _)
  | _ => rfl

theorem told_run (cycle : Cycle) :
    ((run c cycle).orchestrator.routes, (run c cycle).session.warnings) =
      (passes c cycle).foldl (tell cycle.orchestrator.options)
        (cycle.orchestrator.routes, cycle.session.warnings) := by
  fun_induction run c cycle with
  | case1 cycle going _ ih =>
    have steps := steps_step (c := c) cycle
    rw [steps.options_eq, steps.told] at ih
    rw [passes_of_going going, List.foldl_append]
    exact ih
  | case2 cycle ended =>
    rw [passes_of_ended ended]
    rfl

theorem passes_of_merged {cycle : Cycle} (merged : cycle.stage.IsMerged) :
    passes c cycle = [] := by
  fun_induction run c cycle with
  | case2 cycle ended => exact passes_of_ended ended
  | case1 cycle going _ ih =>
    have none : cycle.stage.found? = none := by
      cases hs : cycle.stage <;> simp [hs, Stage.IsMerged, Stage.found?] at merged ⊢
    rw [passes_of_going going, none, ih ((step_leads going).isMerged merged)]
    rfl

theorem passes_of_merging {cycle : Cycle} {found : RouteMap} (hs : cycle.stage = .merging found) :
    passes c cycle = [found] := by
  obtain ⟨o, s, stage⟩ := cycle
  cases hs
  have merged : (step c ⟨o, s, .merging found⟩).stage.IsMerged := trivial
  rw [passes_of_going rfl, passes_of_merged merged]
  rfl

/-- A cycle that has not merged the routes yet will do so once and succeed, or it fails. -/
theorem passes_of_unmerged {cycle : Cycle} (unmerged : ¬ cycle.stage.IsMerged) :
    (∃ found, passes c cycle = [found] ∧ (run c cycle).stage = .ended .succeeded) ∨
      passes c cycle = [] ∧ (run c cycle).stage = .ended .failed := by
  fun_induction run c cycle with
  | case2 cycle ended =>
    cases hs : cycle.stage <;> simp [hs, Stage.IsMerged, Stage.outcome?] at ended unmerged
  | case1 cycle going _ ih =>
    rcases (step_leads (c := c) going).of_unmerged unmerged with
      ⟨found, hs, hnext⟩ | ⟨none, unmerged' | failed⟩
    · refine .inl ⟨found, passes_of_merging hs, ?_⟩
      have sure : (step c cycle).stage.IsSure := by
        rw [hnext]
        trivial
      have succeeded := outcome?_run_of_sure (c := c) sure
      obtain ⟨outcome, hended⟩ := exists_ended_run (c := c) (step c cycle)
      rw [hended] at succeeded ⊢
      rw [Option.some.inj succeeded]
    · rw [passes_of_going going, none]
      exact ih unmerged'
    · have ended : (step c cycle).stage.outcome? ≠ Option.none := by
        rw [failed]
        exact Option.some_ne_none _
      refine .inr ⟨?_, ?_⟩
      · rw [passes_of_going going, none, passes_of_ended ended]
        rfl
      · rw [run_of_ended c _ ended, failed]

/-- A cycle passes over the routes exactly if it succeeds. -/
theorem passes_make (c : Collaborators) (o : Orchestrator) (s : Session) :
    (∃ found, passes c (begin o s) = [found] ∧ (o.make c s).stage = .ended .succeeded) ∨
      passes c (begin o s) = [] ∧ (o.make c s).stage = .ended .failed := by
  cases hs : s.bound with
  | true =>
    have hbegin : (begin o s).stage = .ended .failed := by
      unfold begin
      rw [if_pos hs]
    refine .inr ⟨passes_of_ended (by rw [hbegin]; exact nofun), ?_⟩
    rw [make_of_bound o hs]
  | false =>
    have hbegin : (begin o s).stage = .invalidating := by
      unfold begin
      rw [if_neg (by simp [hs]), stage_goTo]
    apply passes_of_unmerged
    rw [hbegin]
    exact id

theorem told_make (c : Collaborators) (o : Orchestrator) (s : Session) :
    ((o.make c s).orchestrator.routes, (o.make c s).session.warnings) =
      (passes c (begin o s)).foldl (tell o.options) (o.routes, s.warnings) := by
  have told := told_run (c := c) (begin o s)
  have hbegin : (begin o s).orchestrator.options = o.options ∧
      (begin o s).orchestrator.routes = o.routes ∧ (begin o s).session.warnings = s.warnings := by
    unfold begin
    split <;> exact ⟨rfl, rfl, rfl⟩
  rw [hbegin.1, hbegin.2.1, hbegin.2.2] at told
  exact told

/-! ### After the first success -/

/-- A cycle that comes after a success and has not looked for routes yet. -/
structure Looks (cycle : Cycle) : Prop where
  later : cycle.orchestrator.firstRun = false
  unmerged : ¬ cycle.stage.IsMerged
  found : cycle.stage.found? = none
  program : ∀ P, cycle.stage = .checking P ∨ cycle.stage = .discovering P →
    cycle.orchestrator.programs.current = some P

theorem Steps.looks {cycle next : Cycle} (steps : Steps c cycle next) (looks : Looks cycle) :
    Looks next ∨ next.stage = .ended .failed ∨ ∃ P, cycle.stage = .discovering P ∧
      next.stage = .merging (Route.ofChanged P cycle.orchestrator.host
        cycle.orchestrator.host.cache.changedPaths) ∧
      next.orchestrator.programs = cycle.orchestrator.programs := by
  have later := looks.later
  have unmerged := looks.unmerged
  have found := looks.found
  cases steps with
  | invalidate o s =>
    left
    split
    · exact ⟨later, id, rfl, by simp⟩
    · exact ⟨later, id, rfl, by simp⟩
  | keep => exact .inl ⟨later, id, rfl, by simp⟩
  | prepare => exact .inl ⟨later, id, rfl, by simp⟩
  | generate => exact .inl ⟨later, id, rfl, by simp⟩
  | @build o s P =>
    left
    unfold checkStage
    split
    · exact ⟨later, id, rfl, by simp [created, Cycle.goTo]⟩
    · exact ⟨later, id, rfl, by simp [created, Cycle.goTo]⟩
  | @check o s P =>
    refine .inl ⟨later, id, rfl, fun Q hQ => ?_⟩
    have same : Q = P := by simpa [eq_comm] using hQ
    exact same ▸ looks.program P (.inl rfl)
  | unprepared | ungenerated | unbuilt | unchecked => exact .inr (.inl rfl)
  | discoverAll first => cases later.symm.trans first
  | discoverChanged => exact .inr (.inr ⟨_, rfl, rfl, rfl⟩)
  | merge => cases found
  | publish | unregistered | register | settle | ended => exact absurd trivial unmerged

/-- After a success, a cycle finds the routes of the changed files of its last program. -/
theorem Looks.found_eq {cycle : Cycle} (looks : Looks cycle) {found : RouteMap}
    (hfound : found ∈ passes c cycle) : ∃ looking ∈ trace c cycle, ∃ P,
      looking.stage = .discovering P ∧
      (run c cycle).orchestrator.programs.current = some P ∧
      found = Route.ofChanged P looking.orchestrator.host
        looking.orchestrator.host.cache.changedPaths := by
  fun_induction run c cycle with
  | case2 cycle ended =>
    rw [passes_of_ended ended] at hfound
    cases hfound
  | case1 cycle going _ ih =>
    rw [passes_of_going going, looks.found, Option.toList_none, List.nil_append] at hfound
    rw [trace_of_going going]
    rcases (steps_step (c := c) cycle).looks looks with looks' | failed | ⟨P, hs, hnext, programs⟩
    · obtain ⟨looking, hlooking, rest⟩ := ih looks' hfound
      exact ⟨looking, List.mem_cons_of_mem _ hlooking, rest⟩
    · rw [passes_of_ended (by rw [failed]; exact Option.some_ne_none _)] at hfound
      cases hfound
    · refine ⟨cycle, List.mem_cons_self, P, hs, ?_, ?_⟩
      · have late : (step c cycle).stage.IsLate := by
          rw [hnext]
          trivial
        rw [run_late late, programs]
        exact looks.program P (.inr hs)
      · rw [passes_of_merging hnext] at hfound
        exact List.mem_singleton.mp hfound

end Cycle

/-- Diagnosing a file gives no warnings. -/
theorem Orchestrator.warnings_diagnose (c : Collaborators) (path : Path) (s : Session)
    (o : Orchestrator) : (o.diagnose c path s).2.warnings = s.warnings := by
  have reported : ∀ ds, (report s ds).warnings = s.warnings := fun ds => by cases ds <;> rfl
  unfold diagnose
  dsimp only
  split
  · rfl
  · split
    · rfl
    · split
      · exact reported _
      · rfl

/-- A pass over the routes: the session that its cycle reported to, and the routes that it merged. -/
structure Pass where
  session : Nat
  routes : RouteMap

namespace Pass

/-- What the passes that found a key made of it, one after the other. -/
def valuesAt (key : String) (passes : List Pass) : List (Nat × Option Path) :=
  passes.filterMap fun pass => (pass.routes.get? key).map (pass.session, ·)

/-- How often a value leads to another file than the one before it, on a session. -/
def moves (id : Nat) : List (Nat × Option Path) → Nat
  | [] => 0
  | [_] => 0
  | a :: b :: rest =>
    (decide (b.1 = id) && RouteMap.moved (some a.2) (some b.2)).toNat + moves id (b :: rest)

theorem moves_concat (id : Nat) (values : List (Nat × Option Path)) (b : Nat × Option Path) :
    moves id (values ++ [b]) = moves id values +
      (decide (b.1 = id) && RouteMap.moved (values.getLast?.map Prod.snd) (some b.2)).toNat := by
  induction values with
  | nil => simp [moves]
  | cons a rest ih =>
    cases rest with
    | nil => simp [moves]
    | cons a' rest =>
      simp only [List.cons_append, moves] at ih ⊢
      rw [ih, List.getLast?_cons_cons, Nat.add_assoc]

theorem valuesAt_concat (key : String) (passes : List Pass) (pass : Pass) :
    valuesAt key (passes ++ [pass]) =
      valuesAt key passes ++ ((pass.routes.get? key).map (pass.session, ·)).toList := by
  unfold valuesAt
  rw [List.filterMap_append]
  cases h : pass.routes.get? key <;> simp [h]

theorem moves_valuesAt_concat (id : Nat) (key : String) (passes : List Pass) (pass : Pass) :
    moves id (valuesAt key (passes ++ [pass])) = moves id (valuesAt key passes) +
      (decide (pass.session = id) && RouteMap.moved ((valuesAt key passes).getLast?.map Prod.snd)
        (pass.routes.get? key)).toNat := by
  rw [valuesAt_concat]
  cases pass.routes.get? key with
  | none => simp
  | some v => exact moves_concat id (valuesAt key passes) (pass.session, v)

end Pass

namespace Lifecycle

/-- The passes of one call. -/
def passesOf (l : Lifecycle) : Call → List Pass
  | .make c id =>
    (Cycle.passes c (Cycle.begin l.orchestrator (l.sessions id))).map fun found =>
      ⟨id, (Cycle.planOf l.orchestrator.options).apply found⟩
  | _ => []

def passes (l : Lifecycle) : List Call → List Pass
  | [] => []
  | call :: calls => l.passesOf call ++ (l.after call).passes calls

/-- The routes and the warnings are those that passes told. -/
structure Told (sessions : Nat → Session) (passes : List Pass) (l : Lifecycle) : Prop where
  -- The last pass that found a key decides about it.
  routes : ∀ key, l.orchestrator.routes.get? key = (Pass.valuesAt key passes).getLast?.map Prod.snd
  -- Two passes in a row that disagree about the file of a key give a warning.
  warnings : ∀ id, (l.sessions id).warnings = (sessions id).warnings ++
    .replicate (∑ key ∈ l.orchestrator.routes.keys.toFinset,
      Pass.moves id (Pass.valuesAt key passes)) RouteConflict.warningText

variable {l : Lifecycle} {sessions : Nat → Session} {passes : List Pass}

/-- A key that no pass found has not moved, so it does not matter whether it is counted. -/
theorem Told.sum_moves (told : Told sessions passes l) (id : Nat) {keys : Finset String}
    (all : l.orchestrator.routes.keys.toFinset ⊆ keys) :
    ∑ key ∈ l.orchestrator.routes.keys.toFinset, Pass.moves id (Pass.valuesAt key passes) =
      ∑ key ∈ keys, Pass.moves id (Pass.valuesAt key passes) := by
  apply Finset.sum_subset all
  intro key _ hkey
  have absent : (Pass.valuesAt key passes).getLast?.map Prod.snd = none := by
    rw [← told.routes]
    apply Option.eq_none_iff_forall_ne_some.mpr
    intro v hv
    exact hkey (List.mem_toFinset.mpr (RouteMap.mem_keys_iff.mpr ⟨v, hv⟩))
  have none : Pass.valuesAt key passes = [] := by simpa using absent
  rw [none]
  rfl

/-- One more pass tells one more value for each key that it found. -/
theorem Told.pass (told : Told sessions passes l) {l' : Lifecycle} (pass : Pass)
    (routes : l'.orchestrator.routes = l.orchestrator.routes.merge pass.routes)
    (reported : (l'.sessions pass.session).warnings = (l.sessions pass.session).warnings ++
      .replicate (l.orchestrator.routes.conflicts pass.routes).length RouteConflict.warningText)
    (others : ∀ id, id ≠ pass.session → l'.sessions id = l.sessions id) :
    Told sessions (passes ++ [pass]) l' where
  routes := by
    intro key
    rw [routes, RouteMap.get?_merge, told.routes, Pass.valuesAt_concat]
    cases pass.routes.get? key <;> simp
  warnings := by
    intro id
    have within : l.orchestrator.routes.keys.toFinset ⊆ l'.orchestrator.routes.keys.toFinset := by
      intro key hkey
      obtain ⟨v, hv⟩ := RouteMap.mem_keys_iff.mp (List.mem_toFinset.mp hkey)
      apply List.mem_toFinset.mpr
      rw [RouteMap.mem_keys_iff, routes, RouteMap.get?_merge, hv]
      cases pass.routes.get? key <;> simp
    have found : ∀ key ∈ pass.routes.keys, key ∈ l'.orchestrator.routes.keys.toFinset := by
      intro key hkey
      obtain ⟨v, hv⟩ := RouteMap.mem_keys_iff.mp hkey
      apply List.mem_toFinset.mpr
      rw [RouteMap.mem_keys_iff, routes, RouteMap.get?_merge, hv]
      exact ⟨v, rfl⟩
    have sum : ∑ key ∈ l'.orchestrator.routes.keys.toFinset,
        Pass.moves id (Pass.valuesAt key (passes ++ [pass])) =
        ∑ key ∈ l.orchestrator.routes.keys.toFinset, Pass.moves id (Pass.valuesAt key passes) +
        ∑ key ∈ l'.orchestrator.routes.keys.toFinset, (decide (pass.session = id) &&
          RouteMap.moved (l.orchestrator.routes.get? key) (pass.routes.get? key)).toNat := by
      rw [told.sum_moves id within, ← Finset.sum_add_distrib]
      apply Finset.sum_congr rfl
      intro key _
      rw [Pass.moves_valuesAt_concat, told.routes]
    rw [sum]
    by_cases hid : pass.session = id
    · subst hid
      simp only [decide_true, Bool.true_and, ← RouteMap.length_conflicts _ _ found]
      rw [reported, told.warnings, List.append_assoc, List.replicate_append_replicate]
    · rw [others id (Ne.symm hid), told.warnings]
      simp [hid]

theorem Told.make (told : Told sessions passes l) (c : Collaborators) (id : Nat) :
    Told sessions (passes ++ l.passesOf (.make c id)) (l.after (.make c id)) := by
  have merged := Cycle.told_make c l.orchestrator (l.sessions id)
  have others : ∀ id', id' ≠ id → (l.after (.make c id)).sessions id' = l.sessions id' :=
    fun id' hne => Function.update_of_ne hne _ _
  have own : (l.after (.make c id)).sessions id =
      (l.orchestrator.make c (l.sessions id)).session := Function.update_self _ _ _
  rcases Cycle.passes_make c l.orchestrator (l.sessions id) with ⟨found, hpass, -⟩ | ⟨hnone, -⟩
  · rw [hpass] at merged
    have one : l.passesOf (.make c id) = [⟨id, (Cycle.planOf l.orchestrator.options).apply found⟩] := by
      simp [passesOf, hpass]
    rw [one]
    apply told.pass
    · exact congrArg Prod.fst merged
    · rw [own]
      exact congrArg Prod.snd merged
    · exact others
  · rw [hnone] at merged
    have none : l.passesOf (.make c id) = [] := by simp [passesOf, hnone]
    have routes : (l.after (.make c id)).orchestrator.routes = l.orchestrator.routes :=
      congrArg Prod.fst merged
    rw [none, List.append_nil]
    constructor
    · rw [routes]
      exact told.routes
    · intro id'
      rw [routes, ← told.warnings id']
      by_cases hid : id' = id
      · subst hid
        rw [own]
        exact congrArg Prod.snd merged
      · rw [others id' hid]

theorem Told.after (told : Told sessions passes l) (call : Call) :
    Told sessions (passes ++ l.passesOf call) (l.after call) := by
  -- a session that is released or diagnosed on keeps its warnings
  have kept : ∀ (l' : Lifecycle), l'.orchestrator.routes = l.orchestrator.routes →
      (∀ id, (l'.sessions id).warnings = (l.sessions id).warnings) →
      Told sessions (passes ++ []) l' := by
    intro l' routes warnings
    rw [List.append_nil]
    constructor
    · rw [routes]
      exact told.routes
    · intro id
      rw [routes, warnings, told.warnings]
  have updated : ∀ (id : Nat) (s : Session), s.warnings = (l.sessions id).warnings → ∀ id',
      (Function.update l.sessions id s id').warnings = (l.sessions id').warnings := by
    intro id s same id'
    by_cases hid : id' = id
    · subst hid
      rw [Function.update_self, same]
    · rw [Function.update_of_ne hid]
  cases call with
  | make c id => exact told.make c id
  | onInvalid | attach | report | edit => exact kept _ rfl fun _ => rfl
  | afterEmit id => exact kept _ rfl (updated id _ rfl)
  | diagnose c path id =>
    apply kept
    · obtain ⟨diagnosed, same⟩ := Orchestrator.diagnose_eq c path (l.sessions id) l.orchestrator
      simp only [Lifecycle.after, same]
    · exact updated id _ (Orchestrator.warnings_diagnose c path _ _)

theorem passes_append (l : Lifecycle) (calls more : List Call) :
    l.passes (calls ++ more) = l.passes calls ++ (l.run calls).passes more := by
  induction calls generalizing l with
  | nil => rfl
  | cons call calls ih =>
    show l.passesOf call ++ (l.after call).passes (calls ++ more) = _
    rw [ih, ← List.append_assoc]
    rfl

theorem told_run (l : Lifecycle) (fresh : l.orchestrator.routes = .empty) (calls : List Call) :
    Told l.sessions (l.passes calls) (l.run calls) := by
  induction calls using List.reverseRecOn with
  | nil =>
    constructor
    · intro key
      rw [show (l.run []).orchestrator.routes = .empty from fresh]
      rfl
    · intro id
      rw [show (l.run []).orchestrator.routes = .empty from fresh]
      exact (List.append_nil _).symm
  | append_singleton calls call ih =>
    have passes : l.passes (calls ++ [call]) = l.passes calls ++ (l.run calls).passesOf call := by
      rw [passes_append]
      simp [Lifecycle.passes]
    have run : l.run (calls ++ [call]) = (l.run calls).after call := by simp [Lifecycle.run]
    rw [passes, run]
    exact ih.after call

/-- What the calls to an orchestrator come to for its routes, and for the next call. -/
structure RoutesTold (l : Lifecycle) (calls : List Call) : Prop extends
    Told l.sessions (l.passes calls) (l.run calls) where
  -- A cycle passes over the routes exactly if it succeeds.
  passing : ∀ c id, let l := l.run calls
    (∃ pass, l.passesOf (.make c id) = [pass] ∧ pass.session = id ∧
      (l.orchestrator.make c (l.sessions id)).stage = .ended .succeeded) ∨
    l.passesOf (.make c id) = [] ∧
      (l.orchestrator.make c (l.sessions id)).stage = .ended .failed
  -- A key that is not found again stays as it is.
  kept : ∀ call key, let l := l.run calls
    (∀ pass ∈ l.passesOf call, pass.routes.get? key = none) →
      (l.after call).orchestrator.routes.get? key = l.orchestrator.routes.get? key
  -- After a success the routes of the changed files of the last program are found, in the order of
  -- the paths, and the last file that has a key decides about it.
  found : ∀ c id, let l := l.run calls
    .succeeded ∈ l.outcomes → ∀ found ∈ Cycle.passes c (Cycle.begin l.orchestrator (l.sessions id)),
      ∃ looking ∈ Cycle.trace c (Cycle.begin l.orchestrator (l.sessions id)), ∃ P,
        looking.stage = .discovering P ∧
        (l.after (.make c id)).orchestrator.programs.current = some P ∧
        (looking.orchestrator.host.cache.changedPaths.Pairwise fun p q =>
          p.components < q.components) ∧
        ∀ key, found.get? key =
          ((looking.orchestrator.host.cache.changedPaths.filterMap P.file?).filterMap fun f =>
            (Route.ofFile looking.orchestrator.host f).get? key).getLast?

/-- Whatever is asked of an orchestrator, and whatever its collaborators do, its routes and the
warnings about them are those that the passes of its cycles tell. -/
theorem routesTold_run (c : Collaborators) (o : BuildOptions) (h : Host) (sessions : Nat → Session)
    (calls : List Call) : RoutesTold (start c o h sessions) calls where
  toTold := told_run _ rfl calls
  passing := by
    intro c id l
    rcases Cycle.passes_make c l.orchestrator (l.sessions id) with ⟨found, hpass, succeeded⟩ |
      ⟨hnone, failed⟩
    · exact .inl ⟨_, by rw [passesOf, hpass]; rfl, rfl, succeeded⟩
    · exact .inr ⟨by rw [passesOf, hnone]; rfl, failed⟩
  kept := by
    intro call key l absent
    have before := told_run (start c o h sessions) rfl calls
    have after := before.after call
    have same : Pass.valuesAt key (l.passesOf call) = [] := by
      apply List.filterMap_eq_nil_iff.mpr
      intro pass hpass
      rw [absent pass hpass]
      rfl
    rw [after.routes, before.routes]
    unfold Pass.valuesAt at same ⊢
    rw [List.filterMap_append, same, List.append_nil]
  found := by
    intro c' id l succeeded found hfound
    have settled := (settled_start c o h sessions).run calls
    have later : l.orchestrator.firstRun = false := by
      apply Bool.eq_false_iff.mpr
      intro first
      exact settled.firstRun.mp first succeeded
    cases hs : (l.sessions id).bound with
    | true =>
      have ended : (Cycle.begin l.orchestrator (l.sessions id)).stage.outcome? ≠ none := by
        unfold Cycle.begin
        rw [if_pos hs]
        exact nofun
      rw [Cycle.passes_of_ended ended] at hfound
      cases hfound
    | false =>
      have looks : Cycle.Looks (Cycle.begin l.orchestrator (l.sessions id)) := by
        unfold Cycle.begin
        rw [if_neg (by simp [hs])]
        exact ⟨later, fun merged => merged, rfl, by simp⟩
      obtain ⟨looking, hlooking, P, hstage, hcurrent, hfound⟩ := looks.found_eq hfound
      refine ⟨looking, hlooking, P, hstage, hcurrent, ?_, fun key => ?_⟩
      · exact List.pairwise_map.mpr looking.orchestrator.host.cache.changed.sorted
      · rw [hfound]
        exact Route.get?_ofFiles _ _ key

end Lifecycle

end Precompile
