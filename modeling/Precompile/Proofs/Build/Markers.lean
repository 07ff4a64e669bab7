import Precompile.Proofs.Build.Lifecycle

/-!
What is reported of a file, and when.

A file is marked when it is diagnosed. Markers are cleared when files have changed and when a cycle
succeeds, and by nothing else (`Lifecycle.marked_run`). So from one time to the next a file is
reported once, for whatever spelling of its path and on whatever session it is asked about
(`Lifecycle.diagnosed_once`).
-/

namespace Precompile

/-! ### Cycles -/

namespace Cycle

variable {c : Collaborators}

/-- The markers of a cycle that began with these: they are kept until it has succeeded, and there are
none then. -/
structure KeepsMarkers (markers : PathSet) (cycle : Cycle) : Prop where
  kept : cycle.stage ≠ .ended .succeeded → cycle.orchestrator.diagnosed = markers
  cleared : cycle.stage = .ended .succeeded → cycle.orchestrator.diagnosed = .empty

theorem Steps.keepsMarkers {markers : PathSet} {cycle next : Cycle} (steps : Steps c cycle next)
    (going : cycle.stage.outcome? = none) (keeps : KeepsMarkers markers cycle) :
    KeepsMarkers markers next := by
  have kept : cycle.orchestrator.diagnosed = markers := keeps.kept fun ended => by
    rw [ended] at going
    cases going
  cases steps with
  | settle => exact ⟨fun goes => absurd rfl goes, fun _ => rfl⟩
  | invalidate =>
    refine ⟨fun _ => kept, fun ended => ?_⟩
    rw [stage_goTo] at ended
    split at ended <;> cases ended
  | build =>
    refine ⟨fun _ => kept, fun ended => ?_⟩
    rw [stage_goTo, checkStage] at ended
    split at ended <;> cases ended
  | ended => cases going
  | _ => exact ⟨fun _ => kept, fun ended => by cases ended⟩

/-- A cycle that fails keeps the markers, and one that succeeds clears them. -/
theorem keepsMarkers_make (c : Collaborators) (o : Orchestrator) (s : Session) :
    KeepsMarkers o.diagnosed (o.make c s) := by
  have start : KeepsMarkers o.diagnosed (begin o s) := by
    unfold begin
    split
    · exact ⟨fun _ => rfl, fun ended => by cases ended⟩
    · exact ⟨fun _ => rfl, fun ended => by cases ended⟩
  exact run_induction (fun r going keeps => (steps_step r).keepsMarkers going keeps) _ start

end Cycle

/-! ### Diagnosing -/

namespace Orchestrator

variable {c : Collaborators} {o : Orchestrator} {s : Session} {q : Path}

/-- Nothing is done for a file that is marked or is not in the current program. -/
theorem diagnose_of_idle (idle : o.diagnosed.contains q.normalize = true ∨
    ∀ P, o.programs.current = some P → P.contains q.normalize = false) :
    o.diagnose c q s = (o, s) := by
  unfold diagnose
  dsimp only
  split
  · rfl
  next unmarked =>
    have missing := idle.resolve_left unmarked
    split
    · rfl
    next P current =>
      rw [if_neg (by simp [missing P current])]

/-- A file of the current program that is not marked is marked and reported. -/
theorem diagnose_of_due {P : Program} (unmarked : o.diagnosed.contains q.normalize = false)
    (current : o.programs.current = some P) (there : P.contains q.normalize = true) :
    o.diagnose c q s = ({ o with diagnosed := OrderedSet.insert o.diagnosed q.normalize },
      report s (fileDiagnostics c o.options P q.normalize)) := by
  unfold diagnose
  simp only [unmarked, current, there, if_true, Bool.false_eq_true, if_false]

/-- What is reported is one error in the aggregate form, or nothing. -/
theorem report_eq (s : Session) (ds : List Diagnostic) : report s ds =
    if ds = [] then s
    else { s with
      errors := s.errors ++ [Diagnostic.aggregate ds]
      diagnostics := s.diagnostics ++ ds } := by
  cases ds <;> rfl

end Orchestrator

namespace Lifecycle

variable {l : Lifecycle} {call : Call} {calls : List Call} {p q : Path}

/-! ### What happens along calls -/

/-- It happens at one of the calls. -/
def Happens (R : Lifecycle → Call → Prop) (l : Lifecycle) : List Call → Prop
  | [] => False
  | call :: calls => R l call ∨ Happens R (l.after call) calls

/-- Once it has happened at one of the calls, it does not happen again. -/
def AtMostOnce (R : Lifecycle → Call → Prop) (l : Lifecycle) : List Call → Prop
  | [] => True
  | call :: calls =>
    (R l call → ¬ Happens R (l.after call) calls) ∧ AtMostOnce R (l.after call) calls

/-- The current program contains the file. -/
def Has (l : Lifecycle) (p : Path) : Prop :=
  ∃ P, l.orchestrator.programs.current = some P ∧ P.contains p = true

def Marked (l : Lifecycle) (p : Path) : Prop := l.orchestrator.diagnosed.contains p = true

/-- The call clears the markers: files have changed, or a cycle succeeds. -/
def Clears (l : Lifecycle) : Call → Prop
  | .onInvalid => True
  | .make c id => (l.orchestrator.make c (l.sessions id)).stage = .ended .succeeded
  | _ => False

/-- The call diagnoses the file, by whatever spelling of its path, while the current program contains
it. -/
def Diagnoses (p : Path) (l : Lifecycle) : Call → Prop
  | .diagnose _ q _ => q.normalize = p ∧ l.Has p
  | _ => False

/-- The call diagnoses the file and leaves something in a session. -/
def Reports (p : Path) (l : Lifecycle) : Call → Prop
  | .diagnose c q id => q.normalize = p ∧ (l.after (.diagnose c q id)).sessions ≠ l.sessions
  | _ => False

/-- The markers were cleared by the last of these calls, or have never been set. -/
def JustCleared (l : Lifecycle) (calls : List Call) : Prop :=
  calls = [] ∨ ∃ front call, calls = front ++ [call] ∧ Clears (l.run front) call

theorem run_concat (l : Lifecycle) (calls : List Call) (call : Call) :
    l.run (calls ++ [call]) = (l.run calls).after call := by
  simp [run]

/-! ### One call -/

theorem options_after (l : Lifecycle) (call : Call) :
    (l.after call).orchestrator.options = l.orchestrator.options := by
  cases call with
  | make c id => exact Cycle.options_make c _ _
  | diagnose c path id =>
    obtain ⟨diagnosed, same⟩ := Orchestrator.diagnose_eq c path (l.sessions id) l.orchestrator
    simp only [after, same]
  | onInvalid | afterEmit | attach | report | edit => rfl

/-- Nothing happens when a file is diagnosed that is marked or is not in the current program. -/
theorem after_diagnose_of_idle (idle : l.Marked q.normalize ∨ ¬ l.Has q.normalize) (c : Collaborators)
    (id : Nat) : l.after (.diagnose c q id) = l := by
  have same : l.orchestrator.diagnose c q (l.sessions id) = (l.orchestrator, l.sessions id) := by
    apply Orchestrator.diagnose_of_idle
    refine idle.imp_right fun missing P current => ?_
    exact Bool.eq_false_iff.mpr fun there => missing ⟨P, current, there⟩
  simp only [after, same, Function.update_eq_self]

/-- A file that is diagnosed, is not marked and is in the current program gets a marker, and what is
wrong with it goes to the session. -/
theorem after_diagnose_of_due {P : Program} (unmarked : ¬ l.Marked q.normalize)
    (current : l.orchestrator.programs.current = some P) (there : P.contains q.normalize = true)
    (c : Collaborators) (id : Nat) : l.after (.diagnose c q id) =
      { l with
        orchestrator := { l.orchestrator with
          diagnosed := OrderedSet.insert l.orchestrator.diagnosed q.normalize }
        sessions := Function.update l.sessions id (Orchestrator.report (l.sessions id)
          (Orchestrator.fileDiagnostics c l.orchestrator.options P q.normalize)) } := by
  simp only [after, Orchestrator.diagnose_of_due (Bool.eq_false_iff.mpr unmarked) current there]

theorem not_marked_of_clears (clears : Clears l call) : ¬ (l.after call).Marked p := by
  have empty : (l.after call).orchestrator.diagnosed = .empty := by
    cases call with
    | make c id => exact (Cycle.keepsMarkers_make c _ _).cleared clears
    | onInvalid => rfl
    | _ => cases clears
  simp [Marked, empty]

/-- A call that clears no markers marks the file that it diagnoses, and no other. -/
theorem marked_after (normal : p.IsNormal) (kept : ¬ Clears l call) :
    (l.after call).Marked p ↔ l.Marked p ∨ Diagnoses p l call := by
  cases call with
  | make c id =>
    have same := (Cycle.keepsMarkers_make c l.orchestrator (l.sessions id)).kept kept
    simp only [Marked, after, Diagnoses, same, or_false]
  | onInvalid => exact absurd trivial kept
  | diagnose c q id =>
    by_cases due : l.Marked q.normalize ∨ ¬ l.Has q.normalize
    · rw [after_diagnose_of_idle due c id]
      refine ⟨.inl, ?_⟩
      rintro (marked | ⟨rfl, has⟩)
      · exact marked
      · exact due.resolve_right (not_not.mpr has)
    · obtain ⟨unmarked, has⟩ := not_or.mp due
      obtain ⟨P, current, there⟩ := not_not.mp has
      -- two normal paths that count as one are one
      have same : q.normalize.components = p.components ↔ q.normalize = p :=
        ⟨(Path.isNormal_normalize q).eq_of_same normal, congrArg _⟩
      rw [after_diagnose_of_due unmarked current there c id]
      simp only [Marked, Diagnoses, OrderedSet.contains_insert, Bool.or_eq_true, decide_eq_true_eq,
        same]
      rw [or_comm, and_iff_left_of_imp]
      rintro rfl
      exact not_not.mp has
  | afterEmit | attach | report | edit => exact (or_iff_left id).symm

/-- A file that is reported was not marked, and is marked then. -/
theorem marked_of_reports (reports : Reports p l call) :
    ¬ l.Marked p ∧ (l.after call).Marked p := by
  cases call with
  | diagnose c q id =>
    obtain ⟨rfl, changes⟩ := reports
    have due : ¬ (l.Marked q.normalize ∨ ¬ l.Has q.normalize) := fun idle =>
      changes (by rw [after_diagnose_of_idle idle c id])
    obtain ⟨unmarked, has⟩ := not_or.mp due
    obtain ⟨P, current, there⟩ := not_not.mp has
    refine ⟨unmarked, ?_⟩
    rw [after_diagnose_of_due unmarked current there c id]
    exact OrderedSet.contains_insert_self _ _
  | _ => cases reports

/-! ### Many calls -/

theorem options_run (l : Lifecycle) (calls : List Call) :
    (l.run calls).orchestrator.options = l.orchestrator.options := by
  induction calls generalizing l with
  | nil => rfl
  | cons call calls ih => exact (ih (l.after call)).trans (l.options_after call)

/-- As long as no markers are cleared, the marked files are those that were marked, and those that
were diagnosed since. -/
theorem marked_run (normal : p.IsNormal) (kept : ¬ Happens Clears l calls) :
    (l.run calls).Marked p ↔ l.Marked p ∨ Happens (Diagnoses p) l calls := by
  induction calls generalizing l with
  | nil => exact (or_iff_left id).symm
  | cons call calls ih =>
    obtain ⟨one, more⟩ := not_or.mp kept
    rw [Happens, ← or_assoc, ← marked_after normal one]
    exact ih more

theorem not_reports_of_marked (normal : p.IsNormal) (kept : ¬ Happens Clears l calls)
    (marked : l.Marked p) : ¬ Happens (Reports p) l calls := by
  induction calls generalizing l with
  | nil => exact id
  | cons call calls ih =>
    obtain ⟨one, more⟩ := not_or.mp kept
    rintro (reports | later)
    · exact (marked_of_reports reports).1 marked
    · exact ih more ((marked_after normal one).mpr (.inl marked)) later

/-- As long as no markers are cleared, a file is reported at most once. -/
theorem atMostOnce_reports (normal : p.IsNormal) (kept : ¬ Happens Clears l calls) :
    AtMostOnce (Reports p) l calls := by
  induction calls generalizing l with
  | nil => trivial
  | cons call calls ih =>
    obtain ⟨-, more⟩ := not_or.mp kept
    refine ⟨fun reports => ?_, ih more⟩
    exact not_reports_of_marked normal more (marked_of_reports reports).2

theorem not_marked_of_justCleared {c : Collaborators} {o : BuildOptions} {h : Host}
    {sessions : Nat → Session} (cleared : JustCleared (start c o h sessions) calls) :
    ¬ ((start c o h sessions).run calls).Marked p := by
  rcases cleared with rfl | ⟨front, call, rfl, clears⟩
  · exact Bool.false_ne_true
  · rw [run_concat]
    exact not_marked_of_clears clears

/-- Between two times at which markers are cleared, whatever is asked in between and whatever the
collaborators do, a file is marked exactly if it was diagnosed while the current program contained
it. It is reported at most once, by the first of these calls: together as one error and each in its
full form, the diagnostics of its declarations if these are emitted, those of its syntax, and those of
its meaning. Every other call to diagnose it does nothing. -/
theorem diagnosed_once (c₀ : Collaborators) (o : BuildOptions) (h : Host) (sessions : Nat → Session)
    {before since : List Call} (cleared : JustCleared (start c₀ o h sessions) before)
    (kept : ¬ Happens Clears ((start c₀ o h sessions).run before) since) (normal : p.IsNormal) :
    let l := (start c₀ o h sessions).run before
    let l' := l.run since
    (l'.Marked p ↔ Happens (Diagnoses p) l since) ∧
      AtMostOnce (Reports p) l since ∧
      ∀ c q id, q.normalize = p →
        (¬ Happens (Diagnoses p) l since →
          ∀ P, l'.orchestrator.programs.current = some P → P.contains p = true →
            let ds := (if o.compiler.declaration then c.checker.declarationDiagnostics P p else []) ++
              c.checker.syntacticDiagnostics P p ++ c.checker.semanticDiagnostics P p
            l'.after (.diagnose c q id) = { l' with
              orchestrator := { l'.orchestrator with
                diagnosed := OrderedSet.insert l'.orchestrator.diagnosed p }
              sessions := Function.update l'.sessions id (if ds = [] then l'.sessions id
                else { l'.sessions id with
                  errors := (l'.sessions id).errors ++ [Diagnostic.aggregate ds]
                  diagnostics := (l'.sessions id).diagnostics ++ ds }) }) ∧
        (Happens (Diagnoses p) l since ∨ ¬ l'.Has p → l'.after (.diagnose c q id) = l') := by
  intro l l'
  have marked : l'.Marked p ↔ Happens (Diagnoses p) l since :=
    (marked_run normal kept).trans (or_iff_right (not_marked_of_justCleared cleared))
  refine ⟨marked, atMostOnce_reports normal kept, ?_⟩
  rintro c q id rfl
  refine ⟨fun first P current there => ?_, fun idle => ?_⟩
  · have options : l'.orchestrator.options = o := (options_run l since).trans (options_run _ before)
    have due := after_diagnose_of_due (mt marked.mp first) current there c id
    rw [Orchestrator.report_eq, Orchestrator.fileDiagnostics, options] at due
    exact due
  · exact after_diagnose_of_idle (idle.imp_left marked.mpr) c id

/-- A program of one file, with a string that is not closed. -/
def unclosedMain : Program :=
  ⟨[⟨"/p/main.ts"⟩], OrderedMap.empty.insert ⟨"/p/main.ts"⟩ "let a = 'x", .empty⟩

/-- Collaborators whose checker creates no other program. -/
def creatingUnclosed : Collaborators :=
  ⟨{ Scanning.checker with createProgram := fun _ _ _ h => (.ok unclosedMain, h) },
    Factory.generator, .ofFiles⟩

/-- Asked about under two names and on two sessions, the file is reported on the first one only. -/
theorem diagnosed_once_unclosed :
    let l := start creatingUnclosed Orchestrator.plainOptions (.ofFiles (.memory .empty) ⟨"/p"⟩)
      fun _ => .fresh
    let l' := l.run [.onInvalid, .diagnose creatingUnclosed ⟨"/p/lib/../main.ts"⟩ 0,
      .diagnose creatingUnclosed ⟨"/p/main.ts"⟩ 1]
    (l'.sessions 0).errors = ["/p/main.ts (1,9): unterminated string literal"] ∧
      (l'.sessions 1).errors = [] := by
  intro l l'
  have cleared : JustCleared l [.onInvalid] := .inr ⟨[], .onInvalid, rfl, trivial⟩
  have normal : Path.IsNormal ⟨"/p/main.ts"⟩ := by decide +kernel
  have there : unclosedMain.contains ⟨"/p/main.ts"⟩ = true := by decide +kernel
  have spelling : Path.normalize ⟨"/p/lib/../main.ts"⟩ = ⟨"/p/main.ts"⟩ := by decide +kernel
  have nothing : ¬ Happens Clears (l.run [.onInvalid]) [] := id
  obtain ⟨-, -, once⟩ := diagnosed_once creatingUnclosed _ _ _ cleared nothing normal
  have first := (once creatingUnclosed _ 0 spelling).1 id unclosedMain rfl there
  have kept : ¬ Happens Clears (l.run [.onInvalid])
      [.diagnose creatingUnclosed ⟨"/p/lib/../main.ts"⟩ 0] := by
    rintro (clears | clears)
    · exact clears
    · exact clears
  obtain ⟨-, -, again⟩ := diagnosed_once creatingUnclosed _ _ _ cleared kept normal
  have second := (again creatingUnclosed ⟨"/p/main.ts"⟩ 1 normal).2
    (.inl (.inl ⟨spelling, unclosedMain, rfl, there⟩))
  have same : l' = _ := second.trans first
  have found : Orchestrator.fileDiagnostics creatingUnclosed Orchestrator.plainOptions unclosedMain
      ⟨"/p/main.ts"⟩ ≠ [] := by decide +kernel
  have told : Diagnostic.aggregate (Orchestrator.fileDiagnostics creatingUnclosed
      Orchestrator.plainOptions unclosedMain ⟨"/p/main.ts"⟩) =
        "/p/main.ts (1,9): unterminated string literal" := by decide +kernel
  rw [same]
  refine ⟨?_, rfl⟩
  simp only [Function.update_self]
  exact (congrArg Session.errors (if_neg found)).trans (congrArg (fun e => [e]) told)

end Lifecycle

end Precompile
