import Precompile.CommandLine.Watch
import Precompile.Proofs.Build.CleanProgram
import Precompile.Proofs.Sources.Snapshot

/-!
# Which edits a watcher notices

Files are edited between any two steps of a watcher and between any two reads in a cycle. An edit is
timely if no text is held for the file, so that it is still to be read, or if the watcher will look
at the file or have it invalidated before it takes its next snapshot (`Watcher.Awaits`). Where all
edits of a file are timely, a poll that finds nothing changed tells the truth about it
(`Watcher.served_of_quiet_poll`). An edit that comes after the file was read and before the snapshot
is taken is lost (`Watcher.edit_before_snapshot_is_lost`).
-/

namespace Precompile

namespace SourceCache

variable {c : SourceCache} {p : Path}

/-- No text that was read is held for the path. -/
def Unread (p : Path) (c : SourceCache) : Prop :=
  ∀ content, c.entries.get? p.normalize ≠ some ⟨content, .disk⟩

/-- A text that was read and is held for the path is what the file holds now. -/
def Fresh (p : Path) (c : SourceCache) : Prop :=
  ∀ content, c.entries.get? p.normalize = some ⟨content, .disk⟩ →
    c.files.read p.normalize = .ok content

theorem Unread.fresh (unread : c.Unread p) : c.Fresh p :=
  fun content held => absurd held (unread content)

theorem Fresh.retain (fresh : c.Fresh p) (q : Path) : (c.retain q).Fresh p := by
  intro content held
  rw [files_retain]
  cases hentry : c.entries.get? p.normalize with
  | some e =>
    rw [get?_retain_of_some hentry] at held
    exact fresh content (hentry.trans held)
  | none =>
    -- a text that comes to be held was read just now
    rw [get?_retain_of_none hentry] at held
    split at held
    · cases hread : c.files.read p.normalize with
      | error e => simp [hread, Except.toOption] at held
      | ok text =>
        simp only [hread, Except.toOption, Option.map_some, Option.some.injEq,
          CacheEntry.mk.injEq, and_true] at held
        rw [held]
    · cases held

theorem Fresh.write (fresh : c.Fresh p) (q : Path) (content : String) (emit : Bool) :
    (c.write q content emit).Fresh p := by
  intro text held
  rw [get?_write] at held
  split at held
  · cases held
  · exact fresh text held

theorem Fresh.drop (fresh : c.Fresh p) (q : Path) : (c.drop q).Fresh p := by
  intro content held
  have dropped := c.get?_dropAll [q] p.normalize
  rw [List.foldl_cons, List.foldl_nil, held] at dropped
  split at dropped
  · cases dropped
  · exact fresh content dropped.symm

theorem Fresh.edit (fresh : c.Fresh p) {q : Path} {files : FileSystem}
    (edit : FileSystem.EditedAt q c.files files) (unread : q.normalize = p.normalize → c.Unread p) :
    Fresh p { c with files } := by
  intro content held
  by_cases same : q.normalize = p.normalize
  · exact absurd held (unread same content)
  · exact edit _ _ (Path.isNormal_normalize p) (Ne.symm same) (fresh content held)

end SourceCache

namespace Host

variable {h h' : Host} {p : Path}

/-- Uses of a host, with edits in between: the file at `p` is edited only while no text that was
read is held for it. -/
inductive UsesAmid (p : Path) (h : Host) : Host → Prop where
  | refl : UsesAmid p h h
  | use {h' h'' : Host} : UsesAmid p h h' → h'.Uses h'' → UsesAmid p h h''
  | edit {h' : Host} (q : Path) (files : FileSystem) : UsesAmid p h h' →
      FileSystem.EditedAt q h'.cache.files files →
      (q.normalize = p.normalize → h'.cache.Unread p) →
      UsesAmid p h (h'.mapFiles fun _ => files)

theorem Uses.fresh (use : h.Uses h') (fresh : h.cache.Fresh p) : h'.cache.Fresh p :=
  use.cache_induction (fun _ q hc => hc.retain q)
    (fun _ q content emit hc => hc.write q content emit) (fun _ q hc => hc.drop q) fresh

theorem UsesAmid.fresh (use : h.UsesAmid p h') (fresh : h.cache.Fresh p) : h'.cache.Fresh p := by
  induction use with
  | refl => exact fresh
  | use _ use ih => exact use.fresh ih
  | edit q files _ edit unread ih => exact ih.edit edit unread

end Host

namespace Collaborators

variable {c : Collaborators} {p : Path}

/-- Careful collaborators, with edits of files between any two things that they do. -/
structure CarefulAmid (p : Path) (c : Collaborators) : Prop where
  createProgram : ∀ roots options previous (h : Host),
    h.UsesAmid p (c.checker.createProgram roots options previous h).2
  generate : ∀ o P (h : Host), h.UsesAmid p (c.generator.generate o c.resources P h).2
  listAllRoutes : ∀ P entry (h : Host), h.UsesAmid p (c.generator.listAllRoutes P entry h).2

theorem Careful.amid (careful : c.Careful) (p : Path) : c.CarefulAmid p where
  createProgram := fun _ _ _ h => .use .refl (careful.createProgram _ _ _ h)
  generate := fun _ _ h => .use .refl (careful.generate _ _ h)
  listAllRoutes := fun _ _ h => .use .refl (careful.listAllRoutes _ _ h)

theorem CarefulAmid.keep (careful : c.CarefulAmid p) (o : BuildOptions) :
    c.Keep o fun h => h.cache.Fresh p where
  createProgram := fun _ _ _ h fresh => (careful.createProgram _ _ _ h).fresh fresh
  generate := fun _ _ h fresh => (careful.generate _ _ h).fresh fresh
  listAllRoutes := fun _ _ h fresh => (careful.listAllRoutes _ _ h).fresh fresh
  handOn := fun _ _ fresh => fresh

end Collaborators

namespace Orchestrator

variable {c : Collaborators} {p : Path}

/-- Nothing that was read is out of date once a build is set up. -/
theorem fresh_ofHost (careful : c.CarefulAmid p) (options : BuildOptions) (files : FileSystem)
    (base : Path) : (ofHost c options (.ofFiles files base)).host.cache.Fresh p := by
  have start : (Host.ofFiles files base).cache.Fresh p := nofun
  have seeded := (uses_writeOverrides _ options.overrides).fresh start
  have created := (careful.createProgram options.roots options.compiler none _).fresh seeded
  have cached : ((c.checker.createProgram options.roots options.compiler none
      (writeOverrides (.ofFiles files base) options.overrides)).2.mapCache
        SourceCache.enableCaching).cache.Fresh p := created
  obtain ⟨ps, hps⟩ := exists_host_ofHost c options (.ofFiles files base)
  rw [hps]
  exact (Host.uses_retainAll _ ps).fresh cached

/-- Once the reported paths were invalidated, nothing that was read is out of date, if nothing was
before or the path was reported. -/
theorem fresh_drainedHost {o : Orchestrator} (known : o.host.cache.Fresh p ∨ o.Reported p) :
    o.drainedHost.cache.Fresh p := by
  rcases known with fresh | ⟨q, hq, same⟩
  · exact o.uses_drainedHost.fresh fresh
  · have gone := o.contains_drainedHost hq
    rw [same] at gone
    intro content held
    rw [OrderedMap.get?_eq_none_iff.mpr gone] at held
    cases held

end Orchestrator

namespace CommandLine.Watcher

open Orchestrator (Reported)

variable {p : Path} {c : Collaborators} {w : Watcher}

def cache (w : Watcher) : SourceCache := w.orchestrator.host.cache

/-- Before the next snapshot is taken, the watcher will look at the path or have it invalidated. -/
def Awaits (p : Path) (w : Watcher) : Prop :=
  match w.stage with
  | .polling => p ∈ watchedPaths w.orchestrator
  | .comparing seen =>
    let changes := w.snapshot.diff seen
    if changes.isEmpty then p ∈ watchedPaths w.orchestrator else p.isAmong changes.dirty = true
  | .queueing dirty => p.isAmong dirty = true
  | .notifying | .rebuilding _ .invalidating => w.orchestrator.Reported p
  | _ => False

/-- An edit of the path is not lost at this point. -/
def Timely (p : Path) (w : Watcher) : Prop := w.cache.Unread p ∨ w.Awaits p

/-- A watcher at work, with good collaborators at each step and edits where they are allowed. -/
inductive Watching (Good : Collaborators → Prop) (Allowed : Watcher → Path → Prop) :
    Watcher → Prop where
  | start {c : Collaborators} (options : BuildOptions) (files : FileSystem) (base : Path) : Good c →
      Watching Good Allowed (ofOrchestrator (.ofHost c options (.ofFiles files base)))
  | step {c : Collaborators} {w : Watcher} (style : Style) : Good c → Watching Good Allowed w →
      Watching Good Allowed (w.step c style).1
  | edit {w : Watcher} (q : Path) (files : FileSystem) : Watching Good Allowed w →
      FileSystem.EditedAt q w.cache.files files → Allowed w q →
      Watching Good Allowed (w.mapFiles fun _ => files)

/-! ### What the snapshot is worth -/

/-- The watcher is between two snapshots and no cycle is on its way. -/
def AtRest : WatchStage → Prop
  | .polling | .comparing _ => True
  | _ => False

/-- What holds of a path at every point of a watcher. -/
structure Tracks (p : Path) (w : Watcher) : Prop where
  -- The snapshot shows what is held, not just what the file held when it was taken.
  recorded : AtRest w.stage → p ∈ watchedPaths w.orchestrator → ∀ content,
    w.cache.entries.get? p.normalize = some ⟨content, .disk⟩ →
      w.snapshot.get? p = some (.ofText content)
  noticed : w.cache.Fresh p ∨ w.Awaits p

theorem eq_of_mem_watchedPaths {o : Orchestrator} {q : Path} (hp : p ∈ watchedPaths o)
    (hq : q ∈ watchedPaths o) (same : q.Same p) : q = p := by
  obtain ⟨_, hp⟩ := OrderedMap.mem_keys.mp hp
  obtain ⟨_, hq⟩ := OrderedMap.mem_keys.mp hq
  exact congrArg Prod.fst (OrderedMap.eq_of_key_eq hq hp same)

/-- A look shows what each watched file holds. -/
theorem get?_look {o : Orchestrator} (watched : p ∈ watchedPaths o) :
    (look o).get? p = Snapshot.fingerprint? o.host.cache.files p :=
  Snapshot.get?_capture watched fun _ hq same => eq_of_mem_watchedPaths watched hq same

theorem reported_queueAll_of_isAmong (o : Orchestrator) {dirty : List Path}
    (among : p.isAmong dirty = true) : (o.queueAll dirty).Reported p := by
  obtain ⟨q, hq, same⟩ := List.any_eq_true.mp among
  obtain ⟨r, hr, hrq⟩ := o.reported_queueAll hq
  exact ⟨r, hr, hrq.trans (Path.Same.normalize_eq (of_decide_eq_true same))⟩

theorem Tracks.poll {o : Orchestrator} {snapshot : Snapshot} {cycles : Nat} {succeeded : Bool}
    (normal : p.IsNormal) (tracks : Tracks p ⟨o, snapshot, cycles, succeeded, .polling⟩) :
    Tracks p ⟨o, snapshot, cycles, succeeded, .comparing (look o)⟩ := by
  refine ⟨fun _ => tracks.recorded trivial, ?_⟩
  by_cases fresh : o.host.cache.Fresh p
  · exact .inl fresh
  · -- the file is not as it is held, so the snapshot does not show it as it is now
    have watched : p ∈ watchedPaths o := tracks.noticed.resolve_left fresh
    simp only [SourceCache.Fresh, not_forall] at fresh
    obtain ⟨content, held, differs⟩ := fresh
    have recorded : snapshot.get? p = some (.ofText content) :=
      tracks.recorded trivial watched content held
    have differ : snapshot.get? p ≠ (look o).get? p := by
      intro same
      rw [recorded, get?_look watched] at same
      rw [show p.normalize = p from normal] at differs
      exact differs (Snapshot.fingerprint?_eq_some_iff.mp same.symm)
    right
    show if (snapshot.diff (look o)).isEmpty = true then _ else _
    rw [if_neg fun quiet => differ (Snapshot.get?_eq_of_isEmpty quiet p)]
    exact Snapshot.isAmong_dirty differ

theorem Tracks.compare {o : Orchestrator} {snapshot seen : Snapshot} {cycles : Nat}
    {succeeded : Bool} (tracks : Tracks p ⟨o, snapshot, cycles, succeeded, .comparing seen⟩) :
    Tracks p ⟨o, snapshot, cycles, succeeded, if (snapshot.diff seen).isEmpty = true then .polling
      else .queueing (snapshot.diff seen).dirty⟩ := by
  have noticed : o.host.cache.Fresh p ∨ if (snapshot.diff seen).isEmpty = true then
    p ∈ watchedPaths o else p.isAmong (snapshot.diff seen).dirty = true := tracks.noticed
  by_cases quiet : (snapshot.diff seen).isEmpty = true
  · rw [if_pos quiet] at noticed ⊢
    exact ⟨fun _ => tracks.recorded trivial, noticed⟩
  · rw [if_neg quiet] at noticed ⊢
    exact ⟨False.elim, noticed⟩

/-- A step of a cycle leaves nothing out of date that was read. -/
theorem fresh_cycle_step (careful : c.CarefulAmid p) {o : Orchestrator} {s : Session}
    {stage : Stage} (known : o.host.cache.Fresh p ∨ (stage = .invalidating ∧ o.Reported p)) :
    (Cycle.step c ⟨o, s, stage⟩).orchestrator.host.cache.Fresh p := by
  by_cases hstage : stage = .invalidating
  · subst hstage
    exact Orchestrator.fresh_drainedHost (known.imp id And.right)
  · have fresh := known.resolve_right fun h => hstage h.1
    exact (Cycle.steps_step (c := c) ⟨o, s, stage⟩).host (careful.keep o.options)
      (fun h => absurd h hstage) (fun _ => fresh) fresh

theorem Tracks.rebuild (careful : c.CarefulAmid p) {style : Style} {o : Orchestrator}
    {snapshot : Snapshot} {cycles : Nat} {succeeded : Bool} {s : Session} {stage : Stage}
    (tracks : Tracks p ⟨o, snapshot, cycles, succeeded, .rebuilding s stage⟩) :
    Tracks p (step c style ⟨o, snapshot, cycles, succeeded, .rebuilding s stage⟩).1 := by
  have known : o.host.cache.Fresh p ∨ (stage = .invalidating ∧ o.Reported p) := by
    refine tracks.noticed.imp id fun awaits => ?_
    cases stage with
    | invalidating => exact ⟨rfl, awaits⟩
    | _ => cases awaits
  cases hover : stage.outcome? with
  | none =>
    simp only [step, hover]
    exact ⟨False.elim, .inl (fresh_cycle_step careful known)⟩
  | some outcome =>
    have fresh := known.resolve_right fun h => by simp [h.1, Stage.outcome?] at hover
    simp only [step, hover]
    exact ⟨False.elim, .inl fresh⟩

/-- The snapshot is taken while nothing that was read is out of date. -/
theorem Tracks.record {o : Orchestrator} {snapshot : Snapshot} {cycles : Nat} {succeeded : Bool}
    (normal : p.IsNormal) (tracks : Tracks p ⟨o, snapshot, cycles, succeeded, .recording⟩) :
    Tracks p ⟨o, look o, cycles, succeeded, .polling⟩ := by
  have fresh : o.host.cache.Fresh p := tracks.noticed.resolve_right id
  refine ⟨fun _ watched content held => ?_, .inl fresh⟩
  have read := fresh content held
  rw [show p.normalize = p from normal] at read
  exact (get?_look watched).trans (Snapshot.fingerprint?_eq_some_iff.mpr read)

theorem Tracks.step (normal : p.IsNormal) (careful : c.CarefulAmid p) (style : Style)
    (tracks : Tracks p w) : Tracks p (w.step c style).1 := by
  obtain ⟨o, snapshot, cycles, succeeded, stage⟩ := w
  cases stage with
  | polling => exact tracks.poll normal
  | comparing seen => exact tracks.compare
  | queueing dirty =>
    exact ⟨False.elim, tracks.noticed.imp id fun among => reported_queueAll_of_isAmong o among⟩
  | notifying => exact ⟨False.elim, tracks.noticed⟩
  | rebuilding s stage => exact tracks.rebuild careful
  | recording => exact tracks.record normal

theorem Tracks.edit (tracks : Tracks p w) {q : Path} {files : FileSystem}
    (edit : FileSystem.EditedAt q w.cache.files files)
    (timely : q.normalize = p.normalize → w.Timely p) :
    Tracks p (w.mapFiles fun _ => files) := by
  refine ⟨tracks.recorded, ?_⟩
  by_cases same : q.normalize = p.normalize
  · exact (timely same).imp SourceCache.Unread.fresh id
  · exact tracks.noticed.imp (fun fresh => fresh.edit edit fun h => absurd h same) id

theorem Watching.tracks (normal : p.IsNormal)
    (watching : Watching (Collaborators.CarefulAmid p)
      (fun w q => q.normalize = p.normalize → w.Timely p) w) : Tracks p w := by
  induction watching with
  | start options files base careful =>
    exact ⟨False.elim, .inl (Orchestrator.fresh_ofHost careful options files base)⟩
  | step style careful _ ih => exact ih.step normal careful style
  | edit q files _ edit timely ih => exact ih.edit edit timely

/-- Where all edits of a file are timely, whatever else is edited, a poll that finds nothing changed
finds the file as it is served, unless a text was written over it. -/
theorem served_of_quiet_poll (normal : p.IsNormal)
    (watching : Watching (Collaborators.CarefulAmid p)
      (fun w q => q.normalize = p.normalize → w.Timely p) w)
    (polling : w.stage.isPolling = true)
    (quiet : (w.snapshot.diff (look w.orchestrator)).isEmpty = true)
    (watched : p ∈ watchedPaths w.orchestrator)
    (unwritten : (w.cache.entries.get? p).any CacheEntry.isWritten = false) :
    w.cache.serve p = w.cache.files.read p := by
  have tracks := watching.tracks normal
  have rest : AtRest w.stage := by
    cases hstage : w.stage with
    | polling => trivial
    | _ => simp [hstage, WatchStage.isPolling] at polling
  have path : p.normalize = p := normal
  unfold SourceCache.serve
  rw [path]
  cases held : w.cache.entries.get? p with
  | none => rfl
  | some e =>
    obtain ⟨content, origin⟩ := e
    cases origin with
    | written emit => simp [held, CacheEntry.isWritten] at unwritten
    | disk =>
      have recorded := tracks.recorded rest watched content (by rw [path, held])
      rw [Snapshot.get?_eq_of_isEmpty quiet p, get?_look watched] at recorded
      exact (Snapshot.fingerprint?_eq_some_iff.mp recorded).symm

/-! ### An edit in time, and one that is lost -/

/-- A watcher after so many steps. -/
def advance (c : Collaborators) (style : Style) (w : Watcher) : Nat → Watcher
  | 0 => w
  | n + 1 => (step c style (advance c style w n)).1

theorem Watching.advance {Good : Collaborators → Prop} {Allowed : Watcher → Path → Prop}
    (good : Good c) (style : Style) (watching : Watching Good Allowed w) (n : Nat) :
    Watching Good Allowed (w.advance c style n) := by
  induction n with
  | zero => exact watching
  | succ n ih => exact .step style good ih

/-- A watcher with careful collaborators does not edit files. -/
theorem files_advance (careful : c.Careful) (style : Style) (w : Watcher) (n : Nat) :
    (w.advance c style n).cache.files = w.cache.files := by
  have files_step : ∀ w : Watcher, (w.step c style).1.cache.files = w.cache.files := by
    rintro ⟨o, snapshot, cycles, succeeded, stage⟩
    cases stage with
    | rebuilding s stage =>
      have keep := careful.keep o.options (Q := fun h => h.cache.files = o.host.cache.files)
        (fun _ _ use files => use.files_eq.trans files) (fun _ _ files => files)
      cases hover : stage.outcome? with
      | none =>
        simp only [step, hover]
        exact (Cycle.steps_step (c := c) ⟨o, s, stage⟩).host keep
          (fun _ => o.uses_drainedHost.files_eq) (fun _ => rfl) rfl
      | some outcome =>
        simp only [step, hover]
        rfl
    | _ => rfl
  induction n with
  | zero => rfl
  | succ n ih => exact (files_step _).trans ih

def quietStyle : Style := ⟨true, false, false⟩

def emptyMain : MemoryFiles := MemoryFiles.empty.insert ⟨"/p/main.ts"⟩ ""

def filledMain : MemoryFiles := emptyMain.insert ⟨"/p/main.ts"⟩ "const a = 1;"

/-- A watcher of one file after so many steps. The tenth of them takes the first snapshot. -/
def ofMain (n : Nat) : Watcher :=
  advance (.scanning .ofFiles) quietStyle (ofOrchestrator (.ofHost (.scanning .ofFiles)
    Orchestrator.plainOptions (.ofFiles (.memory emptyMain) Orchestrator.plainOptions.basePath))) n

/-- The watcher with the file edited after so many steps, and then after some more. -/
def ofEditedMain (n m : Nat) : Watcher :=
  advance (.scanning .ofFiles) quietStyle ((ofMain n).mapFiles fun _ => .memory filledMain) m

theorem watching_ofEditedMain (Good : Collaborators → Prop) (Allowed : Watcher → Path → Prop)
    (good : Good (.scanning .ofFiles)) (n m : Nat) (allowed : Allowed (ofMain n) ⟨"/p/main.ts"⟩) :
    Watching Good Allowed (ofEditedMain n m) := by
  have started : Watching Good Allowed (ofMain n) :=
    .advance good quietStyle (.start _ (.memory emptyMain) _ good) n
  have files : (ofMain n).cache.files = .memory emptyMain :=
    (files_advance (Collaborators.careful_scanning _) quietStyle _ n).trans
      (Orchestrator.files_ofHost .ofFiles Orchestrator.plainOptions _ rfl)
  have edit : FileSystem.EditedAt ⟨"/p/main.ts"⟩ (ofMain n).cache.files (.memory filledMain) := by
    rw [files]
    exact emptyMain.editedAt_insert ⟨"/p/main.ts"⟩ "const a = 1;"
  exact .advance good quietStyle (.edit _ _ started edit allowed) m

/-- The file is edited while the watcher waits: the next poll notices it, and once the watcher finds
nothing changed any more, the new text is served. -/
theorem edit_at_poll_is_served :
    (ofEditedMain 10 14).cache.serve ⟨"/p/main.ts"⟩ =
      (ofEditedMain 10 14).cache.files.read ⟨"/p/main.ts"⟩ ∧
    ((ofEditedMain 10 14).cache.serve ⟨"/p/main.ts"⟩).toOption = some "const a = 1;" := by
  have timely : Timely ⟨"/p/main.ts"⟩ (ofMain 10) := by
    right
    have polling : (ofMain 10).stage.isPolling = true := by decide +kernel
    have watched : (⟨"/p/main.ts"⟩ : Path) ∈ watchedPaths (ofMain 10).orchestrator := by
      decide +kernel
    unfold Awaits
    cases hstage : (ofMain 10).stage with
    | polling => exact watched
    | _ => simp [hstage, WatchStage.isPolling] at polling
  refine ⟨served_of_quiet_poll (by decide +kernel) (watching_ofEditedMain _ _
    ((Collaborators.careful_scanning _).amid _) 10 14 fun _ => timely) ?_ ?_ ?_ ?_, ?_⟩
  · decide +kernel
  · decide +kernel
  · decide +kernel
  · decide +kernel
  · decide +kernel

/-- The file is edited after the cycle has read it and before the snapshot is taken: the watcher
then finds nothing changed, and the old text is served. -/
theorem edit_before_snapshot_is_lost :
    ∃ w, Watching (fun c => c = .scanning .ofFiles) (fun _ _ => True) w ∧
      w.stage.isPolling = true ∧ (w.snapshot.diff (look w.orchestrator)).isEmpty = true ∧
      ∃ p, p.IsNormal ∧ p ∈ watchedPaths w.orchestrator ∧
        (w.cache.entries.get? p).any CacheEntry.isWritten = false ∧
        w.cache.serve p ≠ w.cache.files.read p := by
  have watching := watching_ofEditedMain (fun c => c = .scanning .ofFiles) (fun _ _ => True) rfl 9 1
    trivial
  refine ⟨ofEditedMain 9 1, watching, ?_, ?_, ⟨"/p/main.ts"⟩, ?_, ?_, ?_, ?_⟩
  · decide +kernel
  · decide +kernel
  · decide +kernel
  · decide +kernel
  · decide +kernel
  · intro same
    have served : ((ofEditedMain 9 1).cache.serve ⟨"/p/main.ts"⟩).toOption = some "" := by
      decide +kernel
    have there : ((ofEditedMain 9 1).cache.files.read ⟨"/p/main.ts"⟩).toOption =
      some "const a = 1;" := by decide +kernel
    rw [same, there] at served
    simp at served

end CommandLine.Watcher

end Precompile
