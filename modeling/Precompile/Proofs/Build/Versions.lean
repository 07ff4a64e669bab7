import Precompile.Proofs.Build.LeftOver
import Precompile.Proofs.Scanning.Closure

/-!
# One version of every source

Files are edited at any moment: between two steps of a cycle and between two reads of one step. A
cycle creates a program after generation, and the generator worked from another one, which may be
older than the cycle, and from texts that it read itself. Once caching is on, a text that was read
stays until its path is written, invalidated or retired, so both have the same text of a file that
the generator neither wrote nor retired (`Orchestrator.checked_text_eq`). Before that nothing holds
a text: a program that was created while the orchestrator was set up, and that the first cycle
keeps, is one version behind where a file was edited since
(`Orchestrator.edit_after_setting_up_is_missed`).
-/

namespace Precompile

namespace SourceCache

variable {edits moves : Path → Prop} {c c' : SourceCache} {texts : List (Path × String)} {p : Path}
  {t : String}

/-! ### Uses of a cache amid edits -/

/-- What becomes of a cache that is used while files are edited. Edited are only paths in `edits`,
written and dropped only paths in `moves`, and `texts` lists what was read on the way. -/
inductive Amid (edits moves : Path → Prop) (c : SourceCache) :
    List (Path × String) → SourceCache → Prop where
  | refl : Amid edits moves c [] c
  | read {texts : List (Path × String)} {c' : SourceCache} (q : Path) :
      Amid edits moves c texts c' →
      Amid edits moves c
        (((c'.serve q).toOption.map fun content => (q.normalize, content)).toList ++ texts)
        (c'.retain q)
  | write {texts : List (Path × String)} {c' : SourceCache} (q : Path) (content : String)
      (emit : Bool) : Amid edits moves c texts c' → (∀ p, q.normalize.Same p → moves p) →
      Amid edits moves c texts (c'.write q content emit)
  | drop {texts : List (Path × String)} {c' : SourceCache} (q : Path) :
      Amid edits moves c texts c' → (∀ p, q.Same p → moves p) →
      Amid edits moves c texts (c'.drop q)
  | edit {texts : List (Path × String)} {c' : SourceCache} (q : Path) (files : FileSystem) :
      Amid edits moves c texts c' → edits q.normalize → FileSystem.EditedAt q c'.files files →
      Amid edits moves c texts { c' with files }
  -- The record of changes, which plays no part in what is served.
  | mark {texts : List (Path × String)} {c' : SourceCache} (changed : PathSet) :
      Amid edits moves c texts c' → Amid edits moves c texts { c' with changed }

/-- The cache holds a text at a normal path. -/
def Holds (c : SourceCache) (p : Path) (t : String) : Prop :=
  ∃ origin, c.entries.get? p = some ⟨t, origin⟩

theorem serve_of_normal (c : SourceCache) (normal : p.IsNormal) : c.serve p =
    match c.entries.get? p with
    | some e => .ok e.content
    | none => c.files.read p := by
  exact congrArg (fun q => match c.entries.get? q with
    | some e => Except.ok e.content
    | none => c.files.read q) (normal : p.normalize = p)

theorem Holds.serve (holds : c.Holds p t) (normal : p.IsNormal) : c.serve p = .ok t := by
  obtain ⟨origin, held⟩ := holds
  rw [c.serve_of_normal normal, held]

theorem Holds.retain (holds : c.Holds p t) (normal : p.IsNormal) (q : Path) :
    (c.retain q).Holds p t := by
  obtain ⟨origin, held⟩ := holds
  rw [← show p.normalize = p from normal] at held ⊢
  exact ⟨origin, get?_retain_of_some held q⟩

/-- Once caching is on, a text that is read is held. -/
theorem holds_retain (caching : c.caching = true) (served : c.serve p = .ok t) :
    (c.retain p).Holds p.normalize t := by
  unfold serve at served
  cases held : c.entries.get? p.normalize with
  | some e =>
    rw [held] at served
    cases served
    rw [retain_of_some held]
    exact ⟨e.origin, held⟩
  | none =>
    rw [held] at served
    have read : c.files.read p.normalize = .ok t := served
    refine ⟨.disk, ?_⟩
    rw [get?_retain_of_none held, if_pos ⟨rfl, caching⟩, read]
    rfl

theorem get?_drop (c : SourceCache) (q p : Path) :
    (c.drop q).entries.get? p = if q.Same p then none else c.entries.get? p :=
  c.entries.get?_erase q p

/-- What one read adds to what was read. -/
theorem mem_read_iff {q : Path} :
    (p, t) ∈ ((c.serve q).toOption.map fun content => (q.normalize, content)).toList ↔
      q.normalize = p ∧ c.serve q = .ok t := by
  cases c.serve q <;> simp [Except.toOption, eq_comm]

namespace Amid

theorem unmoved (c : SourceCache) : c.Amid edits (fun _ => False) [] c := .refl

theorem mono {moves' : Path → Prop} (amid : c.Amid edits moves texts c')
    (more : ∀ p, moves p → moves' p) : c.Amid edits moves' texts c' := by
  induction amid with
  | refl => exact .refl
  | read q _ ih => exact ih.read q
  | write q content emit _ moved ih => exact ih.write q content emit fun p h => more p (moved p h)
  | drop q _ moved ih => exact ih.drop q fun p h => more p (moved p h)
  | edit q files _ edited edit ih => exact ih.edit q files edited edit
  | mark changed _ ih => exact ih.mark changed

theorem trans {c'' : SourceCache} {texts' : List (Path × String)}
    (first : c.Amid edits moves texts c') (second : c'.Amid edits moves texts' c'') :
    c.Amid edits moves (texts' ++ texts) c'' := by
  induction second with
  | refl => exact first
  | read q _ ih =>
    rw [List.append_assoc]
    exact ih.read q
  | write q content emit _ moved ih => exact ih.write q content emit moved
  | drop q _ moved ih => exact ih.drop q moved
  | edit q files _ edited edit ih => exact ih.edit q files edited edit
  | mark changed _ ih => exact ih.mark changed

theorem caching_eq (amid : c.Amid edits moves texts c') : c'.caching = c.caching := by
  induction amid with
  | refl => rfl
  | read q _ ih => exact (caching_retain _ q).trans ih
  | write _ _ _ _ _ ih => exact ih
  | drop _ _ _ ih => exact ih
  | edit _ _ _ _ _ ih => exact ih
  | mark _ _ ih => exact ih

theorem isNormal_text (amid : c.Amid edits moves texts c') (read : (p, t) ∈ texts) :
    p.IsNormal := by
  induction amid with
  | refl => cases read
  | read q _ ih =>
    rcases List.mem_append.mp read with new | old
    · obtain ⟨rfl, -⟩ := mem_read_iff.mp new
      exact Path.isNormal_normalize q
    · exact ih old
  | write _ _ _ _ _ ih => exact ih read
  | drop _ _ _ ih => exact ih read
  | edit _ _ _ _ _ ih => exact ih read
  | mark _ _ ih => exact ih read

/-- The revision never falls, and where it stays nothing was written or dropped. -/
theorem revision (amid : c.Amid edits moves texts c') : c.revision ≤ c'.revision ∧
    (c'.revision = c.revision → c.Amid edits (fun _ => False) texts c') := by
  induction amid with
  | refl => exact ⟨Nat.le_refl _, fun _ => .refl⟩
  | @read texts c' q _ ih =>
    rw [revision_retain]
    exact ⟨ih.1, fun same => (ih.2 same).read q⟩
  | @write texts c' q content emit _ _ ih =>
    have moved : (c'.write q content emit).revision = c'.revision + 1 := rfl
    exact ⟨by omega, fun same => by omega⟩
  | @drop texts c' q _ _ ih =>
    have moved : (c'.drop q).revision = c'.revision + 1 := rfl
    exact ⟨by omega, fun same => by omega⟩
  | edit q files _ edited edit ih => exact ⟨ih.1, fun same => (ih.2 same).edit q files edited edit⟩
  | mark changed _ ih => exact ⟨ih.1, fun same => (ih.2 same).mark changed⟩

theorem holds (amid : c.Amid edits moves texts c') (normal : p.IsNormal) (still : ¬ moves p)
    (holds : c.Holds p t) : c'.Holds p t := by
  induction amid with
  | refl => exact holds
  | read q _ ih => exact ih.retain normal q
  | write q content emit _ moved ih =>
    obtain ⟨origin, held⟩ := ih
    refine ⟨origin, ?_⟩
    rw [get?_write, if_neg fun same => still (moved p same), held]
  | drop q _ moved ih =>
    obtain ⟨origin, held⟩ := ih
    refine ⟨origin, ?_⟩
    rw [get?_drop, if_neg fun same => still (moved p same), held]
  | edit _ _ _ _ _ ih => exact ih
  | mark _ _ ih => exact ih

/-- What is served at a path is served as long as the path is not edited, written or dropped. -/
theorem serves (amid : c.Amid edits moves texts c') (normal : p.IsNormal) (still : ¬ moves p)
    (unedited : ¬ edits p) (served : c.serve p = .ok t) : c'.serve p = .ok t := by
  induction amid with
  | refl => exact served
  | read q _ ih =>
    rw [serve_retain]
    exact ih
  | write q content emit _ moved ih =>
    rw [serve_of_normal _ normal] at ih ⊢
    rw [get?_write, if_neg fun same => still (moved p same)]
    exact ih
  | drop q _ moved ih =>
    rw [serve_of_normal _ normal] at ih ⊢
    rw [get?_drop, if_neg fun same => still (moved p same)]
    exact ih
  | @edit texts c' q files _ edited edit ih =>
    have apart : p ≠ q.normalize := fun same => unedited (same ▸ edited)
    rw [serve_of_normal _ normal] at ih ⊢
    cases held : c'.entries.get? p with
    | some e =>
      rw [held] at ih
      exact ih
    | none =>
      rw [held] at ih
      exact edit p t normal apart ih
  | mark _ _ ih => exact ih

/-- A text that was read is held from then on, once caching is on. -/
theorem holds_text (amid : c.Amid edits moves texts c') (caching : c.caching = true)
    (still : ¬ moves p) (read : (p, t) ∈ texts) : c'.Holds p t := by
  induction amid with
  | refl => cases read
  | @read texts c' q amid ih =>
    rcases List.mem_append.mp read with new | old
    · obtain ⟨rfl, served⟩ := mem_read_iff.mp new
      exact holds_retain (amid.caching_eq.trans caching) served
    · exact (ih old).retain (amid.isNormal_text old) q
  | @write texts c' q content emit amid moved ih =>
    have once : c'.Amid edits moves [] _ := Amid.refl.write q content emit moved
    exact once.holds (amid.isNormal_text read) still (ih read)
  | @drop texts c' q amid moved ih =>
    have once : c'.Amid edits moves [] _ := Amid.refl.drop q moved
    exact once.holds (amid.isNormal_text read) still (ih read)
  | edit _ _ _ _ _ ih => exact ih read
  | mark _ _ ih => exact ih read

/-- A text that was read is served from then on, if its path is not edited, written or dropped. -/
theorem serves_text (amid : c.Amid edits moves texts c') (still : ¬ moves p)
    (unedited : ¬ edits p) (read : (p, t) ∈ texts) : c'.serve p = .ok t := by
  induction amid with
  | refl => cases read
  | @read texts c' q amid ih =>
    rw [serve_retain]
    rcases List.mem_append.mp read with new | old
    · obtain ⟨rfl, served⟩ := mem_read_iff.mp new
      unfold serve at served ⊢
      rwa [Path.normalize_normalize]
    · exact ih old
  | @write texts c' q content emit amid moved ih =>
    have once : c'.Amid edits moves [] _ := Amid.refl.write q content emit moved
    exact once.serves (amid.isNormal_text read) still unedited (ih read)
  | @drop texts c' q amid moved ih =>
    have once : c'.Amid edits moves [] _ := Amid.refl.drop q moved
    exact once.serves (amid.isNormal_text read) still unedited (ih read)
  | @edit texts c' q files amid edited edit ih =>
    have once : c'.Amid edits moves [] _ := Amid.refl.edit q files edited edit
    exact once.serves (amid.isNormal_text read) still unedited (ih read)
  | mark _ _ ih => exact ih read

end Amid

/-! ### Programs and generations amid edits -/

theorem amid_retainAll (edits moves : Path → Prop) (c : SourceCache) (qs : List Path) :
    ∃ texts, c.Amid edits moves texts (c.retainAll qs) := by
  apply List.foldlRecOn (motive := fun c' => ∃ texts, c.Amid edits moves texts c') qs retain
    ⟨[], .refl⟩
  rintro c' ⟨texts, amid⟩ q _
  exact ⟨_, amid.read q⟩

end SourceCache

/-- What uses a host writes and drops exactly the paths that come to be changed ones. -/
theorem Host.Uses.amid {h h' : Host} (use : h.Uses h') (edits : Path → Prop) :
    ∃ moves texts, h.cache.Amid edits moves texts h'.cache ∧
      ∀ p, h'.cache.changed.contains p = true ↔ h.cache.changed.contains p = true ∨ moves p := by
  refine use.cache_induction (Q := fun c => ∃ moves texts, h.cache.Amid edits moves texts c ∧
    ∀ p, c.changed.contains p = true ↔ h.cache.changed.contains p = true ∨ moves p) ?_ ?_ ?_
    ⟨fun _ => False, [], .refl, by simp⟩
  · rintro c q ⟨moves, texts, amid, changed⟩
    refine ⟨moves, _, amid.read q, ?_⟩
    rw [SourceCache.changed_retain]
    exact changed
  · rintro c q content emit ⟨moves, texts, amid, changed⟩
    refine ⟨fun p => moves p ∨ q.normalize.Same p, texts,
      (amid.mono fun p => .inl).write q content emit fun p => .inr, fun p => ?_⟩
    have grown : (c.write q content emit).changed.contains p =
        (decide (q.normalize.Same p) || c.changed.contains p) :=
      OrderedSet.contains_insert c.changed q.normalize p
    rw [grown, Bool.or_eq_true, decide_eq_true_eq, changed, or_comm, or_assoc]
  · rintro c q ⟨moves, texts, amid, changed⟩
    refine ⟨fun p => moves p ∨ q.Same p, texts, (amid.mono fun p => .inl).drop q fun p => .inr,
      fun p => ?_⟩
    have grown : (c.drop q).changed.contains p =
        (decide (q.Same p) || c.changed.contains p) := OrderedSet.contains_insert c.changed q p
    rw [grown, Bool.or_eq_true, decide_eq_true_eq, changed, or_comm, or_assoc]

namespace Scanning

/-- How a queue of paths is worked off while files are edited. What the imports of a file lead to is
asked at moments of its own, so nothing is said about the paths that join the queue. -/
inductive WalkAmid (edits : Path → Prop) (previous : Option Program) : List Path →
    PathMap String → Host → Except ReadError (PathMap String) → Host → Prop where
  | done {files : PathMap String} {h : Host} : WalkAmid edits previous [] files h (.ok files) h
  | edit {queue : List Path} {files : PathMap String} {h after : Host}
      {result : Except ReadError (PathMap String)} (q : Path) (edited : FileSystem) :
      edits q.normalize → FileSystem.EditedAt q h.cache.files edited →
      WalkAmid edits previous queue files (h.mapFiles fun _ => edited) result after →
      WalkAmid edits previous queue files h result after
  | again {p : Path} {queue : List Path} {files : PathMap String} {h after : Host}
      {result : Except ReadError (PathMap String)} :
      files.contains p.normalize = true → WalkAmid edits previous queue files h result after →
      WalkAmid edits previous (p :: queue) files h result after
  | missing {p : Path} {queue : List Path} {files : PathMap String} {h after : Host}
      {result : Except ReadError (PathMap String)} :
      files.contains p.normalize = false → h.source p.normalize = .ok none →
      WalkAmid edits previous queue files h result after →
      WalkAmid edits previous (p :: queue) files h result after
  | failed {p : Path} {queue : List Path} {files : PathMap String} {h : Host} {e : ReadError} :
      files.contains p.normalize = false → h.source p.normalize = .error e →
      WalkAmid edits previous (p :: queue) files h (.error e) h
  | found {p : Path} {queue more : List Path} {files : PathMap String} {h after : Host}
      {fresh : SourceFile} {result : Except ReadError (PathMap String)} :
      files.contains p.normalize = false → h.source p.normalize = .ok (some fresh) →
      WalkAmid edits previous (queue ++ more)
        (files.insert p.normalize (reuse previous fresh).content)
        (h.mapCache (·.retain p.normalize)) result after →
      WalkAmid edits previous (p :: queue) files h result after

variable {edits : Path → Prop} {previous : Option Program} {queue : List Path}
  {files : PathMap String} {h after : Host} {result : Except ReadError (PathMap String)}

theorem Walk.amid (walk : Walk previous queue files h result after) :
    WalkAmid edits previous queue files h result after := by
  induction walk with
  | done => exact .done
  | again there _ ih => exact .again there ih
  | missing absent source _ ih => exact .missing absent source ih
  | failed absent source => exact .failed absent source
  | found absent source file next _ ih =>
    subst file next
    exact .found absent source ih

/-- Each file that the walk comes to was read on the way. -/
theorem WalkAmid.reads (walk : WalkAmid edits previous queue files h result after) :
    ∃ texts, h.cache.Amid edits (fun _ => False) texts after.cache ∧
      ∀ files', result = .ok files' → ∀ e ∈ files'.entries, e ∈ files.entries ∨ e ∈ texts := by
  induction walk with
  | done =>
    refine ⟨[], .refl, fun files' heq e he => ?_⟩
    cases heq
    exact .inl he
  | @edit _ _ h _ _ q edited hq edit _ ih =>
    obtain ⟨texts, amid, read⟩ := ih
    refine ⟨texts, ?_, read⟩
    have first : h.cache.Amid edits (fun _ => False) [] { h.cache with files := edited } :=
      .edit q edited .refl hq edit
    simpa using first.trans amid
  | again _ _ ih => exact ih
  | missing _ _ _ ih => exact ih
  | failed => exact ⟨[], .refl, nofun⟩
  | @found p queue more files h after fresh result absent source _ ih =>
    obtain ⟨texts, amid, read⟩ := ih
    have first : h.cache.Amid edits (fun _ => False) _ (h.cache.retain p.normalize) :=
      .read p.normalize .refl
    refine ⟨_, first.trans amid, fun files' heq e he => ?_⟩
    rcases read files' heq e he with old | new
    · rw [reuse_eq] at old
      rcases OrderedMap.mem_insertEntry old with old | rfl | ⟨a, ha, same, -⟩
      · exact .inl old
      · right
        apply List.mem_append_right
        apply List.mem_append_left
        rw [SourceCache.mem_read_iff]
        exact ⟨Path.normalize_normalize p, (Host.source_eq_some_iff.mp source).2⟩
      · -- the walk reads no path that is there already
        have there := OrderedMap.contains_iff.mpr ⟨a, ha, same⟩
        rw [absent] at there
        cases there
    · exact .inr (List.mem_append_left _ new)

end Scanning

/-- Collaborators that do what the scanning checker does, and use the host as a generator may, while
files are edited. -/
structure Collaborators.Follows (edits : Path → Prop) (c : Collaborators) : Prop where
  createProgram : ∀ roots options previous (h : Host), ∃ result,
    Scanning.WalkAmid edits previous (Scanning.startingQueue roots h) .empty h result
      (c.checker.createProgram roots options previous h).2 ∧
    (c.checker.createProgram roots options previous h).1 = Scanning.programOf roots options result
  generate : ∀ o P (h : Host), ∃ moves texts,
    h.cache.Amid edits moves texts (c.generator.generate o c.resources P h).2.cache
  listAllRoutes : ∀ P entry (h : Host), ∃ texts,
    h.cache.Amid edits (fun _ => False) texts (c.generator.listAllRoutes P entry h).2.cache

theorem Collaborators.follows_scanning (loader : ResourceLoader) (edits : Path → Prop) :
    (scanning loader).Follows edits where
  createProgram := by
    intro roots options previous h
    obtain ⟨result, hresult⟩ : ∃ result, (Scanning.createProgram roots options previous h).1 =
        Scanning.programOf roots options result := by
      unfold Scanning.createProgram
      dsimp only
      split
      next e _ => exact ⟨.error e, rfl⟩
      next => exact ⟨.ok _, rfl⟩
    exact ⟨result, (Scanning.walk_iff.mpr (Prod.ext hresult rfl)).amid, hresult⟩
  generate := by
    intro o P h
    obtain ⟨moves, texts, amid, -⟩ := (Factory.uses_generate o loader P h).amid edits
    exact ⟨moves, texts, amid⟩
  listAllRoutes := fun P entry h => h.cache.amid_retainAll edits _ _

/-- The stages that are about no program and ask nothing of the work. -/
def Stage.IsBare : Stage → Prop
  | .merging _ | .publishing | .registering | .settling | .ended _ => True
  | _ => False

namespace Cycle

variable {edits : Path → Prop} {c : Collaborators} {o : Orchestrator}

/-- A program that is created consists of texts that were read on the way. -/
theorem reads_creation (follows : c.Follows edits) (o : Orchestrator) :
    ∃ texts, o.host.cache.Amid edits (fun _ => False) texts (creation c o).2.cache ∧
      ∀ P, (creation c o).1 = .ok P → ∀ e ∈ P.files.entries, e ∈ texts := by
  obtain ⟨result, walk, hresult⟩ := follows.createProgram o.options.roots o.options.compiler
    o.programs.current o.host
  obtain ⟨texts, amid, read⟩ := walk.reads
  refine ⟨texts, amid, fun P hP e he => ?_⟩
  have hP' : Scanning.programOf o.options.roots o.options.compiler result = .ok P :=
    hresult.symm.trans hP
  cases result with
  | error e => cases hP'
  | ok files =>
    cases hP'
    exact (read files rfl e he).resolve_left nofun

/-- What the generator of a cycle worked from, what it wrote and dropped, and how many programs had
been created by then. -/
structure Work where
  texts : List (Path × String)
  moved : Path → Prop
  creations : Nat

def Work.none : Work := ⟨[], fun _ => False, 0⟩

/-- What can become of an orchestrator, with the work of the generator in the cycle at hand. Each
step has collaborators of its own, and files are edited between any two steps. -/
inductive Living (edits : Path → Prop) (start : Orchestrator) : Cycle → Work → Prop where
  | start (s : Session) (outcome : CycleOutcome) :
      Living edits start ⟨start, s, .ended outcome⟩ .none
  | report {cycle : Cycle} {work : Work} (ps : List Path) : Living edits start cycle work →
      Living edits start { cycle with orchestrator := cycle.orchestrator.queueAll ps } work
  | edit {cycle : Cycle} {work : Work} (q : Path) (files : FileSystem) :
      Living edits start cycle work → edits q.normalize →
      FileSystem.EditedAt q cycle.orchestrator.host.cache.files files →
      Living edits start
        { cycle with orchestrator := cycle.orchestrator.mapHost (·.mapFiles fun _ => files) } work
  | attach {cycle : Cycle} {work : Work} (r : Registry) : Living edits start cycle work →
      Living edits start { cycle with orchestrator := cycle.orchestrator.attach r } work
  | onInvalid {cycle : Cycle} {work : Work} : Living edits start cycle work →
      Living edits start { cycle with orchestrator := cycle.orchestrator.onInvalid } work
  | diagnose {c : Collaborators} {cycle : Cycle} {work : Work} (p : Path) (s : Session) :
      Living edits start cycle work →
      Living edits start { cycle with orchestrator := (cycle.orchestrator.diagnose c p s).1 } work
  | begin {cycle : Cycle} {work : Work} (s : Session) : Living edits start cycle work →
      cycle.stage.outcome? ≠ none → Living edits start (begin cycle.orchestrator s) .none
  | step {c : Collaborators} {cycle : Cycle} {work : Work} : c.Follows edits →
      Living edits start cycle work → (∀ P, cycle.stage ≠ .generating P) →
      Living edits start (step c cycle) work
  | generate {c : Collaborators} {cycle : Cycle} {work : Work} {P : Program} {moved : Path → Prop}
      {texts : List (Path × String)} : Living edits start cycle work →
      cycle.stage = .generating P →
      cycle.orchestrator.host.cache.Amid edits moved texts
        (generation c cycle.orchestrator P).host.cache →
      Living edits start (step c cycle)
        ⟨P.files.entries ++ texts, moved, cycle.orchestrator.programs.creations⟩

/-- A text is held; or nothing was read since setting up, and it is served as long as its path is
not edited. -/
def Known (edits : Path → Prop) (later : Prop) (c : SourceCache) (e : Path × String) : Prop :=
  c.Holds e.1 e.2 ∨ ¬ later ∧ (¬ edits e.1 → c.serve e.1 = .ok e.2)

theorem Known.amid {later : Prop} {cache cache' : SourceCache} {moves : Path → Prop}
    {texts : List (Path × String)} {e : Path × String} (known : Known edits later cache e)
    (amid : cache.Amid edits moves texts cache') (normal : e.1.IsNormal) (still : ¬ moves e.1) :
    Known edits later cache' e := by
  rcases known with holds | ⟨first, served⟩
  · exact .inl (amid.holds normal still holds)
  · exact .inr ⟨first, fun unedited => amid.serves normal still unedited (served unedited)⟩

/-- Where the program of the generator was created by a cycle, or the path was not edited, what is
known is served. -/
theorem Known.serve {later : Prop} {cache : SourceCache} {e : Path × String}
    (known : Known edits later cache e) (normal : e.1.IsNormal) (sure : ¬ edits e.1 ∨ later) :
    cache.serve e.1 = .ok e.2 := by
  rcases known with holds | ⟨first, served⟩
  · exact holds.serve normal
  · exact served (sure.resolve_right first)

/-- What holds of a cycle and of the work of its generator. -/
structure Sees (edits : Path → Prop) (start : Orchestrator) (cycle : Cycle) (work : Work) :
    Prop where
  caching : cycle.orchestrator.host.cache.caching = true
  earlier : ∀ r, cycle.orchestrator.programs.createdAt = some r →
    r ≤ cycle.orchestrator.host.cache.revision
  later : start.programs.creations ≤ cycle.orchestrator.programs.creations
  -- As long as the program is not stale, its texts are known.
  current : cycle.orchestrator.programs.createdAt = some cycle.orchestrator.host.cache.revision →
    ∀ P, cycle.orchestrator.programs.current = some P → ∀ e ∈ P.files.entries, e.1.IsNormal ∧
      Known edits (start.programs.creations < cycle.orchestrator.programs.creations)
        cycle.orchestrator.host.cache e
  input : ∀ P, cycle.stage = .generating P → ∀ e ∈ P.files.entries, e.1.IsNormal ∧
    Known edits (start.programs.creations < cycle.orchestrator.programs.creations)
      cycle.orchestrator.host.cache e
  idle : cycle.stage = .invalidating → work = .none
  -- So is what the generator worked from, but for what it wrote and dropped.
  worked : cycle.stage = .building → ∀ e ∈ work.texts, ¬ work.moved e.1 → e.1.IsNormal ∧
    Known edits (start.programs.creations < work.creations) cycle.orchestrator.host.cache e
  checked : ∀ P, cycle.stage = .checking P ∨ cycle.stage = .discovering P → ∀ e ∈ work.texts,
    ¬ work.moved e.1 → ¬ edits e.1 ∨ start.programs.creations < work.creations →
    ∀ t, (e.1, t) ∈ P.files.entries → t = e.2

variable {start : Orchestrator} {cycle next : Cycle} {work : Work}

/-- What is known of the current program stays so, however the host is used: where something is
written or dropped, the program is stale. -/
theorem Sees.current_amid (sees : Sees edits start cycle work) {cache : SourceCache}
    {moves : Path → Prop} {texts : List (Path × String)}
    (amid : cycle.orchestrator.host.cache.Amid edits moves texts cache)
    (created : cycle.orchestrator.programs.createdAt = some cache.revision) {P : Program}
    (hP : cycle.orchestrator.programs.current = some P) :
    ∀ e ∈ P.files.entries, e.1.IsNormal ∧
      Known edits (start.programs.creations < cycle.orchestrator.programs.creations) cache e := by
  obtain ⟨rises, stays⟩ := amid.revision
  have same : cache.revision = cycle.orchestrator.host.cache.revision :=
    Nat.le_antisymm (sees.earlier _ created) rises
  intro e he
  obtain ⟨normal, known⟩ := sees.current (same ▸ created) P hP e he
  exact ⟨normal, known.amid (stays same) normal id⟩

/-- A step that only uses the host and goes on to a stage at which nothing is asked of the work. -/
theorem Sees.goes (sees : Sees edits start cycle work) {moves : Path → Prop}
    {texts : List (Path × String)} {work' : Work}
    (amid : cycle.orchestrator.host.cache.Amid edits moves texts next.orchestrator.host.cache)
    (programs : next.orchestrator.programs = cycle.orchestrator.programs)
    (input : ∀ P, next.stage = .generating P →
      cycle.orchestrator.programs.createdAt = some next.orchestrator.host.cache.revision ∧
        cycle.orchestrator.programs.current = some P)
    (idle : next.stage = .invalidating → work' = .none)
    (worked : next.stage = .building → work'.texts = [])
    (checked : ∀ P, ¬ (next.stage = .checking P ∨ next.stage = .discovering P)) :
    Sees edits start next work' where
  caching := amid.caching_eq.trans sees.caching
  earlier := by
    intro r hr
    rw [programs] at hr
    exact Nat.le_trans (sees.earlier r hr) amid.revision.1
  later := by
    rw [programs]
    exact sees.later
  current := by
    rw [programs]
    exact fun created P hP => sees.current_amid amid created hP
  input := by
    intro P hP
    obtain ⟨created, hcurrent⟩ := input P hP
    rw [programs]
    exact sees.current_amid amid created hcurrent
  idle := idle
  worked := by
    intro hs
    rw [worked hs]
    exact nofun
  checked := fun P hP => absurd hP (checked P)

/-- A program that is created is known: its texts were read just now. -/
theorem Sees.creates {o : Orchestrator} {s : Session} {stage next : Stage} {P : Program}
    (follows : c.Follows edits) (sees : Sees edits start ⟨o, s, stage⟩ work)
    (hP : (creation c o).1 = .ok P) (input : ∀ Q, next = .generating Q → Q = P)
    (unended : next ≠ .invalidating ∧ next ≠ .building)
    (checked : ∀ Q, next = .checking Q ∨ next = .discovering Q → stage = .building ∧ Q = P) :
    Sees edits start (goTo (created c o P) s next) work := by
  obtain ⟨texts, amid, read⟩ := reads_creation follows o
  have caching : o.host.cache.caching = true := sees.caching
  have held : ∀ e ∈ P.files.entries, (creation c o).2.cache.Holds e.1 e.2 :=
    fun e he => amid.holds_text caching id (read P hP e he)
  have known : ∀ e ∈ P.files.entries, e.1.IsNormal ∧ ∀ later,
      Known edits later (creation c o).2.cache e :=
    fun e he => ⟨amid.isNormal_text (read P hP e he), fun _ => .inl (held e he)⟩
  constructor
  · exact amid.caching_eq.trans caching
  · intro r hr
    cases hr
    exact amid.revision.1
  · exact Nat.le_succ_of_le sees.later
  · intro _ Q hQ e he
    cases hQ
    exact ⟨(known e he).1, (known e he).2 _⟩
  · intro Q hQ e he
    cases input Q hQ
    exact ⟨(known e he).1, (known e he).2 _⟩
  · exact fun hs => absurd hs unended.1
  · exact fun hs => absurd hs unended.2
  · intro Q hQ e he still sure t ht
    obtain ⟨hstage, rfl⟩ := checked Q hQ
    obtain ⟨normal, worked⟩ := sees.worked hstage e he still
    -- what is known before the creation is served after it, and so is what the program holds
    have served := (worked.amid amid normal id).serve normal sure
    have served' := (held (e.1, t) ht).serve normal
    rw [served] at served'
    exact (Except.ok.inj served').symm

/-- What happens between two steps of a cycle. -/
theorem Sees.stays (sees : Sees edits start cycle work) {texts : List (Path × String)}
    (amid : cycle.orchestrator.host.cache.Amid edits (fun _ => False) texts
      next.orchestrator.host.cache)
    (programs : next.orchestrator.programs = cycle.orchestrator.programs)
    (stage : next.stage = cycle.stage) : Sees edits start next work where
  caching := amid.caching_eq.trans sees.caching
  earlier := by
    intro r hr
    rw [programs] at hr
    exact Nat.le_trans (sees.earlier r hr) amid.revision.1
  later := by
    rw [programs]
    exact sees.later
  current := by
    rw [programs]
    exact fun created P hP => sees.current_amid amid created hP
  input := by
    intro P hP e he
    rw [programs]
    obtain ⟨normal, known⟩ := sees.input P (stage ▸ hP) e he
    exact ⟨normal, known.amid amid normal id⟩
  idle := stage ▸ sees.idle
  worked := by
    intro hs e he still
    obtain ⟨normal, known⟩ := sees.worked (stage ▸ hs) e he still
    exact ⟨normal, known.amid amid normal id⟩
  checked := stage ▸ sees.checked

theorem Sees.begin (sees : Sees edits start cycle work) (s : Session) :
    Sees edits start (Cycle.begin cycle.orchestrator s) .none := by
  have same : (Cycle.begin cycle.orchestrator s).orchestrator.host = cycle.orchestrator.host ∧
      (Cycle.begin cycle.orchestrator s).orchestrator.programs = cycle.orchestrator.programs := by
    unfold Cycle.begin
    split <;> exact ⟨rfl, rfl⟩
  have stage : (Cycle.begin cycle.orchestrator s).stage = .invalidating ∨
      (Cycle.begin cycle.orchestrator s).stage = .ended .failed := by
    unfold Cycle.begin
    split <;> simp
  have amid : cycle.orchestrator.host.cache.Amid edits (fun _ => False) []
      (Cycle.begin cycle.orchestrator s).orchestrator.host.cache := by
    rw [same.1]
    exact .refl
  refine sees.goes amid same.2 ?_ (fun _ => rfl) (fun _ => rfl) ?_
  · intro P hP
    rcases stage with hs | hs <;> rw [hs] at hP <;> cases hP
  · intro P hP
    rcases stage with hs | hs <;> simp [hs] at hP

theorem Sees.goes_on (sees : Sees edits start cycle work) {moves : Path → Prop}
    {texts : List (Path × String)} {work' : Work}
    (amid : cycle.orchestrator.host.cache.Amid edits moves texts next.orchestrator.host.cache)
    (programs : next.orchestrator.programs = cycle.orchestrator.programs)
    (bare : next.stage.IsBare) : Sees edits start next work' := by
  have other : ∀ stage : Stage, ¬ stage.IsBare → next.stage ≠ stage :=
    fun stage stands same => stands (same ▸ bare)
  refine sees.goes amid programs (fun P hP => absurd hP (other _ id))
    (fun hs => absurd hs (other _ id)) (fun hs => absurd hs (other _ id)) fun P hP => ?_
  rcases hP with hs | hs
  · exact other _ id hs
  · exact other _ id hs

theorem Sees.step (follows : c.Follows edits) (sees : Sees edits start cycle work)
    (other : ∀ P, cycle.stage ≠ .generating P) : Sees edits start (Cycle.step c cycle) work := by
  have steps := steps_step (c := c) cycle
  generalize Cycle.step c cycle = next at steps ⊢
  cases steps with
  | invalidate o s =>
    obtain ⟨moves, texts, amid, -⟩ := o.uses_drainedHost.amid edits
    have none : work = .none := sees.idle rfl
    apply sees.goes amid
    · rfl
    · intro P hP
      rw [stage_goTo] at hP
      split at hP <;> cases hP
    · exact fun _ => none
    · intro _
      rw [none]
      rfl
    · intro P
      rw [stage_goTo]
      split <;> simp
  | keep hcurrent hcreated =>
    refine sees.goes (.unmoved _) rfl ?_ (by simp) (by simp) (by simp)
    intro P hP
    cases hP
    exact ⟨hcreated, hcurrent⟩
  | prepare hP =>
    refine sees.creates follows hP ?_ (by simp) (by simp)
    intro Q hQ
    cases hQ
    rfl
  | unprepared =>
    obtain ⟨texts, amid, -⟩ := reads_creation follows _
    exact sees.goes_on amid rfl trivial
  | generate => exact absurd rfl (other _)
  | ungenerated => exact absurd rfl (other _)
  | @build o s P hP =>
    refine sees.creates follows hP ?_ ?_ ?_
    · intro Q hQ
      unfold checkStage at hQ
      split at hQ <;> cases hQ
    · unfold checkStage
      split <;> simp
    · intro Q hQ
      refine ⟨rfl, ?_⟩
      unfold checkStage at hQ
      split at hQ
      · simpa [eq_comm] using hQ
      · simpa [eq_comm] using hQ
  | unbuilt =>
    obtain ⟨texts, amid, -⟩ := reads_creation follows _
    exact sees.goes_on amid rfl trivial
  | @check o s P =>
    refine ⟨sees.caching, sees.earlier, sees.later, sees.current, by simp, by simp, by simp, ?_⟩
    intro Q hQ
    have same : Q = P := by simpa [eq_comm] using hQ
    exact same ▸ sees.checked P (.inl rfl)
  | discoverAll =>
    obtain ⟨texts, amid⟩ := follows.listAllRoutes _ _ _
    exact sees.goes_on amid rfl trivial
  | settle o s =>
    have cleared : o.host.cache.Amid edits (fun _ => False) [] o.host.cache.clearChanged :=
      .mark .empty .refl
    exact sees.goes_on cleared rfl trivial
  | ended => exact sees
  | unchecked | discoverChanged | merge | publish | unregistered | register =>
    exact sees.goes_on (.unmoved _) rfl trivial

theorem Sees.generate {P : Program} {moved : Path → Prop} {texts : List (Path × String)}
    (sees : Sees edits start cycle work) (hs : cycle.stage = .generating P)
    (amid : cycle.orchestrator.host.cache.Amid edits moved texts
      (generation c cycle.orchestrator P).host.cache) :
    Sees edits start (Cycle.step c cycle)
      ⟨P.files.entries ++ texts, moved, cycle.orchestrator.programs.creations⟩ := by
  have steps := steps_step (c := c) cycle
  generalize Cycle.step c cycle = next at steps ⊢
  cases steps with
  | @generate o s Q =>
    cases hs
    refine ⟨amid.caching_eq.trans sees.caching, ?_, sees.later, ?_, by simp, by simp, ?_, by simp⟩
    · exact fun r hr => Nat.le_trans (sees.earlier r hr) amid.revision.1
    · exact fun created Q hQ => sees.current_amid amid created hQ
    · intro _ e he still
      rcases List.mem_append.mp he with he | he
      · obtain ⟨normal, known⟩ := sees.input P rfl e he
        exact ⟨normal, known.amid amid normal still⟩
      · exact ⟨amid.isNormal_text he, .inl (amid.holds_text sees.caching still he)⟩
  | @ungenerated o s Q =>
    cases hs
    exact sees.goes_on amid rfl trivial
  | _ => cases hs

/-! ### Cycles of the factory generator -/

/-- The work of the factory generator: it wrote and retired only paths that count as changed. -/
theorem Living.generate_scanning (living : Living edits start cycle work) (loader : ResourceLoader)
    {P : Program} (hs : cycle.stage = .generating P) :
    ∃ moved texts, Living edits start (Cycle.step (.scanning loader) cycle)
        ⟨P.files.entries ++ texts, moved, cycle.orchestrator.programs.creations⟩ ∧
      ∀ p, moved p → (Cycle.step (.scanning loader)
        cycle).orchestrator.host.cache.changed.contains p = true := by
  have use := uses_generation (Collaborators.careful_scanning loader) cycle.orchestrator P
  obtain ⟨moved, texts, amid, changed⟩ := use.amid edits
  refine ⟨moved, texts, living.generate hs amid, fun p hp => ?_⟩
  have steps := steps_step (c := .scanning loader) cycle
  generalize Cycle.step (.scanning loader) cycle = next at steps ⊢
  cases steps with
  | generate | ungenerated =>
    cases hs
    exact (changed p).mpr (.inr hp)
  | _ => cases hs

theorem Living.step_scanning (living : Living edits start cycle work) (loader : ResourceLoader) :
    ∃ work', Living edits start (Cycle.step (.scanning loader) cycle) work' := by
  by_cases generating : ∃ P, cycle.stage = .generating P
  · obtain ⟨P, hs⟩ := generating
    obtain ⟨moved, texts, living', -⟩ := living.generate_scanning loader hs
    exact ⟨_, living'⟩
  · exact ⟨work, living.step (Collaborators.follows_scanning loader edits) fun P hs =>
      generating ⟨P, hs⟩⟩

/-- Whole cycles are among what can happen. -/
theorem Living.make_scanning (living : Living edits start cycle work)
    (ended : cycle.stage.outcome? ≠ none) (loader : ResourceLoader) (s : Session) :
    ∃ work', Living edits start (cycle.orchestrator.make (.scanning loader) s) work' := by
  apply run_induction (I := fun r => ∃ work', Living edits start r work')
  · exact fun r _ ⟨_, living'⟩ => living'.step_scanning loader
  · exact ⟨.none, living.begin s ended⟩

end Cycle

/-! ### Setting up amid edits -/

/-- The texts of the program that a stage is about. -/
def Stage.texts : Stage → List (Path × String)
  | .generating P | .checking P | .discovering P => P.files.entries
  | _ => []

theorem Stage.Leads.eq_preparing {stage : Stage} {P : Program}
    (leads : stage.Leads (.generating P)) : stage = .preparing := by
  cases leads
  rfl

theorem Stage.exists_generating {stage : Stage} (h : stage.remaining = 8) :
    ∃ P, stage = .generating P ∧ P.files.entries = stage.texts := by
  cases stage with
  | generating P => exact ⟨P, rfl, rfl⟩
  | _ => cases h

theorem Stage.exists_checking {stage : Stage} (h : stage.remaining = 6) :
    ∃ P, stage = .checking P ∧ P.files.entries = stage.texts := by
  cases stage with
  | checking P => exact ⟨P, rfl, rfl⟩
  | _ => cases h

namespace Orchestrator

open Precompile.Cycle (Living Sees Known Work)

variable {edits : Path → Prop} {options : BuildOptions} {h : Host} {start : Orchestrator}
  {cycle : Cycle} {work : Work}

/-- What setting up over a host leads to while files are edited. Nothing is retained until the first
program is created, and the entry module is looked for after that. -/
inductive Constructed (edits : Path → Prop) (options : BuildOptions) (h : Host) :
    Orchestrator → Prop where
  | mk {c : Collaborators} (host : Host) (entryModule : Option ModuleReference)
      (texts : List (Path × String)) : c.Follows edits →
      (c.checker.createProgram options.roots options.compiler none
        (writeOverrides h options.overrides)).2.cache.enableCaching.Amid edits (fun _ => False)
        texts host.cache →
      Constructed edits options h { ofHost c options h with host, entryModule }

theorem constructed_ofHost (edits : Path → Prop) (loader : ResourceLoader) (options : BuildOptions)
    (h : Host) : Constructed edits options h (ofHost (.scanning loader) options h) := by
  obtain ⟨ps, hps⟩ := exists_host_ofHost (.scanning loader) options h
  obtain ⟨texts, amid⟩ := SourceCache.amid_retainAll edits (fun _ => False)
    (((Collaborators.scanning loader).checker.createProgram options.roots options.compiler none
      (writeOverrides h options.overrides)).2.cache.enableCaching) ps
  have follows := Collaborators.follows_scanning loader edits
  have used := congrArg Host.cache hps
  exact .mk (ofHost (.scanning loader) options h).host _ texts follows (used ▸ amid)

/-- The programs of a new orchestrator. -/
theorem programs_ofHost (c : Collaborators) (o : BuildOptions) (h : Host) :
    (ofHost c o h).programs =
      match (c.checker.createProgram o.roots o.compiler none (writeOverrides h o.overrides)).1 with
      | .ok P => ⟨some P, 1, some (writeOverrides h o.overrides).cache.revision⟩
      | .error _ => .empty := by
  show (Programs.empty.create c.checker o.roots o.compiler (writeOverrides h o.overrides)).2.1 = _
  unfold Programs.create
  dsimp only [Programs.empty]
  rcases c.checker.createProgram o.roots o.compiler none (writeOverrides h o.overrides) with
    ⟨result, after⟩
  cases result <;> rfl

/-- Nothing was generated yet, and the texts of the first program are served unless they were
edited. -/
theorem Constructed.sees (constructed : Constructed edits options h start) (s : Session)
    (outcome : CycleOutcome) : Sees edits start ⟨start, s, .ended outcome⟩ .none := by
  obtain @⟨c, host, entryModule, texts, follows, amid⟩ := constructed
  obtain ⟨result, walk, hresult⟩ := follows.createProgram options.roots options.compiler none
    (writeOverrides h options.overrides)
  obtain ⟨read, first, hread⟩ := walk.reads
  have programs := programs_ofHost c options h
  rw [hresult] at programs
  have rises : (writeOverrides h options.overrides).cache.revision ≤ host.cache.revision :=
    Nat.le_trans first.revision.1 amid.revision.1
  refine ⟨amid.caching_eq, ?_, Nat.le_refl _, ?_, nofun, nofun, nofun, by simp⟩
  · intro r hr
    have hr' : (ofHost c options h).programs.createdAt = some r := hr
    rw [programs] at hr'
    cases result with
    | error e => cases hr'
    | ok files =>
      cases hr'
      exact rises
  · intro _ P hP
    have hP' : (ofHost c options h).programs.current = some P := hP
    rw [programs] at hP'
    cases result with
    | error e => cases hP'
    | ok files =>
      cases hP'
      intro e he
      have there := (hread files rfl e he).resolve_left nofun
      have normal := first.isNormal_text there
      refine ⟨normal, .inr ⟨Nat.lt_irrefl _, fun unedited => ?_⟩⟩
      exact amid.serves normal id unedited (first.serves_text id unedited there)

/-- After setting up amid edits, what is known holds at every moment. -/
theorem living_sees (constructed : Constructed edits options h start)
    (living : Living edits start cycle work) : Sees edits start cycle work := by
  induction living with
  | start s outcome => exact constructed.sees s outcome
  | edit q files _ edited edit ih => exact ih.stays (.edit q files .refl edited edit) rfl rfl
  | report ps _ ih => exact ih.stays .refl rfl rfl
  | attach r _ ih => exact ih.stays .refl rfl rfl
  | onInvalid _ ih => exact ih.stays .refl rfl rfl
  | @diagnose c cycle _ p s _ ih =>
    obtain ⟨diagnosed, hdiagnosed⟩ := diagnose_eq c p s cycle.orchestrator
    rw [hdiagnosed]
    exact ih.stays .refl rfl rfl
  | begin s _ _ ih => exact ih.begin s
  | step follows _ other ih => exact ih.step follows other
  | generate _ hs amid ih => exact ih.generate hs amid

/-- The program that is checked has the same text as what the generator worked from, of each file
that the generator neither wrote nor retired: if the program it was handed was created by a cycle, or
the file was not edited since setting up began. -/
theorem checked_text_eq (constructed : Constructed edits options h start)
    (living : Living edits start cycle work) {P : Program}
    (checked : cycle.stage = .checking P ∨ cycle.stage = .discovering P) {p : Path} {t t' : String}
    (worked : (p, t) ∈ work.texts) (unwritten : ¬ work.moved p)
    (sure : ¬ edits p ∨ start.programs.creations < work.creations)
    (there : (p, t') ∈ P.files.entries) : t' = t :=
  (living_sees constructed living).checked P checked (p, t) worked unwritten sure t' there

/-! ### Cycles up to the check -/

theorem living_rewritten (living : Living edits start cycle work) {m : MemoryFiles}
    (files : cycle.orchestrator.host.cache.files = .memory m) (p : Path) (content : String)
    (edited : edits p.normalize) : Living edits start
      { cycle with orchestrator := cycle.orchestrator.rewritten m p content } work := by
  have edit : FileSystem.EditedAt p cycle.orchestrator.host.cache.files
      (.memory (m.insert p content)) := by
    rw [files]
    exact m.editedAt_insert p content
  exact (living.edit p _ edited edit).report [p]

/-- A cycle that nothing else happens to, up to the moment at which the generator is run. -/
def untilGeneration (o : Orchestrator) (loader : ResourceLoader) : Cycle :=
  Cycle.step (.scanning loader) (Cycle.step (.scanning loader) (Cycle.begin o .fresh))

/-- The same cycle up to the moment at which the program is there that is checked. -/
def untilCheck (o : Orchestrator) (loader : ResourceLoader) : Cycle :=
  Cycle.step (.scanning loader) (Cycle.step (.scanning loader) (o.untilGeneration loader))

theorem living_untilCheck {o : Orchestrator} {s : Session} {stage : Stage}
    (living : Living edits start ⟨o, s, stage⟩ work) (ended : stage.outcome? ≠ none)
    (loader : ResourceLoader)
    (generating : (o.untilGeneration loader).stage.remaining = 8)
    (checking : (o.untilCheck loader).stage.remaining = 6) :
    let before := o.untilGeneration loader
    let after := o.untilCheck loader
    ∃ P Q moved texts,
      (before.stage = .generating P ∧ P.files.entries = before.stage.texts) ∧
      (after.stage = .checking Q ∧ Q.files.entries = after.stage.texts) ∧
      Living edits start after
        ⟨P.files.entries ++ texts, moved, before.orchestrator.programs.creations⟩ ∧
      ∀ p, (Cycle.step (.scanning loader) before).orchestrator.host.cache.changed.contains p =
        false → ¬ moved p := by
  intro before after
  obtain ⟨P, hs, hP⟩ := Stage.exists_generating generating
  obtain ⟨Q, hs', hQ⟩ := Stage.exists_checking checking
  have follows := Collaborators.follows_scanning loader edits
  -- only preparing leads to generating
  have leads : ∀ r : Cycle, r.stage.outcome? = none → r.stage ≠ .preparing →
      ∀ R, (Cycle.step (.scanning loader) r).stage ≠ .generating R :=
    fun r going other R hR => other (hR ▸ Cycle.step_leads going).eq_preparing
  have begun := living.begin .fresh ended
  have prepared : Living edits start before .none :=
    (begun.step follows nofun).step follows (leads _ rfl nofun)
  obtain ⟨moved, texts, generated, changed⟩ := prepared.generate_scanning loader hs
  have third := leads before (by rw [hs]; rfl) (by rw [hs]; nofun)
  refine ⟨P, Q, moved, texts, ⟨hs, hP⟩, ⟨hs', hQ⟩, generated.step follows third, fun p hp h => ?_⟩
  rw [changed p h] at hp
  cases hp

/-- The build once the imported file has appeared and was reported, and the main file was edited and
was not. -/
def reworded : Orchestrator :=
  appeared.mapHost (·.mapFiles fun _ => .memory (importingFiles.insert ⟨"/m.ts"⟩ "import './e';"))

/-- The reported file makes the cycle create the program anew, and the main file is the edited one
both for the generator and for the check. -/
theorem checked_text_eq_once_reported : ∃ work Q,
    Living (fun _ => True) (generating expectingFiles) (reworded.untilCheck .ofFiles) work ∧
      (reworded.untilCheck .ofFiles).stage = .checking Q ∧
      (⟨"/m.ts"⟩, "import './e';") ∈ work.texts ∧ ¬ work.moved ⟨"/m.ts"⟩ ∧
      (generating expectingFiles).programs.creations < work.creations ∧
      (⟨"/m.ts"⟩, "import './e';") ∈ Q.files.entries ∧
      ∀ t, (⟨"/m.ts"⟩, t) ∈ Q.files.entries → t = "import './e';" := by
  have constructed := constructed_ofHost (fun _ => True) .ofFiles generatingOptions
    (.ofFiles (.memory expectingFiles) generatingOptions.basePath)
  have files := files_ofHost .ofFiles generatingOptions
    (.ofFiles (.memory expectingFiles) generatingOptions.basePath) rfl
  have appears : FileSystem.EditedAt ⟨"/e.ts"⟩ (generating expectingFiles).host.cache.files
      (.memory importingFiles) := by
    rw [show (generating expectingFiles).host.cache.files = .memory expectingFiles from files]
    exact expectingFiles.editedAt_insert ⟨"/e.ts"⟩ "@NgModule()class E"
  have started : Living (fun _ => True) (generating expectingFiles) _ _ := .start .fresh .succeeded
  have living : Living (fun _ => True) (generating expectingFiles) ⟨reworded, .fresh, _⟩ .none :=
    ((started.edit _ _ trivial appears).report [⟨"/e.ts"⟩]).edit ⟨"/m.ts"⟩ _ trivial
      (importingFiles.editedAt_insert ⟨"/m.ts"⟩ "import './e';")
  have seen : ((reworded.untilGeneration .ofFiles).stage.remaining = 8 ∧
        (⟨"/m.ts"⟩, "import './e';") ∈ (reworded.untilGeneration .ofFiles).stage.texts ∧
        (generating expectingFiles).programs.creations <
          (reworded.untilGeneration .ofFiles).orchestrator.programs.creations ∧
        (Cycle.step (.scanning .ofFiles)
          (reworded.untilGeneration .ofFiles)).orchestrator.host.cache.changed.contains
            (⟨"/m.ts"⟩ : Path) = false) ∧
      (reworded.untilCheck .ofFiles).stage.remaining = 6 ∧
        (⟨"/m.ts"⟩, "import './e';") ∈ (reworded.untilCheck .ofFiles).stage.texts := by
    decide +kernel
  obtain ⟨⟨generating, handed, later, unchanged⟩, checking, there⟩ := seen
  obtain ⟨P, Q, moved, texts, ⟨hs, hP⟩, ⟨hs', hQ⟩, living', still⟩ :=
    living_untilCheck living nofun .ofFiles generating checking
  have worked := List.mem_append_left texts (hP ▸ handed)
  exact ⟨_, Q, living', hs', worked, still _ unchanged, later, hQ ▸ there, fun t ht =>
    checked_text_eq constructed living' (.inl hs') worked (still _ unchanged) (.inr later) ht⟩

/-- A file with a decorated class. -/
def decoratedFile : MemoryFiles := MemoryFiles.empty.insert ⟨"/m.ts"⟩ "@NgModule()class E"

/-- The build once the class has another name, and nobody has reported it. -/
def renamed : Orchestrator :=
  (generating decoratedFile).mapHost
    (·.mapFiles fun _ => .memory (decoratedFile.insert ⟨"/m.ts"⟩ "@NgModule()class F"))

/-- A file is edited after setting up. The first cycle keeps the program that was created then, so
the generator works from the old text, and the new one is checked. -/
theorem edit_after_setting_up_is_missed :
    Constructed (fun _ => True) generatingOptions
        (.ofFiles (.memory decoratedFile) generatingOptions.basePath) (generating decoratedFile) ∧
      ∃ work P Q, (renamed.untilGeneration .ofFiles).stage = .generating P ∧
        Living (fun _ => True) (generating decoratedFile) (renamed.untilCheck .ofFiles) work ∧
        (renamed.untilCheck .ofFiles).stage = .checking Q ∧
        (⟨"/m.ts"⟩, "@NgModule()class E") ∈ P.files.entries ∧ ¬ work.moved ⟨"/m.ts"⟩ ∧
        (⟨"/m.ts"⟩, "@NgModule()class F") ∈ Q.files.entries := by
  have files := files_ofHost .ofFiles generatingOptions
    (.ofFiles (.memory decoratedFile) generatingOptions.basePath) rfl
  have edit : FileSystem.EditedAt ⟨"/m.ts"⟩ (generating decoratedFile).host.cache.files
      (.memory (decoratedFile.insert ⟨"/m.ts"⟩ "@NgModule()class F")) := by
    rw [show (generating decoratedFile).host.cache.files = .memory decoratedFile from files]
    exact decoratedFile.editedAt_insert ⟨"/m.ts"⟩ "@NgModule()class F"
  have started : Living (fun _ => True) (generating decoratedFile) _ _ := .start .fresh .succeeded
  have living := started.edit _ _ trivial edit
  have seen : ((renamed.untilGeneration .ofFiles).stage.remaining = 8 ∧
        (⟨"/m.ts"⟩, "@NgModule()class E") ∈ (renamed.untilGeneration .ofFiles).stage.texts ∧
        (Cycle.step (.scanning .ofFiles)
          (renamed.untilGeneration .ofFiles)).orchestrator.host.cache.changed.contains
            (⟨"/m.ts"⟩ : Path) = false) ∧
      (renamed.untilCheck .ofFiles).stage.remaining = 6 ∧
        (⟨"/m.ts"⟩, "@NgModule()class F") ∈ (renamed.untilCheck .ofFiles).stage.texts := by
    decide +kernel
  obtain ⟨⟨generating, handed, unchanged⟩, checking, there⟩ := seen
  obtain ⟨P, Q, moved, texts, ⟨hs, hP⟩, ⟨hs', hQ⟩, living', still⟩ :=
    living_untilCheck living nofun .ofFiles generating checking
  exact ⟨constructed_ofHost _ _ _ _, _, P, Q, hs, living', hs', hP ▸ handed, still _ unchanged,
    hQ ▸ there⟩

/-- A build of the file and of what is on disk where its factory is to be. -/
def coveredOptions : BuildOptions :=
  { generatingOptions with roots := [⟨"/m.ts"⟩, ⟨"/g/m.ngfactory.ts"⟩] }

def coveredFiles : MemoryFiles := decoratedFile.insert ⟨"/g/m.ngfactory.ts"⟩ ""

def covered : Orchestrator :=
  ofHost (.scanning .ofFiles) coveredOptions
    (.ofFiles (.memory coveredFiles) coveredOptions.basePath)

/-- The build once the class is gone. -/
def uncovered : Orchestrator :=
  (covered.make (.scanning .ofFiles) .fresh).orchestrator.rewritten coveredFiles ⟨"/m.ts"⟩ ""

/-- A factory that is retired uncovers the file on disk: nothing is written in that cycle, and yet
the generator worked from another text than the one that is checked. -/
theorem retired_factory_uncovers_file :
    ∃ work P Q, (uncovered.untilGeneration .ofFiles).stage = .generating P ∧
      Living (fun p => p = ⟨"/m.ts"⟩) covered (uncovered.untilCheck .ofFiles) work ∧
      (uncovered.untilCheck .ofFiles).stage = .checking Q ∧
      (uncovered.untilCheck .ofFiles).orchestrator.host.cache.writtenFiles = [] ∧
      (⟨"/g/m.ngfactory.ts"⟩ : Path) ∈ P.files.entries.map (·.1) ∧
      (⟨"/g/m.ngfactory.ts"⟩, "") ∉ P.files.entries ∧
      (⟨"/g/m.ngfactory.ts"⟩, "") ∈ Q.files.entries := by
  have files : (covered.make (.scanning .ofFiles) .fresh).orchestrator.host.cache.files =
      .memory coveredFiles :=
    files_make_ofHost rfl .fresh
  have started : Living (fun p => p = ⟨"/m.ts"⟩) covered _ _ := .start .fresh .succeeded
  obtain ⟨work, made⟩ := started.make_scanning nofun .ofFiles .fresh
  have living := living_rewritten made files ⟨"/m.ts"⟩ "" (by decide +kernel)
  have seen : ((uncovered.untilGeneration .ofFiles).stage.remaining = 8 ∧
        (⟨"/g/m.ngfactory.ts"⟩ : Path) ∈
          (uncovered.untilGeneration .ofFiles).stage.texts.map (·.1) ∧
        (⟨"/g/m.ngfactory.ts"⟩, "") ∉ (uncovered.untilGeneration .ofFiles).stage.texts) ∧
      (uncovered.untilCheck .ofFiles).stage.remaining = 6 ∧
        (uncovered.untilCheck .ofFiles).orchestrator.host.cache.writtenFiles = [] ∧
        (⟨"/g/m.ngfactory.ts"⟩, "") ∈ (uncovered.untilCheck .ofFiles).stage.texts := by
    decide +kernel
  obtain ⟨⟨generating, there, other⟩, checking, unwritten, there'⟩ := seen
  obtain ⟨P, Q, moved, texts, ⟨hs, hP⟩, ⟨hs', hQ⟩, living', -⟩ :=
    living_untilCheck living (Cycle.outcome?_run _) .ofFiles generating checking
  exact ⟨_, P, Q, hs, living', hs', unwritten, hP ▸ there, hP ▸ other, hQ ▸ there'⟩

end Orchestrator

end Precompile
