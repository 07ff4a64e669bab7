import Mathlib.Order.Bounds.Basic
import Precompile.Proofs.Scanning.Reachable

/-!
# Programs are closures

A program is created by working off a queue: files are read one after the other, taken over from an
earlier program where nothing has changed, and what their imports lead to joins the queue (`Walk`).
The queue runs empty, also where imports form a circle. The files that are then there are the least
set of readable files that holds the roots and is closed under imports (`Closed`), and neither the
earlier program nor the order of the roots shows.
-/

namespace Precompile.Host

variable {h : Host} {p : Path} {e : ReadError}

/-- The host has a text at a path. -/
def Readable (h : Host) (p : Path) : Prop := ∃ content, h.cache.serve p = .ok content

theorem source_eq_error_iff :
    h.source p = .error e ↔ h.cache.serve p = .error e ∧ e.isNotFound = false := by
  unfold source SourceCache.source
  cases h.cache.serve p with
  | ok content => simp [Except.map, orMissing]
  | error e' =>
    simp only [Except.map, orMissing]
    constructor
    · intro failed
      split at failed
      next => cases failed
      next other =>
        cases failed
        exact ⟨rfl, Bool.eq_false_iff.mpr other⟩
    · rintro ⟨same, other⟩
      cases same
      simp [other]

/-- A file that is served at a normal path is a source. -/
theorem source_of_serve {content : String} (normal : p.IsNormal)
    (served : h.cache.serve p = .ok content) : h.source p = .ok (some ⟨p, content⟩) :=
  source_eq_some_iff.mpr ⟨normal.symm, served⟩

theorem retainAll_append (h : Host) (ps qs : List Path) :
    h.retainAll (ps ++ qs) = (h.retainAll ps).retainAll qs := by
  simp [retainAll, mapCache, SourceCache.retainAll]

end Precompile.Host

namespace Precompile.Scanning

open Precompile.Path (Explores Reached)

variable {roots roots' : List Path} {options : CompilerOptions} {previous : Option Program}
  {h : Host} {P : Program} {p : Path}

/-! ### Working off the queue -/

/-- How a queue of paths is worked off, with the files that are there so far and the host that reads
them. A path that is there already or is missing is passed over, an error ends the work, and a file
that is found or taken over puts what it imports behind the queue. -/
inductive Walk (previous : Option Program) : List Path → PathMap String → Host →
    Except ReadError (PathMap String) → Host → Prop where
  | done {files : PathMap String} {h : Host} : Walk previous [] files h (.ok files) h
  | again {p : Path} {queue : List Path} {files : PathMap String} {h after : Host}
      {result : Except ReadError (PathMap String)} :
      files.contains p.normalize = true → Walk previous queue files h result after →
      Walk previous (p :: queue) files h result after
  | missing {p : Path} {queue : List Path} {files : PathMap String} {h after : Host}
      {result : Except ReadError (PathMap String)} :
      files.contains p.normalize = false → h.source p.normalize = .ok none →
      Walk previous queue files h result after → Walk previous (p :: queue) files h result after
  | failed {p : Path} {queue : List Path} {files : PathMap String} {h : Host} {e : ReadError} :
      files.contains p.normalize = false → h.source p.normalize = .error e →
      Walk previous (p :: queue) files h (.error e) h
  | found {p : Path} {queue : List Path} {files : PathMap String} {h next after : Host}
      {fresh file : SourceFile} {result : Except ReadError (PathMap String)} :
      files.contains p.normalize = false → h.source p.normalize = .ok (some fresh) →
      file = reuse previous fresh → next = h.mapCache (·.retain p.normalize) →
      Walk previous (queue ++ next.importTargets file) (files.insert p.normalize file.content) next
        result after →
      Walk previous (p :: queue) files h result after

theorem Walk.deterministic {queue : List Path} {files : PathMap String} {after after' : Host}
    {result result' : Except ReadError (PathMap String)}
    (walk : Walk previous queue files h result after)
    (walk' : Walk previous queue files h result' after') : result = result' ∧ after = after' := by
  induction walk generalizing result' after' with
  | done =>
    cases walk'
    exact ⟨rfl, rfl⟩
  | again there _ ih =>
    cases walk' with
    | again _ rest => exact ih rest
    | missing absent => simp [there] at absent
    | failed absent => simp [there] at absent
    | found absent => simp [there] at absent
  | missing absent source _ ih =>
    cases walk' with
    | again there => simp [absent] at there
    | missing _ _ rest => exact ih rest
    | failed _ source' => cases source.symm.trans source'
    | found _ source' => cases source.symm.trans source'
  | failed absent source =>
    cases walk' with
    | again there => simp [absent] at there
    | missing _ source' => cases source.symm.trans source'
    | failed _ source' =>
      cases source.symm.trans source'
      exact ⟨rfl, rfl⟩
    | found _ source' => cases source.symm.trans source'
  | found absent source file next _ ih =>
    cases walk' with
    | again there => simp [absent] at there
    | missing _ source' => cases source.symm.trans source'
    | failed _ source' => cases source.symm.trans source'
    | found _ source' file' next' rest =>
      cases source.symm.trans source'
      subst file next file' next'
      exact ih rest

/-- The files there are after an exploration, or the error that ended it. -/
def filesAfter (files : PathMap String) (r : Explored SourceFile ReadError) :
    Except ReadError (PathMap String) :=
  match r.failure with
  | none => .ok (files.insertAll (r.found.map fun f => (f.path, f.content)))
  | some e => .error e

theorem filesAfter_cons (files : PathMap String) (f : SourceFile)
    (r : Explored SourceFile ReadError) :
    filesAfter files (r.cons f) = filesAfter (files.insert f.path f.content) r := rfl

/-- What an exploration comes to is what working off the queue comes to. An exploration remembers
the missing paths as well and reads all with the host it started with, which makes no difference. -/
theorem walk_of_explores {waiting : List Path} {seen : PathSet} {r : Explored SourceFile ReadError}
    (explores : Explores h.source (importsOf h) waiting seen r) {queue : List Path}
    {files : PathMap String} (read : List Path) (same : queue.map Path.normalize = waiting)
    (there : ∀ p, files.contains p = true → seen.contains p = true)
    (passed : ∀ p, seen.contains p = true → files.contains p = true ∨ h.source p = .ok none) :
    Walk previous queue files (h.retainAll read) (filesAfter files r)
      (h.retainAll (read ++ r.found.map SourceFile.path)) := by
  induction explores generalizing queue files read with
  | done =>
    cases List.map_eq_nil_iff.mp same
    simpa [filesAfter, OrderedMap.insertAll_nil] using Walk.done
  | again hseen _ ih =>
    obtain ⟨q, queue, rfl, rfl, rfl⟩ := List.map_eq_cons_iff.mp same
    have rest := ih read rfl there passed
    cases hfiles : files.contains q.normalize with
    | true => exact .again hfiles rest
    | false =>
      have hnone := (passed _ hseen).resolve_left (by simp [hfiles])
      exact .missing hfiles (by rwa [Host.source_retainAll]) rest
  | failed hseen hsource =>
    obtain ⟨q, queue, rfl, rfl, rfl⟩ := List.map_eq_cons_iff.mp same
    have hfiles := Bool.eq_false_iff.mpr fun hq => Bool.eq_false_iff.mp hseen (there _ hq)
    have failed : Walk previous (q :: queue) files (h.retainAll read) _ (h.retainAll read) :=
      .failed hfiles (by rwa [Host.source_retainAll])
    simpa [filesAfter] using failed
  | @nothing p waiting seen r hseen hsource _ ih =>
    obtain ⟨q, queue, rfl, rfl, rfl⟩ := List.map_eq_cons_iff.mp same
    have hfiles := Bool.eq_false_iff.mpr fun hq => Bool.eq_false_iff.mp hseen (there _ hq)
    refine .missing hfiles (by rwa [Host.source_retainAll]) (ih read rfl ?_ ?_)
    · exact fun p hp => OrderedSet.contains_insert_of_contains (there p hp) _
    · intro p hp
      rw [OrderedSet.contains_insert, Bool.or_eq_true, decide_eq_true_eq] at hp
      rcases hp with hsame | hp
      · exact .inr ((h.source_same hsame).symm.trans hsource)
      · exact passed p hp
  | @found p waiting seen r f hseen hsource _ ih =>
    obtain ⟨q, queue, rfl, rfl, rfl⟩ := List.map_eq_cons_iff.mp same
    have hfiles := Bool.eq_false_iff.mpr fun hq => Bool.eq_false_iff.mp hseen (there _ hq)
    have hpath : f.path = q.normalize :=
      (Host.source_eq_some_iff.mp hsource).1.trans (Path.isNormal_normalize q)
    have hnext : (h.retainAll read).mapCache (·.retain q.normalize) =
        h.retainAll (read ++ [f.path]) := by
      rw [Host.retainAll_append, hpath]
      rfl
    refine .found hfiles (by rwa [Host.source_retainAll]) (reuse_eq previous f).symm hnext.symm ?_
    rw [Host.importTargets_retainAll, ← hpath, filesAfter_cons]
    have rest : Walk previous (queue ++ h.importTargets f) (files.insert f.path f.content) _ _ _ :=
      ih (read ++ [f.path]) (by simp [importsOf]) ?_ ?_
    · simpa [Explored.cons] using rest
    · intro p hp
      rw [OrderedMap.contains_insert, hpath, Bool.or_eq_true] at hp
      rw [OrderedSet.contains_insert, Bool.or_eq_true]
      exact hp.imp id (there p)
    · intro p hp
      rw [OrderedSet.contains_insert, Bool.or_eq_true] at hp
      rw [OrderedMap.contains_insert, hpath, Bool.or_eq_true, or_assoc]
      exact hp.imp id (passed p)

/-- The paths that the queue starts with. -/
def startingQueue (roots : List Path) (h : Host) : List Path :=
  roots ++ (h.virtualModules.map WrittenFile.path).filter isScript

/-- The program of the files that working off the queue comes to, or the error. -/
def programOf (roots : List Path) (options : CompilerOptions) :
    Except ReadError (PathMap String) → Except HostError Program
  | .ok files => .ok ⟨roots, files, options⟩
  | .error e => .error (.source e)

theorem programOf_injective {result result' : Except ReadError (PathMap String)}
    (same : programOf roots options result = programOf roots options result') :
    result = result' := by
  cases result <;> cases result' <;> simp_all [programOf]

/-- Working off the queue ends, and it ends with the program that is created. -/
theorem walk_iff {result : Except ReadError (PathMap String)} {after : Host} :
    Walk previous (startingQueue roots h) .empty h result after ↔
      createProgram roots options previous h = (programOf roots options result, after) := by
  let r := exploreSources roots previous h
  have created : createProgram roots options previous h =
      (programOf roots options (filesAfter .empty r),
        h.retainAll (r.found.map SourceFile.path)) := by
    unfold createProgram filesAfter
    dsimp only [r]
    cases (exploreSources roots previous h).failure <;> rfl
  have walk : Walk previous (startingQueue roots h) .empty h (filesAfter .empty r)
      (h.retainAll (r.found.map SourceFile.path)) :=
    walk_of_explores (explores_exploreSources roots previous h) [] rfl (fun _ hp => hp)
      fun _ hp => .inl hp
  constructor
  · intro walk'
    obtain ⟨rfl, rfl⟩ := walk'.deterministic walk
    exact created
  · intro created'
    obtain ⟨same, rfl⟩ := Prod.mk.inj (created.symm.trans created')
    exact programOf_injective same ▸ walk

/-! ### The closure -/

/-- A set of paths holds the readable roots and scripts in memory, and with each file the readable
files that its relative imports lead to. -/
structure Closed (roots : List Path) (h : Host) (S : Set Path) : Prop where
  root : ∀ p ∈ roots, h.Readable p.normalize → p.normalize ∈ S
  script : ∀ f ∈ h.virtualModules, isScript f.path = true → h.Readable f.path.normalize →
    f.path.normalize ∈ S
  imports : ∀ p ∈ S, ∀ content, h.cache.serve p = .ok content →
    ∀ q ∈ h.importTargets ⟨p, content⟩, h.Readable q.normalize → q.normalize ∈ S

theorem mem_startingPaths :
    p ∈ startingPaths roots h ↔ (∃ q ∈ roots, q.normalize = p) ∨
      ∃ f ∈ h.virtualModules, isScript f.path = true ∧ f.path.normalize = p := by
  simp only [startingPaths, List.map_append, List.mem_append, List.mem_map, List.mem_filter]
  constructor
  · rintro (root | ⟨q, ⟨⟨f, hf, rfl⟩, hscript⟩, rfl⟩)
    · exact .inl root
    · exact .inr ⟨f, hf, hscript, rfl⟩
  · rintro (root | ⟨f, hf, hscript, rfl⟩)
    · exact .inl root
    · exact .inr ⟨f.path, ⟨⟨f, hf, rfl⟩, hscript⟩, rfl⟩

/-- A closed set holds every file that is reached. -/
theorem Closed.mem_of_reaches {S : Set Path} (closed : Closed roots h S)
    (reaches : Reaches roots h p) (readable : h.Readable p) : p ∈ S := by
  induction reaches with
  | start hp =>
    rcases mem_startingPaths.mp hp with ⟨q, hq, rfl⟩ | ⟨f, hf, hscript, rfl⟩
    · exact closed.root q hq readable
    · exact closed.script f hf hscript readable
  | @next p q f reaches hsource hq ih =>
    obtain ⟨hpath, served⟩ := Host.source_eq_some_iff.mp hsource
    have hf : f = ⟨p, f.content⟩ := by
      rw [← show p.normalize = p from Reaches.isNormal reaches, ← hpath]
    obtain ⟨target, htarget, rfl⟩ := List.mem_map.mp hq
    rw [hf] at htarget
    exact closed.imports p (ih ⟨_, served⟩) _ served target htarget readable

/-- The files that are reached are closed. -/
theorem closed_reaches : Closed roots h {p | Reaches roots h p ∧ h.Readable p} where
  root := fun p hp readable => ⟨.start (mem_startingPaths.mpr (.inl ⟨p, hp, rfl⟩)), readable⟩
  script := fun f hf hscript readable =>
    ⟨.start (mem_startingPaths.mpr (.inr ⟨f, hf, hscript, rfl⟩)), readable⟩
  imports := by
    rintro p ⟨reaches, -⟩ content served q hq readable
    refine ⟨.next reaches (Host.source_of_serve (Reaches.isNormal reaches) served) ?_, readable⟩
    exact List.mem_map_of_mem hq

/-! ### The files of a program -/

theorem mem_entries_iff (hP : (createProgram roots options previous h).1 = .ok P)
    {content : String} :
    (p, content) ∈ P.files.entries ↔ Reaches roots h p ∧ h.cache.serve p = .ok content := by
  constructor
  · intro hmem
    obtain ⟨hnormal, hsource⟩ := source_of_mem_files hP _ hmem
    have reaches := ((mem_paths_iff hP).mp (OrderedMap.mem_keys.mpr ⟨content, hmem⟩)).1
    exact ⟨reaches, (Host.source_eq_some_iff.mp hsource).2⟩
  · rintro ⟨reaches, served⟩
    have hsource := Host.source_of_serve reaches.isNormal served
    obtain ⟨content', hmem⟩ := OrderedMap.mem_keys.mp ((mem_paths_iff hP).mpr ⟨reaches, _, hsource⟩)
    have served' := (Host.source_eq_some_iff.mp (source_of_mem_files hP _ hmem).2).2
    cases served.symm.trans served'
    exact hmem

theorem paths_eq (hP : (createProgram roots options previous h).1 = .ok P) :
    {p | p ∈ P.paths} = {p | Reaches roots h p ∧ h.Readable p} := by
  ext p
  constructor
  · intro hp
    obtain ⟨content, hmem⟩ := OrderedMap.mem_keys.mp hp
    obtain ⟨reaches, served⟩ := (mem_entries_iff hP).mp hmem
    exact ⟨reaches, content, served⟩
  · rintro ⟨reaches, content, served⟩
    exact OrderedMap.mem_keys.mpr ⟨content, (mem_entries_iff hP).mpr ⟨reaches, served⟩⟩

theorem Reaches.of_same_roots
    (same : ∀ p, p ∈ roots.map Path.normalize → p ∈ roots'.map Path.normalize)
    (reaches : Reaches roots h p) : Reaches roots' h p := by
  induction reaches with
  | start hp =>
    refine .start ?_
    simp only [startingPaths, List.map_append, List.mem_append] at hp ⊢
    exact hp.imp (same _) id
  | next _ hsource hq ih => exact .next ih hsource hq

/-- Only the set of the roots counts. -/
theorem files_eq_of_same_roots
    (same : ∀ p, p ∈ roots.map Path.normalize ↔ p ∈ roots'.map Path.normalize)
    (hP : (createProgram roots options previous h).1 = .ok P) (options' : CompilerOptions)
    (previous' : Option Program) :
    ∃ Q, (createProgram roots' options' previous' h).1 = .ok Q ∧ Q.files = P.files := by
  have reaches : ∀ p, Reaches roots' h p ↔ Reaches roots h p := fun p =>
    ⟨Reaches.of_same_roots fun q => (same q).mpr, Reaches.of_same_roots fun q => (same q).mp⟩
  have readable := exists_createProgram_iff.mp ⟨P, hP⟩
  obtain ⟨Q, hQ⟩ : ∃ Q, (createProgram roots' options' previous' h).1 = .ok Q :=
    exists_createProgram_iff.mpr fun p e hp => readable p e ((reaches p).mp hp)
  refine ⟨Q, hQ, ?_⟩
  apply OrderedMap.ext_get? (Q := Path.IsNormal) fun hp hq => hp.eq_of_same hq
  · exact fun e he => (source_of_mem_files hQ e he).1
  · exact fun e he => (source_of_mem_files hP e he).1
  · intro p
    ext content
    simp only [OrderedMap.get?_eq_some_iff, mem_entries_iff hP, mem_entries_iff hQ, reaches]

/-- How a program comes about and what it consists of. -/
structure CreatesClosure (roots : List Path) (options : CompilerOptions) (previous : Option Program)
    (h : Host) : Prop where
  -- The queue is worked off in exactly one way, which ends with what is created.
  ends : ∀ result after, Walk previous (startingQueue roots h) .empty h result after ↔
    createProgram roots options previous h = (programOf roots options result, after)
  least : ∀ P, (createProgram roots options previous h).1 = .ok P →
    IsLeast {S | Closed roots h S} {p | p ∈ P.paths}
  contents : ∀ P, (createProgram roots options previous h).1 = .ok P → ∀ p ∈ P.paths,
    ∃ content, P.file? p = some ⟨p, content⟩ ∧ h.cache.serve p = .ok content
  reused : ∀ previous', createProgram roots options previous' h =
    createProgram roots options previous h
  ordered : ∀ P roots', (createProgram roots options previous h).1 = .ok P →
    (∀ p, p ∈ roots.map Path.normalize ↔ p ∈ roots'.map Path.normalize) → ∀ options' previous',
      ∃ Q, (createProgram roots' options' previous' h).1 = .ok Q ∧ Q.files = P.files
  fails : (∃ e, (createProgram roots options previous h).1 = .error e) ↔
    ∃ p e, Reaches roots h p ∧ h.cache.serve p = .error e ∧ e.isNotFound = false

/-- Whatever was read before and whatever is reused, a program is the closure of its roots, and none
is created exactly when something in reach cannot be read. -/
theorem createProgram_closure (roots : List Path) (options : CompilerOptions)
    (previous : Option Program) (h : Host) : CreatesClosure roots options previous h where
  ends := fun _ _ => walk_iff
  least := by
    intro P hP
    rw [paths_eq hP]
    exact ⟨closed_reaches, fun S closed p hp => closed.mem_of_reaches hp.1 hp.2⟩
  contents := by
    intro P hP p hp
    obtain ⟨content, hmem⟩ := OrderedMap.mem_keys.mp hp
    refine ⟨content, ?_, ((mem_entries_iff hP).mp hmem).2⟩
    unfold Program.file?
    rw [OrderedMap.find?_eq_some_iff.mpr ⟨hmem, rfl⟩]
    rfl
  reused := by
    intro previous'
    have explored : exploreSources roots previous' h = exploreSources roots previous h := by
      unfold exploreSources
      rw [visitSource_eq, visitSource_eq]
    unfold createProgram
    rw [explored]
  ordered := fun _ _ hP same options' previous' => files_eq_of_same_roots same hP options' previous'
  fails := by
    have created : (∃ e, (createProgram roots options previous h).1 = .error e) ↔
        ¬ ∃ P, (createProgram roots options previous h).1 = .ok P := by
      cases (createProgram roots options previous h).1 <;> simp
    rw [created, exists_createProgram_iff]
    push Not
    simp only [Host.source_eq_error_iff]

/-- Two files that import each other, and one that is not there. -/
def circle : MemoryFiles :=
  (MemoryFiles.empty.insert ⟨"/p/a.ts"⟩ "import './b';\nimport './gone';").insert ⟨"/p/b.ts"⟩
    "import './a';"

example :
    (createProgram [⟨"/p/./a.ts"⟩, ⟨"/p/gone.ts"⟩, ⟨"/p/a.ts"⟩] .empty none
      (.ofFiles (.memory circle) ⟨"/p"⟩)).1.toOption.map Program.paths =
      some [⟨"/p/a.ts"⟩, ⟨"/p/b.ts"⟩] := by
  decide +kernel

end Precompile.Scanning
