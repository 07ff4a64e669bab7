import Precompile.Proofs.Program.Files
import Precompile.Proofs.Route.Discovery
import Precompile.Proofs.Route.Map

/-!
Looking for routes everywhere.

All routes can be looked for by going from file to file, or by going through the files of a program
one by one. Both visit the same files in the same order where the program leads nowhere else
(`reach_paths`), which its imports never do; so they agree as soon as its routes stay inside
(`listAll_eq_ofChanged`).
-/

namespace Precompile

/-- The hosts give the same answers: the same files are at the same paths, and specifiers stand for
the same files. -/
structure Host.Agrees (g h : Host) : Prop where
  source : ∀ p : Path, g.source p = h.source p
  resolve? : ∀ (specifier : String) (containing : Path),
    g.resolve? specifier containing = h.resolve? specifier containing

theorem Host.Agrees.importTargets {g h : Host} (agrees : g.Agrees h) (f : SourceFile) :
    g.importTargets f = h.importTargets f := by
  simp only [Host.importTargets, agrees.resolve?]

/-- Reading changes no answer. -/
theorem Host.agrees_retainAll (h : Host) (ps : List Path) : (h.retainAll ps).Agrees h where
  source := congrFun (h.source_retainAll ps)
  resolve? := fun specifier => congrFun (congrFun (h.resolve?_retainAll ps) specifier)

namespace Route

variable {P : Program} {h g : Host}

/-- The walk from all files of a program that leads nowhere else visits these files in their order. -/
theorem reach_paths (faithful : Faithful P g) (settled : ∀ p ∈ P.paths, p.IsSettled)
    (closed : ∀ f ∈ P.sources, ∀ q ∈ successors g f, readable? g q = none ∨ P.contains q = true) :
    reach P g P.paths = P.sources := by
  have visits : List.Forall₂ (fun p f => visit g p = .ok (some f)) P.paths P.sources := by
    rw [Program.paths_eq_map, List.forall₂_map_left_iff, List.forall₂_same]
    intro f hf
    exact congrArg Except.ok (readable?_eq_some_iff.mpr
      (faithful f.path f (Program.file?_of_mem_sources hf)))
  have explores : Path.Explores (visit g) (successors g) (P.paths ++ []) .empty ⟨P.sources, none⟩ := by
    refine Path.explores_of_closed visits P.paths_apart (fun _ _ => rfl) fun q hq => ?_
    obtain ⟨f, hf, hq⟩ := List.mem_flatMap.mp hq
    rcases closed f hf q hq with hnone | hinside
    · exact .inr (.inl (congrArg Except.ok hnone))
    · obtain ⟨p, hp, same⟩ := OrderedMap.exists_mem_keys hinside
      exact .inr (.inr ⟨p, hp, same⟩)
  rw [List.append_nil] at explores
  exact congrArg Explored.found ((explores_reach faithful settled).unique explores)

variable {roots : List Path} {options : CompilerOptions} {previous : Option Program}

/-- What the files of a program import is a file of the program, if it can be read. -/
theorem contains_of_mem_importTargets
    (hP : (Scanning.createProgram roots options previous h).1 = .ok P) (agrees : g.Agrees h)
    {f : SourceFile} (hf : f ∈ P.sources) {q : Path} (hq : q ∈ g.importTargets f) :
    readable? g q = none ∨ P.contains q = true := by
  cases hread : readable? g q with
  | none => exact .inl rfl
  | some b =>
    obtain ⟨reaches, -⟩ := (Scanning.mem_paths_iff hP).mp (Program.path_mem_paths hf)
    have source := Scanning.source_of_file? hP (Program.file?_of_mem_sources hf)
    have leads : q.normalize ∈ Scanning.importsOf h f :=
      List.mem_map_of_mem (agrees.importTargets f ▸ hq)
    -- targets of imports are settled, so their normal forms name the same files
    have same := (Host.isSettled_of_mem_importTargets hq).normalize_same
    have found : h.source q.normalize = .ok (some b) := by
      rw [h.source_same same, ← agrees.source]
      exact readable?_eq_some_iff.mp hread
    have listed := (Scanning.mem_paths_iff hP).mpr ⟨.next reaches source leads, b, found⟩
    obtain ⟨content, hmem⟩ := OrderedMap.mem_keys.mp listed
    exact .inr (OrderedMap.contains_iff.mpr ⟨_, hmem, same⟩)

/-- Going from file to file finds the routes that going through a program finds, if the routes of
the program lead to its own files. Either way it is the last file in the order of the paths that
decides over a key. -/
theorem listAll_eq_ofChanged (hP : (Scanning.createProgram roots options previous h).1 = .ok P)
    (agrees : g.Agrees h)
    (inside : ∀ f ∈ P.sources, ∀ key t, (ofFile g f).get? key = some (some t) →
      P.contains t = true) :
    (listAll P none g).1 = ofChanged P g P.paths ∧
      ∀ key, (listAll P none g).1.get? key =
        (P.sources.filterMap fun f => (ofFile g f).get? key).getLast? := by
  have faithful : Faithful P g := fun p f hf =>
    (agrees.source p).trans (Scanning.source_of_file? hP hf)
  have settled : ∀ p ∈ P.paths, p.IsSettled := fun p hp =>
    ((Scanning.mem_paths_iff hP).mp hp).1.isNormal.isSettled
  have visited : reach P g P.paths = P.sources := by
    refine reach_paths faithful settled fun f hf q hq => ?_
    rcases List.mem_append.mp hq with hq | hq
    · obtain ⟨key, hkey⟩ := mem_resolved_iff.mp hq
      exact .inr (inside f hf key q hkey)
    · exact contains_of_mem_importTargets hP agrees hf hq
  have listed : (listAll P none g).1 = ofFiles g P.sources := congrArg (ofFiles g) visited
  refine ⟨?_, fun key => ?_⟩
  · rw [listed, ofChanged, Program.filterMap_file?_paths]
  · rw [listed, get?_ofFiles]

/-- Two files with routes of one name, each of them to the module beside it. The second module leads
back to the first file. -/
def crossingFiles : MemoryFiles :=
  [(⟨"/a/r.ts"⟩, "loadChildren:'./z'"), (⟨"/b/r.ts"⟩, "loadChildren:'./z'"), (⟨"/a/z.ts"⟩, ""),
    (⟨"/b/z.ts"⟩, "import '../a/r'")].foldl
    (fun (m : MemoryFiles) f => m.insert f.1 f.2) .empty

/-- Creating the program of these files, from roots that are not in the order of their paths. -/
def crossing : Except HostError Program × Host :=
  Scanning.createProgram [⟨"/b/z.ts"⟩, ⟨"/b/r.ts"⟩, ⟨"/a/z.ts"⟩] .empty none
    (.ofFiles (.memory crossingFiles) ⟨"/"⟩)

/-- The second file has the last word either way. -/
theorem listAll_crossing : ∃ P, crossing.1 = .ok P ∧
    P.paths = [⟨"/a/r.ts"⟩, ⟨"/a/z.ts"⟩, ⟨"/b/r.ts"⟩, ⟨"/b/z.ts"⟩] ∧
    (listAll P none crossing.2).1 = ofChanged P crossing.2 P.paths ∧
    (listAll P none crossing.2).1.get? "./z" = some (some ⟨"/b/z.ts"⟩) := by
  have evaluated : crossing.1.toOption.map (fun P => (P.paths,
      decide (∀ f ∈ P.sources, ∀ t ∈ (ofFile crossing.2 f).resolved.map Prod.snd,
        P.contains t = true),
      (P.sources.filterMap fun f => (ofFile crossing.2 f).get? "./z").getLast?)) =
      some ([⟨"/a/r.ts"⟩, ⟨"/a/z.ts"⟩, ⟨"/b/r.ts"⟩, ⟨"/b/z.ts"⟩], true,
        some (some ⟨"/b/z.ts"⟩)) := by
    decide +kernel
  obtain ⟨P, hP, facts⟩ := Option.map_eq_some_iff.mp evaluated
  have created : crossing.1 = .ok P := by
    cases hresult : crossing.1 with
    | error e => simp [hresult, Except.toOption] at hP
    | ok Q =>
      rw [hresult] at hP
      exact congrArg Except.ok (Option.some.inj hP)
  simp only [Prod.mk.injEq, decide_eq_true_eq] at facts
  obtain ⟨paths, inside, last⟩ := facts
  have agrees : crossing.2.Agrees (.ofFiles (.memory crossingFiles) ⟨"/"⟩) := by
    obtain ⟨ps, hps⟩ := Scanning.createProgram_host [⟨"/b/z.ts"⟩, ⟨"/b/r.ts"⟩, ⟨"/a/z.ts"⟩] .empty
      none (.ofFiles (.memory crossingFiles) ⟨"/"⟩)
    exact hps ▸ Host.agrees_retainAll _ ps
  have found := listAll_eq_ofChanged created agrees fun f hf key t hkey =>
    inside f hf t (mem_resolved_iff.mpr ⟨key, hkey⟩)
  exact ⟨P, created, paths, found.1, (found.2 "./z").trans last⟩

end Route

end Precompile
