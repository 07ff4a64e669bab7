import Mathlib.Data.List.TakeWhile
import Precompile.Proofs.Route.Whole
import Precompile.Proofs.Scanning.Closure
import Precompile.Proofs.Script.Tokens
import Precompile.Scanning.Findings

/-!
# Imports that lead nowhere

The checker and the resolver look for what an import stands for in different places and in a
different order: the checker among the files of the program, the resolver among those that the host
has. They agree because creating a program follows whatever the resolver finds
(`leadsInto_iff_isSome_resolve?`). So the diagnostics of a file are the imports that the resolver
finds nothing for (`semanticDiagnostics_eq_unresolved`), unless the file has no directory: the
resolver then looks in the base path, and the checker does not (`resolved_but_reported`).
-/

namespace Precompile

/-! ### Paths with a directory -/

namespace Path

/-- A normal absolute path lies in a directory unless it is the root. -/
theorem IsNormal.exists_parent {p : Path} (h : p.IsNormal) (absolute : p.isAbsolute = true)
    (apart : p ≠ ⟨"/"⟩) : ∃ d, p.parent? = some d := by
  rcases h.cases with rfl | rfl | ⟨front, c, part, hcs, -⟩
  · simp [isAbsolute, lead, cut, splitSlash] at absolute
  · exact absurd rfl apart
  · have shaped := h.shaped
    rw [hcs] at shaped
    rw [h.eq_ofComponents, hcs, parent?_ofComponents shaped part]
    exact ⟨_, rfl⟩

end Path

/-! ### Files that can be read -/

/-- Reading a file may fail, but not for want of it. -/
theorem SourceCache.isNotFound_of_isFile {c : SourceCache} {p : Path} {e : ReadError}
    (file : c.isFile p = true) (failed : c.serve p = .error e) : e.isNotFound = false := by
  unfold serve at failed
  unfold isFile at file
  rw [OrderedMap.contains_eq_isSome_get?] at file
  cases held : c.entries.get? p.normalize with
  | some entry => simp [held] at failed
  | none =>
    rw [held] at failed file
    simp only [Option.isSome_none, Bool.false_or] at file
    cases e with
    | notFound q =>
      rw [FileSystem.isFile_of_notFound failed] at file
      cases file
    | _ => rfl

namespace Scanning

open Script (ImportRef scanImports)

variable {roots : List Path} {options : CompilerOptions} {previous : Option Program} {h g : Host}
  {P : Program} {f : SourceFile} {i : ImportRef}

/-- The files of a program are files of the host. -/
theorem isFile_of_contains (hP : (createProgram roots options previous h).1 = .ok P) {p : Path}
    (there : P.contains p = true) : h.cache.isFile p = true := by
  obtain ⟨⟨q, content⟩, hmem, same⟩ := OrderedMap.contains_iff.mp there
  have served := ((mem_entries_iff hP).mp hmem).2
  have hsame : q.normalize = p.normalize := Path.Same.normalize_eq same
  have file := SourceCache.isFile_of_serve served
  unfold SourceCache.isFile at file ⊢
  rwa [← hsame]

/-- What an import of a program's file stands for is a file of the program. -/
theorem contains_of_resolve? (hP : (createProgram roots options previous h).1 = .ok P)
    (hf : f ∈ P.sources) (hi : i ∈ scanImports f.tokens) (relative : i.isRelative = true) {r : Path}
    (resolved : h.resolve? i.specifier f.path = some r) : P.contains r = true := by
  have same := (Host.isSettled_of_resolve? resolved).normalize_same
  have reaches := ((mem_paths_iff hP).mp (Program.path_mem_paths hf)).1
  have source := source_of_file? hP (Program.file?_of_mem_sources hf)
  have target : r ∈ h.importTargets f :=
    List.mem_filterMap.mpr ⟨i, List.mem_filter.mpr ⟨hi, relative⟩, resolved⟩
  have reached : Reaches roots h r.normalize := .next reaches source (List.mem_map_of_mem target)
  cases served : h.cache.serve r.normalize with
  | ok content =>
    exact OrderedMap.contains_iff.mpr ⟨_, (mem_entries_iff hP).mpr ⟨reached, served⟩, same⟩
  | error e =>
    -- it is there, so the program could not have been created if it cannot be read
    have file : h.cache.isFile r.normalize = true := by
      have file := Host.isFile_of_resolve? resolved
      unfold SourceCache.isFile at file ⊢
      rwa [Path.normalize_normalize]
    have failed := Host.source_eq_error_iff.mpr
      ⟨served, SourceCache.isNotFound_of_isFile file served⟩
    exact absurd failed (exists_createProgram_iff.mp ⟨P, hP⟩ _ e reached)

/-- For a file in a directory the checker tries what the resolver tries, in another order. -/
theorem leadsInto_eq_any {d : Path} (hd : f.path.parent? = some d) (relative : i.isRelative = true) :
    leadsInto P f i = (Host.candidates (h.moduleStem i.specifier f.path)).any P.contains := by
  have relative' : Host.isRelative i.specifier = true := by
    unfold Host.isRelative
    rw [show Script.isRelativeSpecifier i.specifier = true from relative]
    rfl
  simp only [leadsInto, Host.moduleStem, relative', hd, if_true, Option.getD_some, Host.candidates,
    importEndings, Host.moduleEndings, List.map_cons, List.map_nil, List.any_cons, List.any_nil,
    Bool.or_false]
  generalize P.contains _ = bare
  generalize P.contains _ = script
  generalize P.contains _ = declaration
  generalize P.contains _ = index
  cases bare <;> cases script <;> cases declaration <;> cases index <;> rfl

/-- The checker and the resolver agree about a file in a directory. -/
theorem leadsInto_iff_isSome_resolve? (hP : (createProgram roots options previous h).1 = .ok P)
    (hf : f ∈ P.sources) {d : Path} (hd : f.path.parent? = some d)
    (hi : i ∈ scanImports f.tokens) (relative : i.isRelative = true) :
    leadsInto P f i = (h.resolve? i.specifier f.path).isSome := by
  rw [leadsInto_eq_any (h := h) hd relative, Bool.eq_iff_iff, List.any_eq_true]
  constructor
  · rintro ⟨p, hp, there⟩
    rw [Host.resolve?_eq_find?, List.find?_isSome]
    exact ⟨p, hp, isFile_of_contains hP there⟩
  · intro resolved
    obtain ⟨r, hr⟩ := Option.isSome_iff_exists.mp resolved
    exact ⟨r, List.mem_of_find?_eq_some hr, contains_of_resolve? hP hf hi relative hr⟩

/-! ### Diagnostics -/

/-- The relative imports of a file that a host finds nothing for, in the order of the file. -/
def unresolved (g : Host) (f : SourceFile) : List ImportRef :=
  (scanImports f.tokens).filter fun i =>
    i.isRelative && (g.resolve? i.specifier f.path).isNone

/-- What is said about an import: which module it is, the line it is in, and where its literal
starts and how long that is. -/
def missingModule (f : SourceFile) (i : ImportRef) : Diagnostic :=
  { Diagnostic.error .semantic 2307 s!"Cannot find module '{i.specifier}'." with
    location := some (f.location i.start)
    sourceLine := f.lineAt? i.start
    spanLength := i.stop - i.start }

/-- An import has a place to be shown at. -/
theorem inFile_eq_missingModule (stands : i.StandsIn f.content.toList) :
    (Diagnostic.error .semantic 2307 s!"Cannot find module '{i.specifier}'.").inFile f i.start i.stop =
      missingModule f i := by
  obtain ⟨line, hline⟩ := SourceFile.exists_lineAt? stands
  unfold Diagnostic.inFile Diagnostic.inFile? missingModule
  rw [hline]
  rfl

/-- The checker says of a file of a program which of its relative imports the resolver finds nothing
for, in order and each where its literal starts, however the path of the file is spelled. -/
theorem semanticDiagnostics_eq_unresolved
    (hP : (createProgram roots options previous h).1 = .ok P) (agrees : g.Agrees h) {p : Path}
    (hf : P.file? p.normalize = some f) (absolute : f.path.isAbsolute = true)
    (apart : f.path ≠ ⟨"/"⟩) :
    semanticDiagnostics P p = (unresolved g f).map (missingModule f) ∧
      (∀ i ∈ unresolved g f, i.StandsIn f.content.toList) ∧
      ∀ q : Path, q.normalize = p.normalize → semanticDiagnostics P q = semanticDiagnostics P p := by
  have listed := Program.mem_sources_of_file? hf
  have normal : f.path.IsNormal :=
    ((mem_paths_iff hP).mp (Program.path_mem_paths listed)).1.isNormal
  obtain ⟨d, hd⟩ := normal.exists_parent absolute apart
  have stands : ∀ i ∈ unresolved g f, i.StandsIn f.content.toList := fun i hi =>
    SourceFile.standsIn_of_mem_scanImports (List.mem_of_mem_filter hi)
  have same : ((scanImports f.tokens).filter fun i => i.isRelative && !leadsInto P f i) =
      unresolved g f := by
    refine List.filter_congr fun i hi => ?_
    cases relative : i.isRelative with
    | false => rfl
    | true =>
      rw [leadsInto_iff_isSome_resolve? hP listed hd hi relative, agrees.resolve?,
        Option.not_isSome]
  refine ⟨?_, stands, fun q hq => ?_⟩
  · unfold semanticDiagnostics
    rw [hf]
    simp only [same]
    exact List.map_congr_left fun i hi => inFile_eq_missingModule (stands i hi)
  · simp only [semanticDiagnostics, hq]

/-! ### Two programs -/

/-- What is found to hold of a result and of a file in it. -/
theorem exists_of_bind_toOption {ε : Type} {e : Except ε Program} {p : Path}
    {Q : Program → SourceFile → Bool}
    (h : (e.toOption.bind fun P => (P.file? p).map (Q P)) = some true) :
    ∃ P f, e = .ok P ∧ P.file? p = some f ∧ Q P f = true := by
  cases e with
  | error => cases h
  | ok P =>
    obtain ⟨f, hf, hQ⟩ := Option.map_eq_some_iff.mp h
    exact ⟨P, f, rfl, hf, hQ⟩

/-- A host with two files that import each other, the first one also something that is not there. -/
def circular : Host := .ofFiles (.memory circle) ⟨"/p"⟩

/-- Only the import that leads nowhere is reported, in its own line. -/
theorem semanticDiagnostics_circular : ∃ P f,
    (createProgram [⟨"/p/a.ts"⟩] .empty none circular).1 = .ok P ∧
    P.file? (Path.mk "/p/./a.ts").normalize = some f ∧
    (unresolved circular f).map ImportRef.specifier = ["./gone"] ∧
    semanticDiagnostics P ⟨"/p/./a.ts"⟩ = (unresolved circular f).map (missingModule f) ∧
    (semanticDiagnostics P ⟨"/p/./a.ts"⟩).map (fun d => (d.message, d.location)) =
      [("Cannot find module './gone'.", some ⟨⟨"/p/a.ts"⟩, 2, 8⟩)] := by
  obtain ⟨P, f, hP, hf, facts⟩ := exists_of_bind_toOption
    (e := (createProgram [⟨"/p/a.ts"⟩] .empty none circular).1)
    (p := (Path.mk "/p/./a.ts").normalize) (Q := fun P f => decide (f.path = ⟨"/p/a.ts"⟩ ∧
      (unresolved circular f).map ImportRef.specifier = ["./gone"] ∧
      (semanticDiagnostics P ⟨"/p/./a.ts"⟩).map (fun d => (d.message, d.location)) =
        [("Cannot find module './gone'.", some ⟨⟨"/p/a.ts"⟩, 2, 8⟩)])) (by decide +kernel)
  obtain ⟨path, gone, reported⟩ := of_decide_eq_true facts
  have agrees : circular.Agrees circular := ⟨fun _ => rfl, fun _ _ => rfl⟩
  have diagnostics := semanticDiagnostics_eq_unresolved hP agrees hf (by rw [path]; decide)
    (by rw [path]; decide)
  exact ⟨P, f, hP, hf, gone, diagnostics.1, reported⟩

/-- A host with a file that has no directory, and beside it in the base path what that file
imports. -/
def rooted : Host :=
  .ofFiles (.memory ((MemoryFiles.empty.insert ⟨"/"⟩ "import './a';").insert ⟨"/app/a.ts"⟩ ""))
    ⟨"/app"⟩

/-- The resolver finds what the file at the root imports, and it becomes part of the program; the
checker looks for it in another place and reports it as missing. -/
theorem resolved_but_reported : ∃ P f, (createProgram [⟨"/"⟩] .empty none rooted).1 = .ok P ∧
    P.paths = [⟨"/"⟩, ⟨"/app/a.ts"⟩] ∧ P.file? ⟨"/"⟩ = some f ∧ f.path.isAbsolute = true ∧
    rooted.resolve? "./a" f.path = some ⟨"/app/a.ts"⟩ ∧ unresolved rooted f = [] ∧
    (semanticDiagnostics P ⟨"/"⟩).map Diagnostic.message = ["Cannot find module './a'."] := by
  obtain ⟨P, f, hP, hf, facts⟩ := exists_of_bind_toOption
    (e := (createProgram [⟨"/"⟩] .empty none rooted).1) (p := ⟨"/"⟩)
    (Q := fun P f => decide (P.paths = [⟨"/"⟩, ⟨"/app/a.ts"⟩] ∧ f.path.isAbsolute = true ∧
      rooted.resolve? "./a" f.path = some ⟨"/app/a.ts"⟩ ∧ unresolved rooted f = [] ∧
      (semanticDiagnostics P ⟨"/"⟩).map Diagnostic.message = ["Cannot find module './a'."]))
    (by decide +kernel)
  obtain ⟨paths, facts⟩ := of_decide_eq_true facts
  exact ⟨P, f, hP, paths, hf, facts⟩

end Scanning

end Precompile
