import Precompile.Proofs.Factory.Place
import Precompile.Proofs.Path.Climbing
import Precompile.Proofs.Route.Reference

/-!
Sources whose factories have one place.

A source below the base path has its factory at the same names below the directory of generated
files, and no other one below it has it there. A source outside is named by climbs, and these take
away names of the directory of generated files as if they were names of the base path. So two sources
share a place when one of them lies where the directory itself would be found that way (`Meets`), and
only then (`factoryPath_eq_iff`).
-/

namespace Precompile.Factory

open Precompile.Path

/-- How far a source climbs out of the base path, and what it is called from there. The base path
itself, and the paths above it, have no name there: theirs is the ending behind what is written
instead. -/
def outward (base source : List String) : Nat × List String :=
  match seenFrom base source with
  | (0, []) => (0, [".ts"])
  | (climbs + 1, []) => (climbs, ["...ts"])
  | (climbs, own) => (climbs, own)

/-- Where a source would be if it were moved to the directory of generated files. -/
def moved (gen base source : List String) : List String :=
  gen.take (gen.length - (outward base source).1) ++ (outward base source).2

/-- The second source climbs no further than the first one does, and the first one is called by the
names of the directory that it climbs out of and the second one does not, and then by the name of the
second one. -/
def Meets (gen base source other : List String) : Prop :=
  (outward base other).1 ≤ (outward base source).1 ∧
    (outward base source).2 =
      (gen.take (gen.length - (outward base other).1)).drop (gen.length - (outward base source).1) ++
        (outward base other).2

variable {o : BuildOptions} {source other : Path} {base gen names more : List String}

/-! ### Names of scripts -/

/-- A path ends as its last name does. -/
theorem suffix_text_iff {p : Path} {front : List String} {last ending : String}
    (hp : p.IsAt (front ++ [last])) (hslash : '/' ∉ ending.toList) :
    ending.toList <:+ p.text.toList ↔ ending.toList <:+ last.toList := by
  have text : p.text.toList = joinSlash (([] :: front.map String.toList) ++ [last.toList]) := by
    rw [hp.toList_text, List.cons_append, joinSlash_cons (by simp)]
    simp
  rw [text, suffix_joinSlash_iff hslash]

theorem exists_script {p : Path} (hp : p.IsAt names) (script : ".ts".toList <:+ p.text.toList) :
    ∃ front stem, names = front ++ [stem ++ ".ts"] := by
  rcases List.eq_nil_or_concat' names with rfl | ⟨front, last, rfl⟩
  · -- the root has no such ending
    rw [hp.toList_text] at script
    exact absurd script (by decide)
  · obtain ⟨stem, hstem⟩ := (suffix_text_iff hp (by decide)).mp script
    have hlast : last = String.ofList stem ++ ".ts" := by
      apply String.toList_injective
      simp [← hstem]
    exact ⟨front, String.ofList stem, by rw [hlast]⟩

/-- The last name of an input has the ending of scripts, and not that of declaration files. -/
theorem exists_script_of_isInput (hp : source.IsAt names) (input : isInput o source = true) :
    ∃ front stem, names = front ++ [stem ++ ".ts"] ∧ ¬ ".d.ts".toList <:+ (stem ++ ".ts").toList := by
  have script : source.text.endsWith ".ts" = true := by
    simp only [isInput, Bool.and_eq_true] at input
    exact input.1.1
  have declaration : ¬ source.text.endsWith ".d.ts" = true := by
    simp only [isInput, Bool.and_eq_true, Bool.not_eq_true'] at input
    simp [show source.text.endsWith ".d.ts" = false from input.1.2]
  rw [endsWith_iff] at script declaration
  obtain ⟨front, stem, rfl⟩ := exists_script hp script
  exact ⟨front, stem, rfl, fun ending => declaration ((suffix_text_iff hp (by decide)).mpr ending)⟩

theorem toList_climb_concat (climbs : Nat) (names : List String) (s : String) :
    (climb climbs (names ++ [s])).map (fun c => c.text.toList) =
      (climb climbs names).map (fun c => c.text.toList) ++ [s.toList] := by
  simp [climb, Component.text]

theorem toList_climb_succ (climbs : Nat) :
    (climb (climbs + 1) []).map (fun c => c.text.toList) =
      (climb climbs []).map (fun c => c.text.toList) ++ ["..".toList] := by
  simp [climb, List.replicate_succ', Component.text]

theorem stem_of_other {cs : List Char} (h : ¬ ".ts".toList <:+ cs) : FactoryPlan.stem cs = cs := by
  have declaration : ¬ ".d.ts".toList <:+ cs := fun suffix => h (List.IsSuffix.trans (by decide) suffix)
  rw [FactoryPlan.stem, ModuleReference.stripSuffix?_eq_none declaration,
    ModuleReference.stripSuffix?_eq_none h]
  rfl

/-- What is put in front of the mark of factories is what is left of the name that the source has
from the base path. -/
theorem exists_outward (hbase : o.basePath.IsAt base) (hsource : source.IsAt names)
    (input : isInput o source = true) :
    ∃ climbs front stem, outward base names = (climbs, front ++ [stem ++ ".ts"]) ∧
      (∀ s ∈ front ++ [stem], '/' ∉ s.toList) ∧ (∀ s ∈ front, (Component.name s).IsPart) ∧
      FactoryPlan.stem (source.relativeTo o.basePath).text.toList =
        joinSlash ((climb climbs front).map (fun c => c.text.toList) ++ [stem.toList]) := by
  rw [hbase.toList_relativeTo hsource]
  have inside : ∀ s ∈ (seenFrom base names).2, (Component.name s).IsPart :=
    fun s hs => hsource.isPart (mem_of_mem_seenFrom hs)
  have whole := (take_append_seenFrom base names).2
  unfold outward
  generalize seenFrom base names = seen at inside whole ⊢
  obtain ⟨climbs, own⟩ := seen
  rcases List.eq_nil_or_concat' own with rfl | ⟨mid, last, rfl⟩
  · cases climbs with
    | zero => exact ⟨0, [], "", rfl, by simp, by simp, by decide⟩
    | succ climbs =>
      refine ⟨climbs, [], "..", rfl, by decide, by simp, ?_⟩
      rw [toList_climb_succ, stem_of_other]
      rw [suffix_joinSlash_iff (by decide)]
      decide
  · obtain ⟨front, stem, hnames, declaration⟩ := exists_script_of_isInput hsource input
    have hlast : last = stem ++ ".ts" := by
      rw [hnames, ← List.append_assoc] at whole
      exact (List.append_singleton_inj.mp whole).2
    subst hlast
    have hslash : '/' ∉ (stem ++ ".ts").toList := (inside _ (by simp)).2
    refine ⟨climbs, mid, stem, by simp, ?_, fun s hs => inside s (by simp [hs]), ?_⟩
    · intro s hs
      rcases List.mem_append.mp hs with hs | hs
      · exact (inside s (by simp [hs])).2
      · simp_all
    · obtain ⟨above, hjoin⟩ :=
        exists_joinSlash_concat ((climb climbs mid).map fun c => c.text.toList)
      have hdeclaration : ¬ ".d.ts".toList <:+ (above ++ stem.toList) ++ ".ts".toList := by
        rwa [List.append_assoc, ← String.toList_append, ← hjoin, suffix_joinSlash_iff (by decide)]
      rw [toList_climb_concat, hjoin, hjoin, String.toList_append, ← List.append_assoc,
        stem_append_script hdeclaration]

/-- The factory is at the names that the source would be moved to, with the mark in the last one. -/
theorem exists_isAt_factoryPath (hbase : o.basePath.IsAt base) (hgen : o.genDir.IsAt gen)
    (hsource : source.IsAt names) (input : isInput o source = true) :
    ∃ front stem, moved gen base names = front ++ [stem ++ ".ts"] ∧
      ((planOf o).factoryPath source).IsAt (front ++ [stem ++ ".ngfactory.ts"]) := by
  obtain ⟨climbs, front, stem, houtward, hslash, parts, hstem⟩ := exists_outward hbase hsource input
  refine ⟨gen.take (gen.length - climbs) ++ front, stem, by simp [moved, houtward], ?_⟩
  rw [List.append_assoc]
  apply hgen.normalize_join
  · simp [climb]
  · intro s hs
    rcases List.mem_append.mp hs with hs | hs
    · exact parts s hs
    · rw [List.mem_singleton.mp hs]
      exact isPart_name (by simp [hslash stem (by simp)]) (by simp)
  · obtain ⟨above, hjoin⟩ :=
      exists_joinSlash_concat ((climb climbs front).map fun c => c.text.toList)
    rw [hjoin] at hstem
    rw [toList_climb_concat, hjoin]
    simp [planOf, hstem, FactoryPlan.mark]

/-! ### One place for two sources -/

theorem take_append_eq_iff {k n : Nat} (h : k ≤ n) (xs ys : List String) :
    gen.take k ++ xs = gen.take n ++ ys ↔ xs = (gen.take n).drop k ++ ys := by
  have split := List.take_append_drop k (gen.take n)
  rw [List.take_take, Nat.min_eq_left h] at split
  conv_lhs => rw [← split, List.append_assoc, List.append_cancel_left_eq]

theorem moved_eq_iff_of_le (h : (outward base more).1 ≤ (outward base names).1) :
    moved gen base names = moved gen base more ↔ Meets gen base names more := by
  rw [moved, moved, take_append_eq_iff (by omega), Meets]
  simp [h]

theorem moved_eq_iff : moved gen base names = moved gen base more ↔
    Meets gen base names more ∨ Meets gen base more names := by
  constructor
  · intro same
    rcases Nat.le_total (outward base more).1 (outward base names).1 with h | h
    · exact .inl ((moved_eq_iff_of_le h).mp same)
    · exact .inr ((moved_eq_iff_of_le h).mp same.symm)
  · rintro (meets | meets)
    · exact (moved_eq_iff_of_le meets.1).mpr meets
    · exact ((moved_eq_iff_of_le meets.1).mpr meets).symm

/-- Below the base path a source is moved to its own names. -/
theorem moved_of_below {s : String} : moved gen base (base ++ s :: names) = gen ++ s :: names := by
  simp [moved, outward, seenFrom_append]

theorem eq_of_moved_eq (hbase : o.basePath.IsAt base) (hsource : source.IsAt names)
    (hother : other.IsAt more) (below : o.basePath.Below source) (below' : o.basePath.Below other)
    (same : moved gen base names = moved gen base more) : source = other := by
  obtain ⟨s, rest, hs⟩ := (hbase.below_iff hsource.normal).mp below
  obtain ⟨t, rest', ht⟩ := (hbase.below_iff hother.normal).mp below'
  rw [hsource.names_eq hs, hother.names_eq ht, moved_of_below, moved_of_below,
    List.append_cancel_left_eq] at same
  rw [← same] at ht
  exact hs.path_eq ht

/-- Two sources have their factories at one place exactly when one of them is called by the names of
the directory of generated files that it climbs out of and the other one does not, and then by the
name of that other one. Below the base path there are no two such sources. -/
theorem factoryPath_eq_iff (hbase : o.basePath.IsAt base) (hgen : o.genDir.IsAt gen)
    (hsource : source.IsAt names) (hother : other.IsAt more) (input : isInput o source = true)
    (input' : isInput o other = true) :
    ((planOf o).factoryPath source = (planOf o).factoryPath other ↔
      Meets gen base names more ∨ Meets gen base more names) ∧
    (o.basePath.Below source → o.basePath.Below other →
      (planOf o).factoryPath source = (planOf o).factoryPath other → source = other) := by
  obtain ⟨front, stem, hmoved, hplace⟩ := exists_isAt_factoryPath hbase hgen hsource input
  obtain ⟨front', stem', hmoved', hplace'⟩ := exists_isAt_factoryPath hbase hgen hother input'
  have places : (planOf o).factoryPath source = (planOf o).factoryPath other ↔
      moved gen base names = moved gen base more := by
    rw [hmoved, hmoved']
    constructor
    · intro same
      have same := hplace.names_eq_of_same hplace' (by rw [same]; rfl)
      simpa [List.append_inj'] using same
    · intro same
      have same : front = front' ∧ stem = stem' := by simpa using same
      rw [← same.1, ← same.2] at hplace'
      exact hplace.path_eq hplace'
  refine ⟨places.trans moved_eq_iff, fun below below' same => ?_⟩
  exact eq_of_moved_eq hbase hsource hother below below' (places.mp same)

/-- Generated files are put into a directory of the base path, and beside the base path there is
another directory of its name. -/
def namesakeOptions : BuildOptions :=
  { (default : BuildOptions) with
    basePath := ⟨"/a/b"⟩
    genDir := ⟨"/a/b/g"⟩ }

theorem factoryPath_eq_of_namesake :
    (planOf namesakeOptions).factoryPath ⟨"/a/g/x.ts"⟩ =
      (planOf namesakeOptions).factoryPath ⟨"/a/b/x.ts"⟩ := by
  have base : namesakeOptions.basePath.IsAt ["a", "b"] := ⟨by decide +kernel, by decide +kernel⟩
  have gen : namesakeOptions.genDir.IsAt ["a", "b", "g"] := ⟨by decide +kernel, by decide +kernel⟩
  have outside : IsAt ⟨"/a/g/x.ts"⟩ ["a", "g", "x.ts"] := ⟨by decide +kernel, by decide +kernel⟩
  have inside : IsAt ⟨"/a/b/x.ts"⟩ ["a", "b", "x.ts"] := ⟨by decide +kernel, by decide +kernel⟩
  have meets : Meets ["a", "b", "g"] ["a", "b"] ["a", "g", "x.ts"] ["a", "b", "x.ts"] :=
    ⟨by decide, by decide⟩
  exact (factoryPath_eq_iff base gen outside inside (by decide +kernel) (by decide +kernel)).1.mpr
    (.inl meets)

def namesakeFiles : MemoryFiles :=
  [(⟨"/a/b/x.ts"⟩, "@NgModule() class B"), (⟨"/a/g/x.ts"⟩, "@NgModule() class G")].foldl
    (fun (m : MemoryFiles) f => m.insert f.1 f.2) .empty

def namesakeProgram : Program :=
  ⟨[⟨"/a/b/x.ts"⟩, ⟨"/a/g/x.ts"⟩],
    .ofList [(⟨"/a/b/x.ts"⟩, "@NgModule() class B"), (⟨"/a/g/x.ts"⟩, "@NgModule() class G")], .empty⟩

/-- Both sources are normal inputs with a class that gets a factory, but one factory is written: that
of the second source, at the place of the first one's. -/
theorem namesake_factory_is_lost :
    let h := Host.ofFiles (.memory namesakeFiles) ⟨"/a/b"⟩
    let written := (generate namesakeOptions .ofFiles namesakeProgram h).2.cache.writtenFiles
    (∀ p ∈ [Path.mk "/a/b/x.ts", ⟨"/a/g/x.ts"⟩], p.isAbsolute = true ∧ p.IsNormal ∧
      isInput namesakeOptions p = true) ∧
    (reachedFiles namesakeOptions namesakeProgram h).map (fun f =>
        (f.path.text, (decoratedClasses f).map DecoratedClass.name)) =
      [("/a/b/x.ts", ["B"]), ("/a/g/x.ts", ["G"])] ∧
    (planOf namesakeOptions).factoryPath ⟨"/a/b/x.ts"⟩ = ⟨"/a/b/g/x.ngfactory.ts"⟩ ∧
    (planOf namesakeOptions).factoryPath ⟨"/a/g/x.ts"⟩ = ⟨"/a/b/g/x.ngfactory.ts"⟩ ∧
    written.map (fun w => (w.path.text, w.content)) = [("/a/b/g/x.ngfactory.ts",
      (render ⟨"/a/g/x.ts"⟩ ⟨"/a/b/g/x.ngfactory.ts"⟩ [⟨"G", []⟩] none))] := by
  decide +kernel

end Precompile.Factory
