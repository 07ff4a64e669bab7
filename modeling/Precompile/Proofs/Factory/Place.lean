import Precompile.Factory.Generator
import Precompile.Proofs.Path.Relative

/-!
Where factories are put.

The factory of a script below the base path lies below the directory of generated files
(`below_factoryPath`), and different scripts have different factories (`factoryPath_injective`): the
place tells the names of the script that come after the base path (`components_factoryPath`).
-/

namespace Precompile

theorem endsWith_iff {s ending : String} :
    s.endsWith ending = true ↔ ending.toList <:+ s.toList := by
  have h : s.endsWith ending = true ↔ ending.toList <:+ s.toSlice.copy.toList :=
    String.Slice.endsWith_string_iff
  rwa [String.copy_toSlice] at h

namespace Factory

open Precompile.Path

/-- Without the ending of scripts, a mark and that ending are put behind what is left. -/
theorem stem_append_script {front : List Char}
    (declaration : ¬ ".d.ts".toList <:+ front ++ ".ts".toList) :
    FactoryPlan.stem (front ++ ".ts".toList) = front := by
  have hdeclaration : ModuleReference.stripSuffix? ".d.ts".toList (front ++ ".ts".toList) = none := by
    rw [ModuleReference.stripSuffix?, if_neg]
    rwa [List.isSuffixOf_iff_suffix]
  have hscript : ModuleReference.stripSuffix? ".ts".toList (front ++ ".ts".toList) = some front := by
    rw [ModuleReference.stripSuffix?, if_pos]
    · simp
    · rw [List.isSuffixOf_iff_suffix]
      exact List.suffix_append front _
  rw [FactoryPlan.stem, hdeclaration, hscript]
  rfl

/-- A script below the base path that is no declaration file, under its normal path. -/
structure Covers (plan : FactoryPlan) (source : Path) : Prop where
  normal : source.IsNormal
  below : plan.base.Below source
  script : source.text.endsWith ".ts" = true
  declaration : source.text.endsWith ".d.ts" = false

variable {plan : FactoryPlan} {source : Path}

/-- The names of a covered script, and those of its factory. -/
theorem components_factoryPath (hbase : plan.base.isAbsolute = true) (covers : Covers plan source) :
    ∃ (names : List String) (name : String),
      source.components = plan.base.components ++ (names.map .name ++ [.name (name ++ ".ts")]) ∧
      (plan.factoryPath source).components = normalComponents plan.genDir.components ++
        (names.map .name ++ [.name (name ++ ".ngfactory.ts")]) := by
  obtain ⟨hsource, below, script, declaration⟩ := covers
  -- the names of the source are those of the base path and some more
  obtain ⟨c, rest, hrest⟩ := below
  obtain ⟨above, habove⟩ := isAbsolute_iff.mp hbase
  have habs : source.isAbsolute = true :=
    isAbsolute_iff.mpr ⟨above ++ c :: rest, by rw [hrest, habove]; rfl⟩
  obtain ⟨all, hall⟩ := hsource.exists_names habs
  rw [habove] at hrest
  obtain ⟨front, tail, rfl, rfl, htail⟩ :=
    List.map_eq_append_iff.mp (List.cons.inj (hall.symm.trans hrest)).2
  have hne : tail ≠ [] := by
    rintro rfl
    cases htail
  have parts : ∀ s ∈ front ++ tail, (Component.name s).IsPart := by
    intro s hs
    refine hsource.isPart_of_mem ?_
    rw [hall]
    exact List.mem_cons_of_mem _ (List.mem_map_of_mem hs)
  have hrelative := toList_relativeTo hsource habove hall hne
  have htext := hsource.toList_text hall
  obtain ⟨mid, last, rfl⟩ := (List.eq_nil_or_concat' tail).resolve_left hne
  -- both the source and what is left of it below the base path end with the last name
  have ends : ∀ ending : String, '/' ∉ ending.toList →
      (ending.toList <:+ source.text.toList ↔ ending.toList <:+ last.toList) := by
    intro ending hslash
    have hjoin : source.text.toList =
        joinSlash (([] :: (front ++ mid).map String.toList) ++ [last.toList]) := by
      rw [htext, List.cons_append, joinSlash_cons (by simp)]
      simp
    rw [hjoin, suffix_joinSlash_iff hslash]
  obtain ⟨stem, hstem⟩ := (ends ".ts" (by decide)).mp (endsWith_iff.mp script)
  have hlast : last = String.ofList stem ++ ".ts" := by
    apply String.toList_injective
    simp [← hstem]
  -- the factory is written as the same names but for the ending of the last one
  obtain ⟨above', hjoin⟩ := exists_joinSlash_concat (mid.map String.toList)
  have hdeclaration : ¬ ".d.ts".toList <:+ above' ++ stem ++ ".ts".toList := by
    intro hsuffix
    rw [List.append_assoc, hstem, ← hjoin, suffix_joinSlash_iff (by decide)] at hsuffix
    have := endsWith_iff.mpr ((ends ".d.ts" (by decide)).mpr hsuffix)
    simp [this] at declaration
  have hmarked : (String.ofList (FactoryPlan.stem (source.relativeTo plan.base).text.toList) ++
      FactoryPlan.mark ++ ".ts").toList =
      joinSlash ((mid ++ [String.ofList stem ++ ".ngfactory.ts"]).map String.toList) := by
    have hnames : (source.relativeTo plan.base).text.toList = above' ++ stem ++ ".ts".toList := by
      rw [hrelative, List.map_append, List.map_singleton, hjoin, ← hstem, List.append_assoc]
    rw [hnames, stem_append_script hdeclaration, List.map_append, List.map_singleton, hjoin]
    simp [FactoryPlan.mark]
  have marked : ∀ s ∈ mid ++ [String.ofList stem ++ ".ngfactory.ts"],
      (Component.name s).IsPart := by
    intro s hs
    rcases List.mem_append.mp hs with hs | hs
    · exact parts s (by simp [hs])
    · rw [List.mem_singleton.mp hs]
      have hslash : '/' ∉ stem := by
        have := (parts last (by simp)).2
        intro hmem
        exact this (by simp [Component.text, ← hstem, hmem])
      exact isPart_name (by simp [hslash]) (by simp)
  refine ⟨mid, String.ofList stem, ?_, ?_⟩
  · rw [hall, habove, ← hlast]
    simp
  · unfold FactoryPlan.factoryPath
    rw [components_normalize, components_join _ (lead_names (by simp) marked hmarked),
      components_names (by simp) marked hmarked, normalComponents_append_names]
    simp

/-- The factory of a covered script lies below the directory of generated files. -/
theorem below_factoryPath (hbase : plan.base.isAbsolute = true) (hdir : plan.genDir.IsNormal)
    (covers : Covers plan source) : plan.genDir.Below (plan.factoryPath source) := by
  obtain ⟨names, name, -, hplace⟩ := components_factoryPath hbase covers
  rw [hdir.isSettled] at hplace
  cases names with
  | nil => exact ⟨_, [], hplace⟩
  | cons s names => exact ⟨_, _, hplace⟩

/-- Different covered scripts have different factories. -/
theorem factoryPath_injective (hbase : plan.base.isAbsolute = true) {source' : Path}
    (covers : Covers plan source) (covers' : Covers plan source')
    (same : (plan.factoryPath source).Same (plan.factoryPath source')) : source = source' := by
  obtain ⟨names, name, hcs, hplace⟩ := components_factoryPath hbase covers
  obtain ⟨names', name', hcs', hplace'⟩ := components_factoryPath hbase covers'
  have hends := List.append_cancel_left (hplace.symm.trans (same.trans hplace'))
  obtain ⟨hnames, hname⟩ := List.append_singleton_inj.mp hends
  have hname' : name = name' := by simpa using hname
  refine covers.normal.eq_of_same covers'.normal ?_
  rw [Same, hcs, hcs', hnames, hname']

end Factory

end Precompile
