import Precompile.Proofs.Factory.Collision
import Precompile.Proofs.Host.Resolution

/-!
Where the specifier of a factory leads.

Written behind the directory of the factory, the specifier has the climbs and the names by which the
source is seen from there, but for the ending. So it leads to the source itself where these are
climbs only, and otherwise to the source without its ending (`moduleStem_importSpecifier`). The host
tries this place before those with an ending, and so gives the source exactly if there is no file
without the ending (`resolve?_importSpecifier`).
-/

namespace Precompile.Factory

open Precompile.Path

/-- A source without its ending. -/
def bare (source : Path) : Path := ⟨Route.withoutEnding source⟩

variable {source target : Path} {front dirs : List String} {stem : String}

/-! ### Without the ending -/

theorem withoutEnding_of_script {p : Path} {cs : List Char} (hp : p.text.toList = cs ++ ".ts".toList) :
    (Route.withoutEnding p).toList = cs := by
  rw [Route.withoutEnding, hp, ModuleReference.stripSuffix?_append]
  exact String.toList_ofList

theorem withoutEnding_of_other {p : Path} (hp : ¬ ".ts".toList <:+ p.text.toList) :
    Route.withoutEnding p = p.text := by
  rw [Route.withoutEnding, ModuleReference.stripSuffix?_eq_none hp]

/-- The ending is taken off the last part. -/
theorem withoutEnding_joinSlash {p : Path} (lead : List Char) {pieces : List (List Char)}
    (hp : p.text.toList = lead ++ joinSlash (pieces ++ [(stem ++ ".ts").toList])) :
    (Route.withoutEnding p).toList = lead ++ joinSlash (pieces ++ [stem.toList]) := by
  obtain ⟨above, hjoin⟩ := exists_joinSlash_concat pieces
  rw [hjoin, String.toList_append, ← List.append_assoc, ← List.append_assoc] at hp
  rw [withoutEnding_of_script hp, hjoin, List.append_assoc]

theorem filterMap_concat {parts : List Component} (h : ∀ c ∈ parts, c.IsPart) {last : List Char}
    (hlast : '/' ∉ last) :
    (splitSlash (joinSlash (parts.map (fun c => c.text.toList) ++ [last]))).filterMap componentOf =
      parts ++ (componentOf last).toList := by
  rw [splitSlash_joinSlash (by simp), List.filterMap_append, filterMap_parts h]
  · cases hc : componentOf last <;> simp [hc]
  · intro piece hpiece
    rcases List.mem_append.mp hpiece with hpiece | hpiece
    · obtain ⟨c, hc, rfl⟩ := List.mem_map.mp hpiece
      exact (h c hc).2
    · exact List.mem_singleton.mp hpiece ▸ hlast

theorem slash_not_mem_stem (hsource : source.IsAt (front ++ [stem ++ ".ts"])) : '/' ∉ stem.toList := by
  have hlast := (hsource.isPart (List.mem_append_right front List.mem_cons_self)).2
  simp_all [Component.text]

theorem toList_bare (hsource : source.IsAt (front ++ [stem ++ ".ts"])) :
    (bare source).text.toList = '/' :: joinSlash ((front ++ [stem]).map String.toList) := by
  rw [List.map_append, List.map_singleton]
  refine withoutEnding_joinSlash ['/'] ?_
  rw [hsource.toList_text, List.map_append]
  rfl

theorem components_bare (hsource : source.IsAt (front ++ [stem ++ ".ts"])) :
    (bare source).components =
      .root :: front.map .name ++ (componentOf stem.toList).toList := by
  have parts : ∀ c ∈ front.map Component.name, c.IsPart :=
    isPart_of_mem_names fun s hs => hsource.isPart (List.mem_append_left _ hs)
  have text := toList_bare hsource
  rw [List.map_append, List.map_singleton, toList_names] at text
  have components := components_append_slash [] (joinSlash
    ((front.map Component.name).map (fun c => c.text.toList) ++ [stem.toList]))
  rw [List.nil_append, ← text, String.ofList_toList, if_pos rfl,
    filterMap_concat parts (slash_not_mem_stem hsource)] at components
  exact components

theorem text_eq_bare (hsource : source.IsAt (front ++ [stem ++ ".ts"])) :
    source.text = (bare source).text ++ ".ts" := by
  obtain ⟨above, hjoin⟩ := exists_joinSlash_concat (front.map String.toList)
  have text : source.text.toList = '/' :: (above ++ stem.toList) ++ ".ts".toList := by
    rw [hsource.toList_text, List.map_append, List.map_singleton, hjoin]
    simp
  apply String.toList_injective
  rw [String.toList_append, text, bare, withoutEnding_of_script text]

/-! ### The specifier -/

theorem isRelative_importSpecifier (source target : Path) :
    Script.isRelativeSpecifier (importSpecifier source target) = true := by
  unfold importSpecifier Script.isRelativeSpecifier
  dsimp only
  split
  next h => simpa [or_comm] using h
  next => simp [String.startsWith_string_iff]

theorem isAbsolute_of_isRelative {specifier : String}
    (h : Script.isRelativeSpecifier specifier = true) : isAbsolute ⟨specifier⟩ = false := by
  rw [Bool.eq_false_iff]
  intro absolute
  obtain ⟨body, hbody⟩ := exists_toList_of_isAbsolute absolute
  rw [Script.isRelativeSpecifier, Bool.or_eq_true, String.startsWith_string_iff,
    String.startsWith_string_iff, hbody] at h
  simp at h

/-- A `.` that comes first leads nowhere else. -/
theorem filterMap_importSpecifier (source target : Path) :
    (splitSlash (importSpecifier source target).toList).filterMap componentOf =
      (splitSlash (Route.withoutEnding
        (source.relativeTo (directoryOf target))).toList).filterMap componentOf := by
  unfold importSpecifier
  dsimp only
  generalize Route.withoutEnding (source.relativeTo (directoryOf target)) = written
  split
  · rfl
  · have text : ("./" ++ written).toList = ['.'] ++ '/' :: written.toList := by simp
    have none : componentOf ['.'] = none := by decide
    rw [text, splitSlash_append_slash (by decide), List.filterMap_cons_none none]

/-! ### Where it leads -/

theorem components_join_importSpecifier (hd : (directoryOf target).IsAt dirs) :
    ((directoryOf target).join ⟨importSpecifier source target⟩).components =
      .root :: dirs.map .name ++ (splitSlash (Route.withoutEnding
        (source.relativeTo (directoryOf target))).toList).filterMap componentOf := by
  have there : (directoryOf target).text ≠ "" := by
    intro empty
    have text := hd.toList_text
    simp [empty] at text
  have relative := isAbsolute_of_isRelative (isRelative_importSpecifier source target)
  rw [components_join_of_relative there relative, hd.components_eq, filterMap_importSpecifier]

/-- A source that the factory lies below is reached by climbs. -/
theorem join_importSpecifier_of_above {names : List String} (hd : (directoryOf target).IsAt dirs)
    (hsource : source.IsAt names) (above : names <+: dirs) :
    ((directoryOf target).join ⟨importSpecifier source target⟩).normalize = source := by
  have whole := (take_append_seenFrom dirs names).2
  have relative := hd.toList_relativeTo hsource
  rw [(seenFrom_eq_nil_iff dirs names).mpr above] at whole relative
  generalize (seenFrom dirs names).1 = climbs at whole relative
  have parts : ∀ c ∈ climb climbs [], c.IsPart := isPart_of_mem_climb climbs (by simp)
  have other : ¬ ".ts".toList <:+ (source.relativeTo (directoryOf target)).text.toList := by
    rw [relative]
    cases climbs with
    | zero => decide
    | succ climbs =>
      rw [toList_climb_succ, suffix_joinSlash_iff (by decide)]
      decide
  have climbed : (splitSlash (Route.withoutEnding
      (source.relativeTo (directoryOf target))).toList).filterMap componentOf = climb climbs [] := by
    rw [withoutEnding_of_other other, relative]
    cases climbs with
    | zero => rfl
    | succ climbs => rw [splitSlash_parts (by simp [climb]) parts, filterMap_parts parts]
  refine IsAt.path_eq (isAt_normalize ?_) hsource
  rw [components_join_importSpecifier hd, climbed, normalComponents_climb, whole]

/-- Any other source is reached without its ending. -/
theorem join_importSpecifier_of_apart (hd : (directoryOf target).IsAt dirs)
    (hsource : source.IsAt (front ++ [stem ++ ".ts"])) (apart : ¬ front ++ [stem ++ ".ts"] <+: dirs) :
    ((directoryOf target).join ⟨importSpecifier source target⟩).normalize =
      (bare source).normalize := by
  have whole := (take_append_seenFrom dirs (front ++ [stem ++ ".ts"])).2
  have relative := hd.toList_relativeTo hsource
  have inside : ∀ s ∈ (seenFrom dirs (front ++ [stem ++ ".ts"])).2, (Component.name s).IsPart :=
    fun s hs => hsource.isPart (mem_of_mem_seenFrom hs)
  rw [← seenFrom_eq_nil_iff] at apart
  generalize seenFrom dirs (front ++ [stem ++ ".ts"]) = seen at whole relative inside apart
  obtain ⟨climbs, own⟩ := seen
  obtain ⟨mid, last, rfl⟩ := (List.eq_nil_or_concat' own).resolve_left apart
  rw [← List.append_assoc] at whole
  obtain ⟨hfront, rfl⟩ := List.append_singleton_inj.mp whole
  have parts : ∀ c ∈ climb climbs mid, c.IsPart :=
    isPart_of_mem_climb climbs fun s hs => inside s (List.mem_append_left _ hs)
  have climbed : (splitSlash (Route.withoutEnding
      (source.relativeTo (directoryOf target))).toList).filterMap componentOf =
      climb climbs mid ++ (componentOf stem.toList).toList := by
    rw [toList_climb_concat] at relative
    rw [withoutEnding_joinSlash [] relative, List.nil_append,
      filterMap_concat parts (slash_not_mem_stem hsource)]
  rw [Path.normalize, Path.normalize, components_join_importSpecifier hd, climbed, components_bare hsource,
    ← List.append_assoc, normalComponents_append, normalComponents_climb, hfront,
    normalComponents_append (.root :: front.map .name)]
  have settled := normalComponents_append_names [.root] front
  rw [List.singleton_append] at settled
  rw [settled]
  rfl

/-! ### The file that is found -/

theorem moduleStem_importSpecifier {name : String} (h : Host) (source : Path)
    (htarget : target.IsAt (dirs ++ [name])) :
    (directoryOf target).IsAt dirs ∧ h.moduleStem (importSpecifier source target) target =
      ((directoryOf target).join ⟨importSpecifier source target⟩).normalize := by
  obtain ⟨d, parent, hd⟩ := htarget.exists_parent
  have directory : directoryOf target = d := by simp [directoryOf, parent]
  have relative : Host.isRelative (importSpecifier source target) = true := by
    simp [Host.isRelative, isRelative_importSpecifier]
  rw [Host.moduleStem, relative, directory, parent]
  exact ⟨hd, rfl⟩

/-- The source is found if it is tried first, or if there is no file without its ending. -/
theorem resolve?_importSpecifier {h : Host} {name : String} (htarget : target.IsAt (dirs ++ [name]))
    (hsource : source.IsAt (front ++ [stem ++ ".ts"])) (file : h.cache.isFile source = true)
    (named : (bare source).IsNormal) :
    h.resolve? (importSpecifier source target) target = some source ↔
      (directoryOf target).startsWith source = true ∨ h.cache.isFile (bare source) = false := by
  obtain ⟨hd, hstem⟩ := moduleStem_importSpecifier h source htarget
  rw [Host.resolve?_eq_find?, hstem, hsource.startsWith_iff hd]
  by_cases above : front ++ [stem ++ ".ts"] <+: dirs
  · rw [join_importSpecifier_of_above hd hsource above]
    simp [Host.candidates, Host.moduleEndings, above, file]
  · have settled : (bare source).normalize = bare source := named
    have second : (⟨(bare source).text ++ ".ts"⟩ : Path) = source :=
      congrArg Path.mk (text_eq_bare hsource).symm
    rw [join_importSpecifier_of_apart hd hsource above, settled]
    cases hbare : h.cache.isFile (bare source) with
    | false => simp [Host.candidates, Host.moduleEndings, hbare, second, file]
    | true =>
      have other : bare source ≠ source := by
        intro same
        have text := text_eq_bare hsource
        rw [same] at text
        simpa using congrArg (fun s => s.toList.length) text
      simp [Host.candidates, Host.moduleEndings, hbare, other, above]

end Precompile.Factory
