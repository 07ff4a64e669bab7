import Precompile.Config.Resolve
import Precompile.Proofs.Pattern.Regex

/-!
Which paths a filter excludes.

A filter that could be made holds one glob for each pattern, all seen from one base
(`globs_of_make`), so it excludes what a pattern selects (`isExcluded_iff`,
`isExcluded_iff_selects`).
-/

namespace Precompile

namespace Glob

theorem readAll_cons (pattern : String) (patterns : List String) (base : Path) :
    readAll (pattern :: patterns) base =
      if (parse pattern (some base)).fits then
        (readAll patterns base).map (parse pattern (some base) :: ·)
      else .error (.oversizedGlob pattern) := by
  by_cases fits : (parse pattern (some base)).fits = true
  · simp only [readAll, List.mapM_cons, if_pos fits]
    rfl
  · simp only [readAll, List.mapM_cons, if_neg fits]
    rfl

theorem eq_map_of_readAll {patterns : List String} {base : Path} {globs : List Glob}
    (read : readAll patterns base = .ok globs) :
    globs = patterns.map fun pattern => parse pattern (some base) := by
  induction patterns generalizing globs with
  | nil => cases read; rfl
  | cons pattern patterns ih =>
    rw [readAll_cons] at read
    split at read
    · cases rest : readAll patterns base with
      | error e => simp [rest, Except.map] at read
      | ok gs =>
        simp only [rest, Except.map, Except.ok.injEq] at read
        rw [← read, List.map_cons, ← ih rest]
    · cases read

end Glob

namespace ExcludeFilter

theorem globs_of_make {patterns : Option (List String)} {base : Path} {f : ExcludeFilter}
    (made : make patterns base = .ok f) :
    f.globs = (patterns.getD defaultPatterns).map fun pattern => Glob.parse pattern (some base) := by
  unfold make at made
  cases read : Glob.readAll (patterns.getD defaultPatterns) base with
  | error e => simp [read, Except.map] at made
  | ok globs =>
    simp only [read, Except.map, Except.ok.injEq] at made
    rw [← made]
    exact Glob.eq_map_of_readAll read

/-- A path is excluded if one of the globs selects it. -/
theorem isExcluded_iff {patterns : Option (List String)} {base : Path} {f : ExcludeFilter}
    (made : make patterns base = .ok f) (p : Path) :
    f.isExcluded p = true ↔ ∃ pattern ∈ patterns.getD defaultPatterns,
      Glob.Selects (Glob.trimSlashes (Glob.forwardSlashes base.text.toList)) pattern
        (Glob.forwardSlashes p.text.toList) := by
  simp only [isExcluded, Glob.someMatches, globs_of_make made, List.any_map, List.any_eq_true,
    Function.comp, Glob.matchesPath_parse_iff]

/-- A path is excluded if one of the globs selects it, seen from the base with slashes for its
backslashes and without slashes at its end, and so if the regular expression of one of them finds
it. -/
theorem isExcluded_iff_selects {patterns : Option (List String)} {base : Path} {f : ExcludeFilter}
    (made : make patterns base = .ok f) (p : Path) :
    (f.isExcluded p = true ↔ ∃ pattern ∈ patterns.getD defaultPatterns,
      Glob.Selects (Glob.trimSlashes (Glob.forwardSlashes base.text.toList)) pattern
        (Glob.forwardSlashes p.text.toList)) ∧
    (f.isExcluded p = true ↔ ∃ pattern ∈ patterns.getD defaultPatterns,
      ∃ r, Regex.read? (Glob.parse pattern (some base)).regex = some r ∧
        r.Finds (Glob.forwardSlashes p.text.toList)) := by
  have excluded := isExcluded_iff made p
  refine ⟨excluded, excluded.trans ?_⟩
  simp only [Glob.read?_regex, Option.some.injEq, exists_eq_left', Glob.finds_parse_iff]

/-- What regular expressions give a meaning stands for itself in globs and bases. -/
theorem isExcluded_specials :
    ∃ f, make (some ["**/a+b?.ts"]) ⟨"/p(1)/"⟩ = .ok f ∧
      f.isExcluded ⟨"/p(1)/x/a+bc.ts"⟩ = true ∧ f.isExcluded ⟨"/p(1)/x/aabc.ts"⟩ = false := by
  have made : make (some ["**/a+b?.ts"]) ⟨"/p(1)/"⟩ =
      .ok ⟨["**/a+b?.ts"], [Glob.parse "**/a+b?.ts" (some ⟨"/p(1)/"⟩)]⟩ := rfl
  have selects := fun p => (isExcluded_iff_selects made p).1
  exact ⟨_, made, (selects _).mpr (by decide),
    Bool.eq_false_iff.mpr (mt (selects _).mp (by decide))⟩

/-- A backslash in the base is a slash. -/
theorem isExcluded_backslash :
    ∃ f, make (some ["x.ts"]) ⟨"/a\\b"⟩ = .ok f ∧ f.isExcluded ⟨"/a\\b/x.ts"⟩ = true ∧
      ¬ ∃ pattern ∈ ["x.ts"], Glob.Selects (Glob.trimSlashes "/a\\b".toList) pattern
        (Glob.forwardSlashes "/a\\b/x.ts".toList) :=
  ⟨_, rfl, by decide, by decide⟩

end ExcludeFilter

end Precompile
