import Precompile.Proofs.Config.Exclusion
import Precompile.Proofs.Config.Resolve
import Precompile.Proofs.Scanning.Walk

/-!
# What a configuration names

A configuration is refused exactly when one of its sections has the wrong shape (`Misshapen`). If it
is read, its roots are the listed files and the scripts below the base that globs select
(`readConfig_selects`), and over another host only the scripts that are found differ
(`exists_readConfig_eq`). What is included by default is not everything: its glob does not go past a
line feed to a later slash (`Glob.selects_everything_iff`, `readConfig_of_line_feed`).
-/

namespace Precompile

namespace Scanning

open Precompile.Path (isAbsolute IsNormal)

variable {raw : Json} {base : Path} {h : Host} {key : String} {α β : Type}

/-! ### Shapes -/

/-- What a configuration lists under a key: nothing, or texts. -/
inductive Lists (raw : Json) (key : String) : Option (List String) → Prop where
  | absent : raw.get? key = none → Lists raw key none
  | null : raw.get? key = some .null → Lists raw key none
  | texts {texts : List String} : raw.get? key = some (.array (texts.map .string)) →
      Lists raw key (some texts)

/-- Under a key there is something that is no object. -/
def HoldsOther (raw : Json) (key : String) : Prop :=
  ∃ value, raw.get? key = some value ∧ value ≠ .null ∧ ∀ members, value ≠ .object members

/-- An option of code generation that is understood is no text. -/
def Mistyped (m : String × Json) : Prop :=
  m.1 ∈ ["genDir", "entryModule"] ∧ m.2 ≠ .null ∧ ∀ text, m.2 ≠ .string text

/-- A section of a configuration has the wrong shape. -/
inductive Misshapen (raw : Json) : Prop where
  | list {key : String} : key ∈ ["files", "include", "exclude"] →
      (∀ texts, ¬ Lists raw key texts) → Misshapen raw
  | options {key : String} : key ∈ ["compilerOptions", "angularCompilerOptions"] →
      HoldsOther raw key → Misshapen raw
  | member {members : List (String × Json)} {m : String × Json} :
      raw.get? "angularCompilerOptions" = some (.object members) → m ∈ members → Mistyped m →
      Misshapen raw

/-- A step fails in a certain way exactly if something is wrong, and gives a result otherwise. -/
def Checks {ε : Type} (Way : ε → Prop) (step : Except ε α) (wrong : Prop) : Prop :=
  (wrong ∧ ∃ e, step = .error e ∧ Way e) ∨ (¬ wrong ∧ ∃ a, step = .ok a)

namespace Checks

variable {ε : Type} {Way : ε → Prop} {step : Except ε α} {wrong wrong' : Prop}

theorem congr (checks : Checks Way step wrong) (same : wrong ↔ wrong') :
    Checks Way step wrong' := by
  unfold Checks
  rwa [← same]

theorem of_ok (a : α) : Checks Way (.ok a) False := .inr ⟨id, a, rfl⟩

theorem map (checks : Checks Way step wrong) (f : α → β) : Checks Way (step.map f) wrong := by
  rcases checks with ⟨hwrong, e, rfl, way⟩ | ⟨hright, a, rfl⟩
  · exact .inl ⟨hwrong, e, rfl, way⟩
  · exact .inr ⟨hright, f a, rfl⟩

theorem bind {next : α → Except ε β} (checks : Checks Way step wrong)
    (later : ∀ a, step = .ok a → Checks Way (next a) wrong') :
    Checks Way (step >>= next) (wrong ∨ wrong') := by
  rcases checks with ⟨hwrong, e, rfl, way⟩ | ⟨hright, a, rfl⟩
  · exact .inl ⟨.inl hwrong, e, rfl, way⟩
  · rcases later a rfl with ⟨hwrong, e, hnext, way⟩ | ⟨hright', b, hnext⟩
    · exact .inl ⟨.inr hwrong, e, hnext, way⟩
    · exact .inr ⟨fun hwrong => hwrong.elim hright hright', b, hnext⟩

theorem foldlM {next : β → α → Except ε β} {Wrong : α → Prop}
    (each : ∀ b a, Checks Way (next b a) (Wrong a)) (b : β) (as : List α) :
    Checks Way (as.foldlM next b) (∃ a ∈ as, Wrong a) := by
  induction as generalizing b with
  | nil => exact (of_ok b).congr (by simp)
  | cons a as ih =>
    rw [List.foldlM_cons]
    exact ((each b a).bind fun b' _ => ih b').congr (by simp)

end Checks

/-- The shape of a configuration is wrong. -/
def IsInvalid (e : ConfigError) : Prop := ∃ fault, e = .invalid fault

theorem exists_of_bind_eq_ok {step : Except ConfigError α} {next : α → Except ConfigError β} {b : β}
    (h : (step >>= next) = .ok b) : ∃ a, step = .ok a ∧ next a = .ok b := by
  cases step with
  | error e => cases h
  | ok a => exact ⟨a, rfl, h⟩

theorem mapM_string?_eq_some_iff {items : List Json} {texts : List String} :
    items.mapM Json.string? = some texts ↔ items = texts.map .string := by
  induction items generalizing texts with
  | nil => cases texts <;> simp
  | cons item items ih =>
    rw [List.mapM_cons]
    constructor
    · intro h
      obtain ⟨text, hitem, h⟩ := Option.bind_eq_some_iff.mp h
      obtain ⟨rest, hrest, h⟩ := Option.bind_eq_some_iff.mp h
      cases h
      cases item with
      | string text =>
        cases hitem
        rw [List.map_cons, ih.mp hrest]
      | _ => cases hitem
    · intro h
      obtain ⟨text, rest, rfl, rfl, hrest⟩ := List.map_eq_cons_iff.mp h.symm
      rw [ih.mpr hrest.symm]
      rfl

theorem textList?_eq_ok_iff {texts : Option (List String)} :
    textList? raw key = .ok texts ↔ Lists raw key texts := by
  constructor
  · intro read
    unfold textList? at read
    split at read
    next absent => cases read; exact .absent absent
    next null => cases read; exact .null null
    next items listed =>
      split at read
      next ts htexts =>
        cases read
        exact .texts (mapM_string?_eq_some_iff.mp htexts ▸ listed)
      next => cases read
    next => cases read
  · rintro (absent | null | listed)
    · simp [textList?, absent]
    · simp [textList?, null]
    · simp [textList?, listed, mapM_string?_eq_some_iff.mpr rfl]

theorem Lists.eq {texts texts' : Option (List String)} (lists : Lists raw key texts)
    (lists' : Lists raw key texts') : texts = texts' :=
  Except.ok.inj ((textList?_eq_ok_iff.mpr lists).symm.trans (textList?_eq_ok_iff.mpr lists'))

theorem checks_textList? (raw : Json) (key : String) :
    Checks IsInvalid (textList? raw key) (∀ texts, ¬ Lists raw key texts) := by
  cases read : textList? raw key with
  | ok texts => exact .inr ⟨fun none => none texts (textList?_eq_ok_iff.mp read), texts, rfl⟩
  | error e =>
    refine .inl ⟨fun texts listed => ?_, e, rfl, ?_⟩
    · cases read.symm.trans (textList?_eq_ok_iff.mpr listed)
    · unfold textList? at read
      split at read
      · cases read
      · cases read
      · split at read <;> cases read
        exact ⟨_, rfl⟩
      · cases read
        exact ⟨_, rfl⟩

theorem checks_compilerOptions (raw : Json) :
    Checks IsInvalid (compilerOptions raw) (HoldsOther raw "compilerOptions") := by
  unfold compilerOptions
  split
  next absent => exact .inr ⟨by simp [HoldsOther, absent], _, rfl⟩
  next null => exact .inr ⟨by simp [HoldsOther, null], _, rfl⟩
  next members there => exact .inr ⟨by simp [HoldsOther, there], _, rfl⟩
  next value null object there =>
    exact .inl ⟨⟨value, there, null, object⟩, _, rfl, _, rfl⟩

theorem checks_text? (value : Json) : Checks (fun _ => True) (CodegenOptions.text? value)
    (value ≠ .null ∧ ∀ text, value ≠ .string text) := by
  cases value <;> simp [Checks, CodegenOptions.text?]

theorem checks_addMember (o : CodegenOptions) (m : String × Json) :
    Checks (fun _ => True) (o.addMember m) (Mistyped m) := by
  unfold CodegenOptions.addMember
  split
  next genDir => exact ((checks_text? m.2).map _).congr (by simp [Mistyped, genDir])
  next other =>
    split
    next entry => exact ((checks_text? m.2).map _).congr (by simp [Mistyped, entry])
    next other' => exact (Checks.of_ok _).congr (by simp [Mistyped, other, other'])

theorem checks_codegenOptions (raw : Json) : Checks IsInvalid (codegenOptions raw)
    (HoldsOther raw "angularCompilerOptions" ∨ ∃ members,
      raw.get? "angularCompilerOptions" = some (.object members) ∧ ∃ m ∈ members, Mistyped m) := by
  unfold codegenOptions
  split
  next absent => exact .inr ⟨by simp [HoldsOther, absent], _, rfl⟩
  next null => exact .inr ⟨by simp [HoldsOther, null], _, rfl⟩
  next value null there =>
    cases value with
    | object members =>
      have checks := Checks.foldlM checks_addMember .empty members
      rcases checks with ⟨wrong, e, he, -⟩ | ⟨right, o, ho⟩
      · have refused : CodegenOptions.ofJson (.object members) = .error e := he
        exact .inl ⟨.inr ⟨members, there, wrong⟩, _, by rw [refused], _, rfl⟩
      · refine .inr ⟨?_, by simp [CodegenOptions.ofJson, ho]⟩
        rintro (⟨value, there', -, object⟩ | ⟨members', there', wrong⟩)
        · cases there.symm.trans there'
          exact object members rfl
        · cases there.symm.trans there'
          exact right wrong
    | null => exact absurd rfl null
    | _ => exact .inl ⟨.inl ⟨_, there, by simp, by simp⟩, _, rfl, _, rfl⟩

/-! ### Roots -/

/-- The glob, seen from the base, selects a path. -/
def SelectsFrom (base : Path) (glob : String) (p : Path) : Prop :=
  Glob.Selects (Glob.trimSlashes (Glob.forwardSlashes base.text.toList)) glob
    (Glob.forwardSlashes p.text.toList)

theorem readAll_of_fits {globs : List String}
    (fits : ∀ glob ∈ globs, (Glob.parse glob (some base)).fits = true) :
    Glob.readAll globs base = .ok (globs.map fun glob => Glob.parse glob (some base)) := by
  induction globs with
  | nil => rfl
  | cons glob globs ih =>
    obtain ⟨first, rest⟩ := List.forall_mem_cons.mp fits
    rw [Glob.readAll_cons, if_pos first, ih rest]
    rfl

theorem someMatches_iff {globs : List String} {p : Path} :
    Glob.someMatches (globs.map fun glob => Glob.parse glob (some base)) p = true ↔
      ∃ glob ∈ globs, SelectsFrom base glob p := by
  simp only [Glob.someMatches, List.any_map, List.any_eq_true, Function.comp,
    Glob.matchesPath_parse_iff, SelectsFrom]

/-- What a filter leaves is what no glob selects. -/
theorem isExcluded_eq_false_iff {patterns : Option (List String)} {filter : ExcludeFilter}
    (made : ExcludeFilter.make patterns base = .ok filter) {p : Path} :
    filter.isExcluded p = false ↔
      ∀ glob ∈ patterns.getD ExcludeFilter.defaultPatterns, ¬ SelectsFrom base glob p := by
  rw [← Bool.not_eq_true, ExcludeFilter.isExcluded_iff made p]
  simp [SelectsFrom]

/-- The scripts below the base that globs select and that are not listed. -/
def Selection (h : Host) (base : Path) (listed : List Path) (included excluded : List String)
    (others : List Path) : Prop :=
  others.Pairwise (· < ·) ∧ ∀ p, p ∈ others ↔ ScriptBelow h base p ∧
    (∃ glob ∈ included, SelectsFrom base glob p) ∧ (∀ glob ∈ excluded, ¬ SelectsFrom base glob p) ∧
    p ∉ listed

/-- Only the scripts that are found depend on what there is, and not which of them are selected. -/
theorem exists_selected_of_rootsOf {files : Option (List String)} {included excluded : List String}
    {roots : List Path} (read : rootsOf base h files included excluded = .ok roots) :
    ∃ selected : Path → Bool,
      (∀ p : Path, p.IsNormal → (selected p = true ↔ (∃ glob ∈ included, SelectsFrom base glob p) ∧
        (∀ glob ∈ excluded, ¬ SelectsFrom base glob p) ∧
        p ∉ (files.getD []).map base.lexicalJoin)) ∧
      ∀ g : Host, rootsOf base g files included excluded =
        .ok ((files.getD []).map base.lexicalJoin ++ (scriptsBelow g base).filter selected) := by
  have listed_normal : ∀ q ∈ (files.getD []).map base.lexicalJoin, q.IsNormal := by
    intro q hq
    obtain ⟨file, -, rfl⟩ := List.mem_map.mp hq
    exact Path.isNormal_lexicalJoin base file
  unfold rootsOf at read ⊢
  cases included with
  | nil => exact ⟨fun _ => false, by simp, by simp⟩
  | cons glob globs =>
    obtain ⟨includes, readIncluded, read⟩ := exists_of_bind_eq_ok read
    obtain ⟨excludes, readExcluded, -⟩ := exists_of_bind_eq_ok read
    refine ⟨_, fun p hp => ?_, fun g => by rw [readIncluded, readExcluded]; rfl⟩
    rw [Glob.eq_map_of_readAll readIncluded, Glob.eq_map_of_readAll readExcluded]
    simp only [Bool.and_eq_true, Bool.not_eq_true', ← Bool.not_eq_true, someMatches_iff,
      Path.isAmong_iff, hp.exists_same_iff listed_normal, and_assoc, not_exists, not_and]

theorem exists_rootsOf {names : List String} (normal : h.cache.HasNormalKeys)
    (hb : base.IsAt names) (files : Option (List String)) {included excluded : List String}
    (fits : ∀ glob ∈ included ++ excluded, (Glob.parse glob (some base)).fits = true) :
    ∃ others, rootsOf base h files included excluded =
        .ok ((files.getD []).map base.lexicalJoin ++ others) ∧
      Selection h base ((files.getD []).map base.lexicalJoin) included excluded others := by
  obtain ⟨first, rest⟩ := List.forall_mem_append.mp fits
  have read : ∃ roots, rootsOf base h files included excluded = .ok roots := by
    unfold rootsOf
    cases included with
    | nil => exact ⟨_, rfl⟩
    | cons glob globs =>
      rw [readAll_of_fits first, readAll_of_fits rest]
      exact ⟨_, rfl⟩
  obtain ⟨roots, read⟩ := read
  obtain ⟨selected, selects, anywhere⟩ := exists_selected_of_rootsOf read
  refine ⟨_, anywhere h, (Path.pairwise_sortDedup _).filter _, fun p => ?_⟩
  rw [List.mem_filter, mem_scriptsBelow_iff normal hb]
  exact and_congr_right fun below => selects p (below.isNormal normal hb)

/-! ### The configuration -/

/-- What reading a configuration comes to. -/
structure Reads (raw : Json) (base : Path) (h : Host) : Prop where
  -- Looking for scripts ends, and finds each of them once.
  walk : ∃ found, Walks h [base] found ∧ found.Perm (scriptsBelow h base)
  -- There is a fault exactly if a section has the wrong shape, and otherwise a result.
  refused : (∃ fault, readConfig raw base h = .error (.invalid fault)) ↔ Misshapen raw
  read : ¬ Misshapen raw → ∃ parsed, readConfig raw base h = .ok parsed
  -- The roots are the listed files and the scripts that globs select.
  roots : ∀ parsed, readConfig raw base h = .ok parsed → ∃ files included excluded others,
    Lists raw "files" files ∧ Lists raw "include" included ∧ Lists raw "exclude" excluded ∧
      parsed.roots = (files.getD []).map base.lexicalJoin ++ others ∧
      Selection h base ((files.getD []).map base.lexicalJoin)
        (includeOrDefault included files.isSome) (excluded.getD defaultExclude) others
  -- The glob that is included by default.
  everything : ∀ p, (∃ glob ∈ defaultInclude, SelectsFrom base glob p) ↔
    ∃ rest, (Glob.forwardSlashes p.text.toList = rest ∨ Glob.forwardSlashes p.text.toList =
      Glob.trimSlashes (Glob.forwardSlashes base.text.toList) ++ '/' :: rest) ∧
      Glob.OneLineAbove rest

/-- All globs of a configuration fit, given or by default. -/
def GlobsFit (raw : Json) (base : Path) : Prop :=
  ∀ files included excluded, Lists raw "files" files → Lists raw "include" included →
    Lists raw "exclude" excluded →
    ∀ glob ∈ includeOrDefault included files.isSome ++ excluded.getD defaultExclude,
      (Glob.parse glob (some base)).fits = true

/-- The globs of a configuration select a path that it does not list. -/
def Globbed (raw : Json) (base p : Path) : Prop :=
  ∃ files included excluded,
    Lists raw "files" files ∧ Lists raw "include" included ∧ Lists raw "exclude" excluded ∧
    (∃ glob ∈ includeOrDefault included files.isSome, SelectsFrom base glob p) ∧
    (∀ glob ∈ excluded.getD defaultExclude, ¬ SelectsFrom base glob p) ∧
    p ∉ (files.getD []).map base.lexicalJoin

/-- A configuration that is read over one host is read over every other one, and only the scripts
that are found differ. -/
theorem exists_readConfig_eq {parsed : ParsedConfig} (read : readConfig raw base h = .ok parsed) :
    ∃ files, Lists raw "files" files ∧ ∃ selected : Path → Bool,
      (∀ p : Path, p.IsNormal → (selected p = true ↔ Globbed raw base p)) ∧
      ∀ g : Host, readConfig raw base g = .ok { parsed with
        roots := (files.getD []).map base.lexicalJoin ++ (scriptsBelow g base).filter selected } := by
  obtain ⟨files, hfiles, read⟩ := exists_of_bind_eq_ok read
  obtain ⟨included, hincluded, read⟩ := exists_of_bind_eq_ok read
  obtain ⟨excluded, hexcluded, read⟩ := exists_of_bind_eq_ok read
  obtain ⟨roots, hroots, read⟩ := exists_of_bind_eq_ok read
  obtain ⟨compiler, hcompiler, read⟩ := exists_of_bind_eq_ok read
  obtain ⟨codegen, hcodegen, read⟩ := exists_of_bind_eq_ok read
  cases read
  obtain ⟨selected, selects, anywhere⟩ := exists_selected_of_rootsOf hroots
  have listed := textList?_eq_ok_iff.mp hfiles
  have includes := textList?_eq_ok_iff.mp hincluded
  have excludes := textList?_eq_ok_iff.mp hexcluded
  refine ⟨files, listed, selected, fun p hp => ?_, fun g => ?_⟩
  · rw [selects p hp]
    constructor
    · exact fun globbed => ⟨files, included, excluded, listed, includes, excludes, globbed⟩
    · rintro ⟨files', included', excluded', listed', includes', excludes', globbed⟩
      rwa [listed'.eq listed, includes'.eq includes, excludes'.eq excludes] at globbed
  · unfold readConfig
    rw [hfiles, hincluded, hexcluded]
    simp only [bind, Except.bind, anywhere g, hcompiler, hcodegen]
    rfl

theorem misshapen_iff : Misshapen raw ↔
    (∀ texts, ¬ Lists raw "files" texts) ∨ (∀ texts, ¬ Lists raw "include" texts) ∨
    (∀ texts, ¬ Lists raw "exclude" texts) ∨ HoldsOther raw "compilerOptions" ∨
    HoldsOther raw "angularCompilerOptions" ∨
    ∃ members, raw.get? "angularCompilerOptions" = some (.object members) ∧
      ∃ m ∈ members, Mistyped m := by
  constructor
  · rintro (⟨hkey, none⟩ | ⟨hkey, other⟩ | ⟨there, hm, wrong⟩)
    · simp only [List.mem_cons, List.not_mem_nil, or_false] at hkey
      rcases hkey with rfl | rfl | rfl
      · exact .inl none
      · exact .inr (.inl none)
      · exact .inr (.inr (.inl none))
    · simp only [List.mem_cons, List.not_mem_nil, or_false] at hkey
      rcases hkey with rfl | rfl
      · exact .inr (.inr (.inr (.inl other)))
      · exact .inr (.inr (.inr (.inr (.inl other))))
    · exact .inr (.inr (.inr (.inr (.inr ⟨_, there, _, hm, wrong⟩))))
  · rintro (none | none | none | other | other | ⟨members, there, m, hm, wrong⟩)
    · exact .list (by simp) none
    · exact .list (by simp) none
    · exact .list (by simp) none
    · exact .options (by simp) other
    · exact .options (by simp) other
    · exact .member there hm wrong

theorem checks_readConfig {names : List String} (normal : h.cache.HasNormalKeys)
    (hb : base.IsAt names) (fits : GlobsFit raw base) :
    Checks IsInvalid (readConfig raw base h) (Misshapen raw) := by
  have checks : Checks IsInvalid (readConfig raw base h)
      ((∀ texts, ¬ Lists raw "files" texts) ∨ (∀ texts, ¬ Lists raw "include" texts) ∨
        (∀ texts, ¬ Lists raw "exclude" texts) ∨ False ∨ HoldsOther raw "compilerOptions" ∨
        (HoldsOther raw "angularCompilerOptions" ∨ ∃ members,
          raw.get? "angularCompilerOptions" = some (.object members) ∧
            ∃ m ∈ members, Mistyped m) ∨ False) := by
    refine (checks_textList? raw "files").bind fun files hfiles => ?_
    refine (checks_textList? raw "include").bind fun included hincluded => ?_
    refine (checks_textList? raw "exclude").bind fun excluded hexcluded => ?_
    obtain ⟨others, hroots, -⟩ := exists_rootsOf normal hb files (fits files included excluded
      (textList?_eq_ok_iff.mp hfiles) (textList?_eq_ok_iff.mp hincluded)
      (textList?_eq_ok_iff.mp hexcluded))
    rw [hroots]
    refine (Checks.of_ok _).bind fun roots _ => ?_
    refine (checks_compilerOptions raw).bind fun compiler _ => ?_
    exact (checks_codegenOptions raw).bind fun codegen _ => .of_ok _
  refine checks.congr ?_
  rw [misshapen_iff, false_or, or_false]

/-- Whatever a configuration says and whatever there is, its roots are the listed files and the
scripts below the base that globs select, and it is refused only for its shape. -/
theorem readConfig_selects (raw : Json) {base : Path} {h : Host} (normal : h.cache.HasNormalKeys)
    (absolute : base.isAbsolute = true) (settled : base.IsNormal) (fits : GlobsFit raw base) :
    Reads raw base h := by
  obtain ⟨names, hb⟩ := settled.exists_isAt absolute
  have checks := checks_readConfig normal hb fits
  refine ⟨exists_walks normal hb, ?_, fun right => ?_, fun parsed hparsed => ?_, fun p => ?_⟩
  · rcases checks with ⟨wrong, -, hfault, fault, rfl⟩ | ⟨right, parsed, hparsed⟩
    · exact ⟨fun _ => wrong, fun _ => ⟨fault, hfault⟩⟩
    · refine ⟨fun ⟨fault, hfault⟩ => ?_, fun wrong => absurd wrong right⟩
      cases hparsed.symm.trans hfault
  · exact (checks.resolve_left fun wrong => right wrong.1).2
  · obtain ⟨files, hfiles, hparsed⟩ := exists_of_bind_eq_ok hparsed
    obtain ⟨included, hincluded, hparsed⟩ := exists_of_bind_eq_ok hparsed
    obtain ⟨excluded, hexcluded, hparsed⟩ := exists_of_bind_eq_ok hparsed
    obtain ⟨roots, hroots, hparsed⟩ := exists_of_bind_eq_ok hparsed
    obtain ⟨compiler, -, hparsed⟩ := exists_of_bind_eq_ok hparsed
    obtain ⟨codegen, -, hparsed⟩ := exists_of_bind_eq_ok hparsed
    cases hparsed
    have hfiles := textList?_eq_ok_iff.mp hfiles
    have hincluded := textList?_eq_ok_iff.mp hincluded
    have hexcluded := textList?_eq_ok_iff.mp hexcluded
    obtain ⟨others, hothers, selection⟩ :=
      exists_rootsOf normal hb files (fits files included excluded hfiles hincluded hexcluded)
    cases hroots.symm.trans hothers
    exact ⟨files, included, excluded, others, hfiles, hincluded, hexcluded, rfl, selection⟩
  · simp only [defaultInclude, List.mem_singleton, exists_eq_left, SelectsFrom,
      Glob.selects_everything_iff]

theorem readConfig_selects_of_empty :
    let h : Host := .ofFiles (.memory (MemoryFiles.empty.insert ⟨"/p/a.ts"⟩ "")) ⟨"/p"⟩
    h.cache.HasNormalKeys ∧ isAbsolute ⟨"/p"⟩ = true ∧ IsNormal ⟨"/p"⟩ ∧
      GlobsFit (.object []) ⟨"/p"⟩ ∧ Reads (.object []) ⟨"/p"⟩ h := by
  intro h
  have empty : FileSystem.HasNormalKeys (.memory .empty) := nofun
  have normal : h.cache.HasNormalKeys := SourceCache.hasNormalKeys_ofFiles (empty.insert _ _)
  have settled : IsNormal ⟨"/p"⟩ := by decide +kernel
  have fits : GlobsFit (.object []) ⟨"/p"⟩ := by
    rintro files included excluded (_ | _ | listed) (_ | _ | listed) (_ | _ | listed)
    all_goals first
      | cases listed
      | decide +kernel
  exact ⟨normal, by decide, settled, fits,
    readConfig_selects _ normal (by decide) settled fits⟩

/-- A file in a directory whose name goes over two lines. -/
def twoLines : Host := .ofFiles (.memory (MemoryFiles.empty.insert ⟨"/p/a\nb/x.ts"⟩ "")) ⟨"/p"⟩

/-- The file is not included by default. -/
theorem readConfig_of_line_feed :
    (∃ parsed, readConfig (.object []) ⟨"/p"⟩ twoLines = .ok parsed ∧ parsed.roots = []) ∧
      ScriptBelow twoLines ⟨"/p"⟩ ⟨"/p/a\nb/x.ts"⟩ ∧
      ∀ glob ∈ defaultExclude, ¬ SelectsFrom ⟨"/p"⟩ glob ⟨"/p/a\nb/x.ts"⟩ := by
  refine ⟨?_, ⟨["a\nb"], "x.ts", by decide +kernel, by decide +kernel, by decide, ?_⟩, ?_⟩
  · exact ⟨_, rfl, by decide +kernel⟩
  · exact ⟨⟨⟨"/p/a\nb"⟩, by decide +kernel, by decide +kernel⟩, by decide +kernel⟩
  · simp only [defaultExclude, List.mem_singleton, forall_eq, SelectsFrom]
    decide +kernel

end Scanning

end Precompile
