import Precompile.Proofs.Factory.Decorated
import Precompile.Proofs.Factory.Specifier
import Precompile.Proofs.Script.Specifiers
import Precompile.Proofs.Script.Spelling

/-!
What a generated factory imports.

A factory is read as one `import` of its classes and a constant for each of them
(`readsAs_render`), if nothing that is written into it ends its comment or its quotes. So the only
module that it can name is its source, and it names that one if the scan for imports gets from the
last keyword to the specifier. The host gives the source for it unless there is a file without the
ending (`imports_source_iff`).
-/

namespace Precompile.Factory

open Precompile.Path Script

/-- Nothing ends the comment or the quotes that it is written into. -/
structure Fits (source target : Path) (locale : Option String) : Prop where
  comment : '\n' ∉ source.text.toList
  specifier : ∀ c ∈ (importSpecifier source target).toList, c ≠ '\'' ∧ c ≠ '\\' ∧ c ≠ '\n'
  locale : ∀ l ∈ locale, ∃ value, Quotes '\'' l.toList value

variable {source target : Path} {locale : Option String} {rest : List Char} {shapes : List Shape}
  {ts : List Token} {c : DecoratedClass}

/-! ### Names of classes -/

theorem arguments_suffix (depth : Nat) (ts : List Token) : (arguments depth ts).2 <:+ ts := by
  fun_induction arguments depth ts with
  | case1 => exact List.suffix_rfl
  | case2 => exact List.suffix_rfl
  | case3 _ t rest _ ih => exact ih.trans (List.suffix_cons t rest)
  | case4 _ t rest _ _ ih => exact ih.trans (List.suffix_cons t rest)
  | case5 _ t rest _ _ _ _ heq ih =>
    rw [heq] at ih
    exact ih.trans (List.suffix_cons t rest)

/-- The class ahead is called by a name among the tokens. -/
theorem classAhead_spec (ts : List Token) : (classAhead ts).2 <:+ ts ∧
    ∀ name ∈ (classAhead ts).1, ∃ t ∈ ts, t.shape = .name name := by
  have skipped := List.dropWhile_suffix (fun t : Token => !t.isPunct '@' && !t.isIdent "class") (l := ts)
  unfold classAhead
  split
  next heq => exact ⟨List.nil_suffix, by simp⟩
  next t rest heq =>
    rw [heq] at skipped
    have behind : rest <:+ ts := (List.suffix_cons t rest).trans skipped
    split
    · split
      next name after =>
        split
        next ident =>
          refine ⟨(List.suffix_cons name after).trans behind, ?_⟩
          rintro _ ⟨⟩
          exact ⟨name, behind.subset List.mem_cons_self, Token.shape_eq_name_iff.mpr ⟨ident, rfl⟩⟩
        next => exact ⟨behind, by simp⟩
      next => exact ⟨List.nil_suffix, by simp⟩
    · exact ⟨skipped, by simp⟩

theorem exists_token_of_mem_decoratedIn (hc : c ∈ decoratedIn ts) :
    ∃ t ∈ ts, t.shape = .name c.name := by
  fun_induction decoratedIn ts with
  | case1 t name bracket rest _ _ _ _ found ih =>
    obtain ⟨later, named⟩ := classAhead_spec (arguments 1 rest).2
    have inside : (arguments 1 rest).2 <:+ t :: name :: bracket :: rest :=
      (arguments_suffix 1 rest).trans ⟨[t, name, bracket], rfl⟩
    rcases List.mem_append.mp hc with hc | hc
    · rw [Option.mem_toList, Option.map_eq_some_iff] at hc
      obtain ⟨className, hname, rfl⟩ := hc
      obtain ⟨u, hu, shape⟩ := named className hname
      exact ⟨u, inside.subset hu, shape⟩
    · obtain ⟨u, hu, shape⟩ := ih hc
      exact ⟨u, (later.trans inside).subset hu, shape⟩
  | case2 t name bracket rest _ _ ih =>
    obtain ⟨u, hu, shape⟩ := ih hc
    exact ⟨u, List.mem_cons_of_mem _ (List.mem_cons_of_mem _ hu), shape⟩
  | case3 t name bracket rest _ ih =>
    obtain ⟨u, hu, shape⟩ := ih hc
    exact ⟨u, List.mem_cons_of_mem _ hu, shape⟩
  | case4 => cases hc

theorem isWord_of_mem_decoratedClasses {f : SourceFile} (hc : c ∈ decoratedClasses f) :
    isWord c.name.toList = true := by
  obtain ⟨t, ht, shape⟩ := exists_token_of_mem_decoratedIn hc
  obtain ⟨ident, text⟩ := Token.shape_eq_name_iff.mp shape
  exact text ▸ isWord_of_mem_tokens ht ident

/-! ### The text -/

/-- The names in braces behind their signs. -/
def withSigns : List String → List (Char × String)
  | [] => []
  | n :: names => ('\x7b', n) :: names.map fun m => (',', m)

theorem separates_withSigns (names : List String) : ∀ n ∈ withSigns names, Shape.Separates n.1 := by
  cases names with
  | nil => simp [withSigns]
  | cons n names => simp [withSigns, Shape.Separates]

theorem names_withSigns (names : List String) : (withSigns names).map (·.2) = names := by
  cases names <;> simp [withSigns, Function.comp_def]

/-- How the constant begins that stands for the factory of a class. -/
def opening (name : String) : List Shape :=
  [.name "export", .name "const", .name (name ++ "NgFactory"), .punct '=', .punct '\x7b',
    .name "moduleType", .punct ':', .name name]

def localeShapes : Option (List Char) → List Shape
  | some value => [.punct ',', .name "locale", .punct ':', .literal (String.ofList value)]
  | none => []

/-- A constant that stands for the factory of a class, up to its semicolon. -/
def constant (value : Option (List Char)) (name : String) : List Shape :=
  opening name ++ localeShapes value ++ [.punct '\x7d']

/-- What a factory is read as. -/
def factoryShapes (names : List String) (specifier : String) (value : Option (List Char)) :
    List Shape :=
  .name "import" :: Shape.listed (withSigns names) specifier
    (.punct ';' :: names.flatMap fun n => constant value n ++ [.punct ';'])

theorem isSign_of_separates {c : Char} (hc : Shape.Separates c) : IsSign c ∧ isIdentPart c = false := by
  rcases hc with rfl | rfl <;> decide

/-- What is written for names behind their signs. -/
def written (names : List (Char × String)) : List Char :=
  names.flatMap fun n => n.1 :: ' ' :: n.2.toList

theorem readsAs_listed {names : List (Char × String)} {specifier : String}
    (signs : ∀ n ∈ names, Shape.Separates n.1) (words : ∀ n ∈ names, isWord n.2.toList = true)
    (plain : ∀ c ∈ specifier.toList, c ≠ '\'' ∧ c ≠ '\\' ∧ c ≠ '\n')
    (later : ReadsAs rest shapes) :
    ReadsAs (written names ++ (" \x7d from '".toList ++ (specifier.toList ++ '\'' :: rest)))
      (Shape.listed names specifier shapes) := by
  induction names with
  | nil =>
    have quoted := ReadsAs.quoted (quotes_of_plain plain) later
    rw [String.ofList_toList] at quoted
    have origin := quoted.spaced (s := "from") (by decide)
    have bracket := (origin.blank (c := ' ') rfl).sign (c := '\x7d') (by decide)
    simpa [written, Shape.listed] using bracket.blank (c := ' ') rfl
  | cons n names ih =>
    obtain ⟨sign, signs⟩ := List.forall_mem_cons.mp signs
    obtain ⟨word, words⟩ := List.forall_mem_cons.mp words
    have stop : ∀ d ∈ (written names ++
        (" \x7d from '".toList ++ (specifier.toList ++ '\'' :: rest))).head?, isIdentPart d = false := by
      cases names with
      | nil => simp [written, isIdentPart]
      | cons m names => simpa [written] using (isSign_of_separates (signs m List.mem_cons_self)).2
    have named := ((ih signs words).word word stop).blank (c := ' ') rfl
    simpa [written, Shape.listed] using named.sign (isSign_of_separates sign).1

theorem readsAs_opening {name : String} (word : isWord name.toList = true)
    (stop : ∀ d ∈ rest.head?, isIdentPart d = false) (later : ReadsAs rest shapes) :
    ReadsAs ("export const ".toList ++ (name.toList ++
      ("NgFactory = \x7b moduleType: ".toList ++ (name.toList ++ rest))))
      (opening name ++ shapes) := by
  have own := ((later.word word stop).blank (c := ' ') rfl).sign (c := ':') (by decide)
  have property := (own.word (s := "moduleType") (by decide) (by simp [isIdentPart])).blank
    (c := ' ') rfl
  have bracket := (property.sign (c := '\x7b') (by decide)).blank (c := ' ') rfl
  have marked : isWord (name ++ "NgFactory").toList = true := by
    rw [String.toList_append]
    exact isWord_append word (by decide)
  have constant := ((bracket.sign (c := '=') (by decide)).spaced marked).spaced (s := "const") (by decide)
  simpa [opening] using constant.spaced (s := "export") (by decide)

theorem readsAs_declaration {value : Option (List Char)} {name : String} (word : isWord name.toList = true)
    (quoted : Option.Rel (fun l value => Quotes '\'' l.toList value) locale value)
    (later : ReadsAs rest shapes) :
    ReadsAs ((declaration locale name).toList ++ rest)
      (constant value name ++ .punct ';' :: shapes) := by
  have semicolon := (later.blank (c := '\n') rfl).sign (c := ';') (by decide)
  have closed := (semicolon.sign (c := '\x7d') (by decide)).blank (c := ' ') rfl
  unfold declaration
  cases quoted with
  | none =>
    have whole := readsAs_opening word (by simp [isIdentPart]) closed
    simpa [constant, localeShapes] using whole
  | @some l value quoted =>
    have colon := ((closed.quoted quoted).blank (c := ' ') rfl).sign (c := ':') (by decide)
    have locale := colon.word (s := "locale") (by decide) (by simp [isIdentPart])
    have comma := (locale.blank (c := ' ') rfl).sign (c := ',') (by decide)
    have whole := readsAs_opening word (by simp [isIdentPart]) comma
    simpa [constant, localeShapes] using whole

theorem readsAs_declarations {value : Option (List Char)} {names : List String}
    (words : ∀ n ∈ names, isWord n.toList = true)
    (quoted : Option.Rel (fun l value => Quotes '\'' l.toList value) locale value) :
    ReadsAs (String.join (names.map (declaration locale))).toList
      (names.flatMap fun n => constant value n ++ [.punct ';']) := by
  induction names with
  | nil => exact .nil
  | cons n names ih =>
    obtain ⟨word, words⟩ := List.forall_mem_cons.mp words
    have later := ih words
    rw [String.toList_join] at later ⊢
    simpa using readsAs_declaration word quoted later

theorem toList_intercalate_names (n : String) (names : List String) :
    '\x7b' :: ' ' :: (", ".intercalate (n :: names)).toList = written (withSigns (n :: names)) := by
  have comma : ", ".toList = [',', ' '] := by simp
  rw [String.toList_intercalate, comma]
  induction names generalizing n with
  | nil => simp [written, withSigns]
  | cons m names ih =>
    have ih := ih m
    rw [List.map_cons, List.map_cons, List.intercalate_cons_cons]
    simp_all [written, withSigns]

theorem toList_render {classes : List DecoratedClass} {names : List String}
    (nonempty : classes ≠ []) (hnames : classes.map DecoratedClass.name = names) :
    (render source target classes locale).toList =
      '/' :: '/' :: (" Generated from " ++ source.text).toList ++ '\n' ::
        ("import".toList ++ ' ' :: (written (withSigns names) ++ (" \x7d from '".toList ++
          ((importSpecifier source target).toList ++ '\'' :: ';' :: '\n' ::
            (String.join (names.map (declaration locale))).toList)))) := by
  obtain ⟨c, classes, rfl⟩ := List.exists_cons_of_ne_nil nonempty
  rw [List.map_cons] at hnames
  subst hnames
  rw [← toList_intercalate_names]
  unfold render
  simp

/-- A factory is read as it is written. -/
theorem readsAs_render {classes : List DecoratedClass} {names : List String}
    (nonempty : classes ≠ []) (hnames : classes.map DecoratedClass.name = names)
    (words : ∀ n ∈ names, isWord n.toList = true) (fits : Fits source target locale) :
    ∃ value, ReadsAs (render source target classes locale).toList
      (factoryShapes names (importSpecifier source target) value) := by
  obtain ⟨value, quoted⟩ : ∃ value,
      Option.Rel (fun (l : String) value => Quotes '\'' l.toList value) locale value := by
    cases locale with
    | none => exact ⟨none, .none⟩
    | some l =>
      obtain ⟨value, quoted⟩ := fits.locale l rfl
      exact ⟨some value, .some quoted⟩
  have declarations := readsAs_declarations words quoted
  have semicolon := (declarations.blank (c := '\n') rfl).sign (c := ';') (by decide)
  have behind : ∀ n ∈ withSigns names, isWord n.2.toList = true := by
    intro n hn
    apply words
    rw [← names_withSigns names]
    exact List.mem_map_of_mem hn
  have clause := (readsAs_listed (separates_withSigns names) behind fits.specifier semicolon).spaced
    (s := "import") (by decide)
  have noBreak : '\n' ∉ (" Generated from " ++ source.text).toList := by
    simp [fits.comment]
  rw [toList_render nonempty hnames]
  exact ⟨value, clause.line noBreak⟩

/-! ### The modules that are named -/

theorem isChain_constant (value : Option (List Char)) (name : String) :
    (constant value name).IsChain Shape.Apart := by
  cases value <;> simp [constant, opening, localeShapes, Shape.Apart]

theorem modules_constants (value : Option (List Char)) (names : List String) :
    Shape.modules (names.flatMap fun n => constant value n ++ [.punct ';']) = [] := by
  induction names with
  | nil => rfl
  | cons n names ih =>
    rw [List.flatMap_cons, List.append_assoc, List.singleton_append,
      Shape.modules_of_apart (isChain_constant value n), ih]

theorem modules_factoryShapes (names : List String) (specifier : String)
    (value : Option (List Char)) :
    Shape.modules (factoryShapes names specifier value) =
      if InReach names then [specifier] else [] := by
  rw [factoryShapes, Shape.modules_import (separates_withSigns names), Shape.modules_punct,
    modules_constants, names_withSigns, List.append_nil]

/-- A factory has no lexical error and names its source or no module. -/
theorem lex_render {classes : List DecoratedClass} (nonempty : classes ≠ [])
    (words : ∀ c ∈ classes, isWord c.name.toList = true) (fits : Fits source target locale) :
    (lex (render source target classes locale)).errors = [] ∧
      (scanImports (lex (render source target classes locale)).tokens).map ImportRef.specifier =
        if InReach (classes.map DecoratedClass.name) then [importSpecifier source target] else [] := by
  obtain ⟨value, reads⟩ := readsAs_render nonempty rfl (by simpa using words) fits
  obtain ⟨tokens, errors⟩ := reads 0
  refine ⟨errors, ?_⟩
  rw [specifiers_scanImports, lex, tokens, modules_factoryShapes]

variable {o : BuildOptions} {h : Host} {f : SourceFile} {base gen names : List String}
  {classes : List DecoratedClass}

/-- A factory has no lexical error. It names one module, which is relative and which the host takes for
the source, exactly if at most 31 of its names come behind the last keyword, and if there is no file
that is called as the source without its ending, or the factory lies below the source itself. -/
theorem imports_source_iff (hbase : o.basePath.IsAt base) (hgen : o.genDir.IsAt gen)
    (hsource : f.path.IsAt names) (input : isInput o f.path = true)
    (file : h.cache.isFile f.path = true) (nonempty : classes ≠ [])
    (decorated : classes ⊆ decoratedClasses f)
    (fits : Fits f.path ((planOf o).factoryPath f.path) o.i18n.locale)
    (named : (bare f.path).IsNormal) (noFrom : "from" ∉ classes.map DecoratedClass.name) :
    let target := (planOf o).factoryPath f.path
    let read := lex (render f.path target classes o.i18n.locale)
    read.errors = [] ∧
    ((∃ i, scanImports read.tokens = [i] ∧ i.isRelative = true ∧
        h.resolve? i.specifier target = some f.path) ↔
      (namesAfter (classes.map DecoratedClass.name)).length ≤ 31 ∧
        ((directoryOf target).startsWith f.path = true ∨ h.cache.isFile (bare f.path) = false)) := by
  intro target read
  obtain ⟨front, stem, rfl, -⟩ := exists_script_of_isInput hsource input
  obtain ⟨dirs, name, -, htarget⟩ := exists_isAt_factoryPath hbase hgen hsource input
  have words : ∀ c ∈ classes, isWord c.name.toList = true :=
    fun c hc => isWord_of_mem_decoratedClasses (decorated hc)
  obtain ⟨errors, specifiers⟩ := lex_render nonempty words fits
  have near : InReach (classes.map DecoratedClass.name) ↔
      (namesAfter (classes.map DecoratedClass.name)).length ≤ 31 := by
    have later : "from" ∉ namesAfter (classes.map DecoratedClass.name) :=
      fun hmem => noFrom ((namesAfter_suffix _).subset hmem)
    simp [InReach, later]
  refine ⟨errors, ?_⟩
  rw [← near, ← resolve?_importSpecifier htarget hsource file named]
  by_cases reached : InReach (classes.map DecoratedClass.name)
  · rw [if_pos reached, List.map_eq_singleton_iff] at specifiers
    obtain ⟨i, only, specifier⟩ := specifiers
    simp [read, target, only, reached, ImportRef.isRelative, specifier, isRelative_importSpecifier]
  · rw [if_neg reached, List.map_eq_nil_iff] at specifiers
    simp [read, target, specifiers, reached]

/-! ### Fixed projects -/

/-- Generated files are put into a directory of the base path. -/
def plainOptions : BuildOptions :=
  { (default : BuildOptions) with
    basePath := ⟨"/p"⟩
    genDir := ⟨"/p/g"⟩ }

def plainSource : SourceFile := ⟨⟨"/p/a.ts"⟩, "@NgModule() class A"⟩

def hostOf (files : List (Path × String)) : Host :=
  .ofFiles (.memory (files.foldl (fun (m : MemoryFiles) f => m.insert f.1 f.2) .empty)) ⟨"/p"⟩

def plainHost : Host := hostOf [(plainSource.path, plainSource.content)]

def plainTarget : Path := (planOf plainOptions).factoryPath plainSource.path

theorem fits_plain : Fits plainSource.path plainTarget none := by
  have specifier : importSpecifier plainSource.path plainTarget = "../a" := by decide +kernel
  refine ⟨by simp [plainSource], ?_, nofun⟩
  rw [specifier]
  simp

theorem imports_source_iff_plain :
    let read := lex (render plainSource.path plainTarget [⟨"A", []⟩] none)
    read.errors = [] ∧ ∃ i, scanImports read.tokens = [i] ∧ i.isRelative = true ∧
      plainHost.resolve? i.specifier plainTarget = some plainSource.path := by
  have base : plainOptions.basePath.IsAt ["p"] := ⟨by decide +kernel, by decide +kernel⟩
  have gen : plainOptions.genDir.IsAt ["p", "g"] := ⟨by decide +kernel, by decide +kernel⟩
  have source : plainSource.path.IsAt ["p", "a.ts"] := ⟨by decide +kernel, by decide +kernel⟩
  have decorated : [⟨"A", []⟩] ⊆ decoratedClasses plainSource := by decide +kernel
  have found := imports_source_iff (h := plainHost) base gen source (by decide +kernel)
    (by decide +kernel) (List.cons_ne_nil _ _) decorated fits_plain (by decide +kernel) (by decide)
  exact ⟨found.1, found.2.mpr ⟨by decide, .inr (by decide +kernel)⟩⟩

/-- Beside the source there is a file that is called as it is, but for the ending. -/
def besideHost : Host := hostOf [(plainSource.path, plainSource.content), (⟨"/p/a"⟩, "")]

/-- A script with so many decorated classes. -/
def crowd (n : Nat) : SourceFile :=
  ⟨⟨"/p/a.ts"⟩, String.join (List.replicate n "@NgModule() class A\n")⟩

def crowdCall : Decorator := ⟨"NgModule", [], .nil⟩

def crowdShapes : List Shape := crowdCall.shapes ++ [.name "class", .name "A"]

theorem readsAs_crowd (n : Nat) :
    ReadsAs (crowd n).content.toList (List.replicate n crowdShapes).flatten := by
  unfold crowd
  rw [String.toList_join]
  induction n with
  | zero => exact .nil
  | succ n ih =>
    have named := (ih.blank (c := '\n') rfl).word (s := "A") (by decide) (by simp [isIdentPart])
    have heading := (named.spaced (s := "class") (by decide)).blank (c := ' ') rfl
    have call := (heading.sign (c := ')') (by decide)).sign (c := '(') (by decide)
    have decorator := call.word (s := "NgModule") (by decide) (by simp [isIdentPart])
    simpa [crowdShapes, crowdCall, Decorator.shapes, callOf, List.replicate_succ] using
      decorator.sign (c := '@') (by decide)

theorem decoratedIn_crowd {n : Nat}
    (hts : ts.map Token.shape = (List.replicate n crowdShapes).flatten) :
    decoratedIn ts = List.replicate n ⟨"A", []⟩ := by
  induction n generalizing ts with
  | zero =>
    rw [List.map_eq_nil_iff.mp hts]
    simp [decoratedIn]
  | succ n ih =>
    rw [List.replicate_succ, List.flatten_cons, crowdShapes] at hts
    obtain ⟨front, later, rfl, hfront, hlater⟩ := List.map_eq_append_iff.mp hts
    obtain ⟨call, heading, rfl, hcall, hheading⟩ := List.map_eq_append_iff.mp hfront
    have plain : heading.map Token.shape =
        ([] : List Modifier).map (.name ·.keyword) ++ [.name "class", .name "A"] := hheading
    rw [List.append_assoc, decoratedIn_known hcall (by decide), classAhead_heading plain, ih hlater]
    rfl

theorem decoratedClasses_crowd (n : Nat) :
    decoratedClasses (crowd n) = List.replicate n ⟨"A", []⟩ :=
  decoratedIn_crowd (readsAs_crowd n 0).1

/-- The factory names nothing if there are more names than the scan looks at. -/
theorem scanImports_crowd :
    scanImports (lex (render plainSource.path plainTarget (decoratedClasses (crowd 32)) none)).tokens =
      [] := by
  have words : ∀ c ∈ decoratedClasses (crowd 32), isWord c.name.toList = true :=
    fun c hc => isWord_of_mem_decoratedClasses hc
  have specifiers := (lex_render (by simp [decoratedClasses_crowd]) words fits_plain).2
  have far : ¬ InReach ((decoratedClasses (crowd 32)).map DecoratedClass.name) := by
    rw [decoratedClasses_crowd]
    decide
  rw [if_neg far] at specifiers
  exact List.map_eq_nil_iff.mp specifiers

/-- A file that is called as the source without its ending is taken for it; behind 32 names, or behind
one that is `from`, no module is found; a quote in the name of the source ends the specifier; and a
name that is `.` without the ending is lost from the specifier. -/
theorem factory_without_source :
    isInput plainOptions plainSource.path = true ∧
    (decoratedClasses plainSource = [⟨"A", []⟩] ∧ besideHost.cache.isFile plainSource.path = true ∧
      (scanImports (lex (render plainSource.path plainTarget [⟨"A", []⟩] none)).tokens).map
        ImportRef.specifier = ["../a"] ∧
      besideHost.resolve? "../a" plainTarget = some ⟨"/p/a"⟩) ∧
    ((decoratedClasses (crowd 32)).length = 32 ∧
      scanImports (lex (render plainSource.path plainTarget (decoratedClasses (crowd 32)) none)).tokens =
        []) ∧
    (decoratedClasses ⟨plainSource.path, "@NgModule() class from"⟩ = [⟨"from", []⟩] ∧
      scanImports (lex (render plainSource.path plainTarget [⟨"from", []⟩] none)).tokens = []) ∧
    (isInput plainOptions ⟨"/p/it's.ts"⟩ = true ∧
      (lex (render ⟨"/p/it's.ts"⟩ ((planOf plainOptions).factoryPath ⟨"/p/it's.ts"⟩) [⟨"A", []⟩]
        none)).errors ≠ []) ∧
    (isInput plainOptions ⟨"/p/..ts"⟩ = true ∧
      (hostOf [(⟨"/p/..ts"⟩, "@NgModule() class A")]).resolve?
        (importSpecifier ⟨"/p/..ts"⟩ ((planOf plainOptions).factoryPath ⟨"/p/..ts"⟩))
        ((planOf plainOptions).factoryPath ⟨"/p/..ts"⟩) = none) := by
  refine ⟨by decide +kernel, ?_, ⟨?_, scanImports_crowd⟩, ?_, ?_, ?_⟩
  · decide +kernel
  · rw [decoratedClasses_crowd, List.length_replicate]
  · decide +kernel
  · decide +kernel
  · decide +kernel

end Precompile.Factory
