import Precompile.Proofs.Factory.Specifier
import Precompile.Proofs.Script.Shape
import Precompile.Proofs.Sources.Cache
import Precompile.Route.Discovery
import Precompile.Route.Entry

/-!
# The entry module of a main file

The scans of a main file find what they look for (`EntryOf`): the first bootstrap call with a name,
and the first import that gives the file this name. What the import resolves to is kept without its
ending, and is found again from there unless only dots are left of its name
(`resolve?_withoutEnding`). So an entry module leads back to the imported file exactly if that is not
`Nameless` (`entryOfMain_leads_back`).
-/

namespace Precompile.Route

open Script

/-! ### The first place in a file -/

/-- The first place of a kind in a file, and what stands before it. -/
structure FirstAt (Q : List Token → Prop) (tokens before here : List Token) : Prop where
  split : tokens = before ++ here
  holds : Q here
  first : ∀ front back, before = front ++ back → back ≠ [] → ¬ Q (back ++ here)

/-- A search from left to right finds the first place at which there is something. -/
theorem search_eq_some_iff {β : Type} (search at? : List Token → Option β)
    (none_left : search [] = none) (nothing : at? [] = none)
    (step : ∀ t rest, search (t :: rest) = (at? (t :: rest) <|> search rest))
    {tokens : List Token} {b : β} : search tokens = some b ↔
      ∃ before here, FirstAt (fun ts => ∃ b, at? ts = some b) tokens before here ∧
        at? here = some b := by
  induction tokens with
  | nil =>
    rw [none_left]
    refine ⟨nofun, ?_⟩
    rintro ⟨before, here, place, found⟩
    rw [(List.append_eq_nil_iff.mp place.split.symm).2, nothing] at found
    cases found
  | cons t rest ih =>
    rw [step]
    cases there : at? (t :: rest) with
    | some c =>
      constructor
      · intro found
        refine ⟨[], t :: rest, ⟨rfl, ⟨c, there⟩, ?_⟩, there.trans found⟩
        intro front back split
        exact absurd (List.append_eq_nil_iff.mp split.symm).2
      · rintro ⟨before, here, place, found⟩
        cases before with
        | nil => rwa [← show t :: rest = here from place.split, there] at found
        | cons s before =>
          have earlier := place.first [] (s :: before) rfl (by simp)
          rw [← place.split] at earlier
          exact absurd ⟨c, there⟩ earlier
    | none =>
      change search rest = some b ↔ _
      rw [ih]
      constructor
      · rintro ⟨before, here, place, found⟩
        refine ⟨t :: before, here, ⟨congrArg (t :: ·) place.split, place.holds, ?_⟩, found⟩
        intro front back split
        cases front with
        | nil =>
          subst split
          rw [← show t :: rest = t :: before ++ here from congrArg (t :: ·) place.split, there]
          simp
        | cons s front => exact place.first front back (List.cons.inj split).2
      · rintro ⟨before, here, place, found⟩
        cases before with
        | nil => rw [← show t :: rest = here from place.split, there] at found; cases found
        | cons s before =>
          obtain ⟨rfl, split⟩ := List.cons.inj place.split
          refine ⟨before, here, ⟨split, place.holds, ?_⟩, found⟩
          intro front back cut
          exact place.first (t :: front) back (congrArg (t :: ·) cut)

/-! ### The bootstrap call -/

/-- The tokens begin with a bootstrap call that has a name right behind its bracket. -/
def CallsWith (localName : String) (rest tokens : List Token) : Prop :=
  ∃ call bracket name, tokens = call :: bracket :: name :: rest ∧
    bootstrapCalls.any call.isIdent = true ∧ bracket.isPunct '(' = true ∧
    name.ident? = some localName

/-- Nothing else belongs to the argument in front. -/
def EndsArgument (rest : List Token) : Prop :=
  ∃ t ∈ rest.head?, t.isPunct ')' = true ∨ t.isPunct ',' = true

/-- The name that the tokens hand to a bootstrap call at their beginning. -/
def callAt? : List Token → Option String
  | [] => none
  | t :: rest => if bootstrapCalls.any t.isIdent then argument? rest else none

theorem callAt?_eq_some_iff {tokens : List Token} {name : String} :
    callAt? tokens = some name ↔ ∃ rest, CallsWith name rest tokens := by
  constructor
  · intro h
    rcases tokens with - | ⟨call, - | ⟨bracket, - | ⟨arg, rest⟩⟩⟩
    · cases h
    · simp [callAt?, argument?] at h
    · simp [callAt?, argument?] at h
    · rw [callAt?, argument?] at h
      split at h
      next hcall =>
        split at h
        next hbracket => exact ⟨rest, call, bracket, arg, rfl, hcall, hbracket, h⟩
        next => cases h
      next => cases h
  · rintro ⟨rest, call, bracket, arg, rfl, hcall, hbracket, hname⟩
    rw [callAt?, if_pos hcall, argument?, if_pos hbracket, hname]

theorem bootstrapped?_eq_some_iff {tokens : List Token} {name : String} :
    bootstrapped? tokens = some name ↔ ∃ before here,
      FirstAt (fun ts => ∃ name rest, CallsWith name rest ts) tokens before here ∧
        ∃ rest, CallsWith name rest here := by
  rw [search_eq_some_iff bootstrapped? callAt? rfl rfl fun t rest => rfl]
  simp only [callAt?_eq_some_iff]

/-! ### The import -/

/-- The tokens of one name of an import. -/
inductive ImportName : List Token → ImportBinding → Prop
  | plain {name : Token} (ident : name.kind = .ident) : ImportName [name] ⟨name.text, name.text⟩
  | renamed {name as_ alias_ : Token} (ident : name.kind = .ident) (word : as_.isIdent "as" = true)
      (other : alias_.kind = .ident) : ImportName [name, as_, alias_] ⟨name.text, alias_.text⟩

/-- The tokens between the braces of an import. A comma may come last, and so may an `as` without a
name, which takes away the name in front of it. -/
inductive NameList : List Token → List ImportBinding → Prop
  | nil : NameList [] []
  | last {ts : List Token} {b : ImportBinding} : ImportName ts b → NameList ts [b]
  | broken {name as_ : Token} (ident : name.kind = .ident) (word : as_.isIdent "as" = true) :
      NameList [name, as_] []
  | cons {ts more : List Token} {comma : Token} {b : ImportBinding} {bs : List ImportBinding} :
      ImportName ts b → comma.isPunct ',' = true → NameList more bs →
      NameList (ts ++ comma :: more) (b :: bs)

theorem importName_of_bindingAt? {tokens rest : List Token} {b : ImportBinding}
    (h : bindingAt? tokens = some (some b, rest)) : ∃ ts, tokens = ts ++ rest ∧ ImportName ts b := by
  unfold bindingAt? at h
  split at h
  · cases h
  next name more =>
    split at h
    next ident =>
      split at h
      next as_ renamed =>
        split at h
        next word =>
          split at h
          next alias_ after =>
            split at h
            next other => cases h; exact ⟨_, rfl, .renamed ident word other⟩
            next => cases h
          next => cases h
        next => cases h; exact ⟨_, rfl, .plain ident⟩
      next => cases h; exact ⟨_, rfl, .plain ident⟩
    next => cases h

theorem broken_of_bindingAt? {tokens rest : List Token} (h : bindingAt? tokens = some (none, rest)) :
    ∃ ts, tokens = ts ++ rest ∧ NameList ts [] := by
  unfold bindingAt? at h
  split at h
  · cases h
  next name more =>
    split at h
    next ident =>
      split at h
      next as_ renamed =>
        split at h
        next word =>
          split at h
          next alias_ after =>
            split at h
            next => cases h
            next => cases h; exact ⟨_, rfl, .broken ident word⟩
          next => cases h; exact ⟨_, rfl, .broken ident word⟩
        next => cases h
      next => cases h
    next => cases h

theorem bindings_of_none {tokens : List Token} (h : bindingAt? tokens = none) :
    bindings tokens = ([], tokens) := by
  rw [bindings]
  split <;> simp_all

theorem bindings_of_broken {tokens rest : List Token} (h : bindingAt? tokens = some (none, rest)) :
    bindings tokens = ([], rest) := by
  rw [bindings]
  split <;> simp_all

theorem bindings_of_some {tokens rest : List Token} {t : Token} {b : ImportBinding}
    (h : bindingAt? tokens = some (some b, t :: rest)) :
    bindings tokens = if t.isPunct ',' then (b :: (bindings rest).1, (bindings rest).2)
      else ([b], t :: rest) := by
  rw [bindings]
  split
  next h' => cases h'.symm.trans h
  next h' => cases h'.symm.trans h
  next b' rest' h' =>
    cases h'.symm.trans h
    rfl

/-- What is read are the names at the beginning. -/
theorem bindings_spec (tokens : List Token) :
    ∃ inner, tokens = inner ++ (bindings tokens).2 ∧ NameList inner (bindings tokens).1 := by
  fun_induction bindings tokens with
  | case1 tokens none_left => exact ⟨[], rfl, .nil⟩
  | case2 tokens rest found => exact broken_of_bindingAt? found
  | case3 tokens b _ found =>
    obtain ⟨ts, split, binds⟩ := importName_of_bindingAt? found
    exact ⟨ts, split, .last binds⟩
  | case4 tokens b comma more _ _ isComma _ bs after read found ih =>
    obtain ⟨ts, split, binds⟩ := importName_of_bindingAt? found
    obtain ⟨inner, split', list⟩ := ih
    rw [read] at split' list
    refine ⟨ts ++ comma :: inner, ?_, .cons binds isComma list⟩
    rw [split, split']
    simp
  | case5 tokens b comma more _ _ _ found =>
    obtain ⟨ts, split, binds⟩ := importName_of_bindingAt? found
    exact ⟨ts, split, .last binds⟩

theorem bindingAt?_of_importName {ts : List Token} {b : ImportBinding} (binds : ImportName ts b)
    {sign : Token} {c : Char} (isSign : sign.isPunct c = true) (rest : List Token) :
    bindingAt? (ts ++ sign :: rest) = some (some b, sign :: rest) := by
  cases binds with
  | plain ident =>
    have noWord : sign.isIdent "as" = false := by
      rw [Token.isIdent_eq_false_iff, Token.isPunct_iff.mp isSign]
      simp
    simp [bindingAt?, ident, noWord]
  | renamed ident word other => simp [bindingAt?, ident, word, other]

/-- All names up to a closing brace are read. -/
theorem bindings_eq {inner : List Token} {bs : List ImportBinding} (list : NameList inner bs)
    {close : Token} (ends : close.isPunct '\x7d' = true) (rest : List Token) :
    bindings (inner ++ close :: rest) = (bs, close :: rest) := by
  have kind := Token.shape_eq_punct_iff.mp (Token.isPunct_iff.mp ends)
  induction list with
  | nil => exact bindings_of_none (by simp [bindingAt?, kind])
  | last binds =>
    rw [bindings_of_some (bindingAt?_of_importName binds ends rest), if_neg]
    simp [Token.isPunct, kind]
  | broken ident word => exact bindings_of_broken (by simp [bindingAt?, ident, word, kind])
  | cons binds comma _ ih =>
    rw [List.append_assoc, List.cons_append, bindings_of_some (bindingAt?_of_importName binds comma _),
      if_pos comma, ih]

/-- The last name of an import by which the file calls something is what it means by it. -/
def Gives (bs : List ImportBinding) (localName exported : String) : Prop :=
  ∃ front back, bs = front ++ ⟨exported, localName⟩ :: back ∧ ∀ b ∈ back, b.localName ≠ localName

theorem exportedAs?_eq_some_iff {bs : List ImportBinding} {localName exported : String} :
    exportedAs? localName bs = some exported ↔ Gives bs localName exported := by
  unfold exportedAs? Gives
  simp only [Option.map_eq_some_iff, List.find?_eq_some_iff_append]
  constructor
  · rintro ⟨⟨e, l⟩, ⟨called, back, front, split, later⟩, rfl⟩
    obtain rfl : l = localName := by simpa using called
    refine ⟨front.reverse, back.reverse, ?_, fun b hb => ?_⟩
    · simpa using congrArg List.reverse split
    · simpa using later b (List.mem_reverse.mp hb)
  · rintro ⟨front, back, rfl, later⟩
    refine ⟨⟨exported, localName⟩, ⟨by simp, back.reverse, front.reverse, by simp, ?_⟩, rfl⟩
    intro b hb
    simpa using later b (List.mem_reverse.mp hb)

/-- The tokens begin with an import of names in braces. -/
def ImportsFrom (bs : List ImportBinding) (specifier : String) (tokens : List Token) : Prop :=
  ∃ keyword brace inner close from_ literal rest,
    tokens = keyword :: brace :: (inner ++ close :: from_ :: literal :: rest) ∧
    keyword.isIdent "import" = true ∧ brace.isPunct '\x7b' = true ∧ NameList inner bs ∧
    close.isPunct '\x7d' = true ∧ from_.isIdent "from" = true ∧ literal.literal? = some specifier

/-- The tokens begin with an import that gives the file a name. -/
def Imports (localName specifier exported : String) (tokens : List Token) : Prop :=
  ∃ bs, ImportsFrom bs specifier tokens ∧ Gives bs localName exported

/-- What the tokens at their beginning import by a name. -/
def importAt? (localName : String) : List Token → Option (String × String)
  | [] => none
  | t :: rest => if t.isIdent "import" then clause? localName rest else none

theorem importAt?_eq_some_iff {tokens : List Token} {localName specifier exported : String} :
    importAt? localName tokens = some (specifier, exported) ↔
      Imports localName specifier exported tokens := by
  constructor
  · intro h
    rcases tokens with - | ⟨keyword, - | ⟨brace, rest⟩⟩
    · cases h
    · simp [importAt?, clause?] at h
    · obtain ⟨inner, split, list⟩ := bindings_spec rest
      simp only [importAt?, clause?] at h
      split at h
      next isImport =>
        split at h
        next opens =>
          split at h
          next bs close from_ literal more read =>
            rw [read] at split list
            split at h
            next both =>
              rw [Bool.and_eq_true] at both
              split at h
              next found quoted =>
                cases h
                exact ⟨bs, ⟨keyword, brace, inner, close, from_, literal, more, by rw [split],
                  isImport, opens, list, both.1, both.2, quoted⟩, exportedAs?_eq_some_iff.mp found⟩
              next => cases h
            next => cases h
          next => cases h
        next => cases h
      next => cases h
  · rintro ⟨bs, ⟨keyword, brace, inner, close, from_, literal, rest, rfl, isImport, opens, list,
      closes, isFrom, quoted⟩, gives⟩
    rw [importAt?, if_pos isImport, clause?, if_pos opens, bindings_eq list closes]
    simp [closes, isFrom, quoted, exportedAs?_eq_some_iff.mpr gives]

theorem importOf?_eq_some_iff {tokens : List Token} {localName specifier exported : String} :
    importOf? localName tokens = some (specifier, exported) ↔ ∃ before here,
      FirstAt (fun ts => ∃ specifier exported, Imports localName specifier exported ts) tokens before
        here ∧ Imports localName specifier exported here := by
  rw [search_eq_some_iff (importOf? localName) (importAt? localName) rfl rfl fun t rest => rfl]
  simp only [Prod.exists, importAt?_eq_some_iff]

/-! ### Without the ending and back -/

section Back

open Precompile.Path Factory

variable {h : Host} {target : Path} {front names : List String} {stem : String}

/-- The name of the file is its ending, if at all with dots in front that mean a directory when the
ending is taken off. At the root there is no such directory for the ending alone. -/
def Nameless (p : Path) : Prop :=
  (∃ dots ∈ ["", ".", ".."], p.fileName? = some (dots ++ ".ts")) ∧ p ≠ ⟨"/.ts"⟩

theorem nameless_iff (hp : target.IsAt (front ++ [stem ++ ".ts"])) :
    Nameless target ↔ stem ∈ ["", ".", ".."] ∧ target ≠ ⟨"/.ts"⟩ := by
  simp only [Nameless, hp.fileName?_eq, Option.some.injEq, String.append_left_inj, exists_eq_right']

/-- What is left of the name is a name, unless it is blank or a climb. -/
theorem isPart_stem (hp : target.IsAt (front ++ [stem ++ ".ts"])) :
    (Component.name stem).IsPart ↔ stem ∉ ["", ".", ".."] := by
  have noSlash : '/' ∉ (Component.name stem).text.toList := slash_not_mem_stem hp
  have text : ∀ s : String, stem.toList = s.toList ↔ stem = s :=
    fun s => ⟨fun h => String.toList_injective h, congrArg _⟩
  have empty : stem.toList = [] ↔ stem = "" := text ""
  have here : stem.toList = ['.'] ↔ stem = "." := text "."
  have up : stem.toList = ['.', '.'] ↔ stem = ".." := text ".."
  rw [Component.IsPart, and_iff_left noSlash]
  simp only [componentOf, Path.isBlank, Component.text, String.ofList_toList, empty, here, up,
    List.mem_cons, List.not_mem_nil, or_false, Bool.or_eq_true, decide_eq_true_eq]
  split
  next blank => simp only [reduceCtorEq, false_iff, not_not]; tauto
  next solid => split <;> simp_all

/-- Without its ending a path is written in the normal way, unless only dots are left of its name. -/
theorem isNormal_bare_iff (hp : target.IsAt (front ++ [stem ++ ".ts"])) :
    (bare target).IsNormal ↔ ¬ Nameless target := by
  rw [nameless_iff hp]
  constructor
  · rintro normal ⟨dots, apart⟩
    obtain ⟨names, hbare⟩ := normal.exists_isAt (isAbsolute_of_toList (toList_bare hp))
    have noSlash : ∀ piece ∈ (front ++ [stem]).map String.toList, '/' ∉ piece := by
      intro piece hpiece
      rw [List.map_append, List.map_singleton] at hpiece
      rcases List.mem_append.mp hpiece with hpiece | hpiece
      · obtain ⟨s, hs, rfl⟩ := List.mem_map.mp hpiece
        exact (hp.isPart (List.mem_append_left _ hs)).2
      · exact List.mem_singleton.mp hpiece ▸ slash_not_mem_stem hp
    have pieces : splitSlash (joinSlash (names.map String.toList)) =
        (front ++ [stem]).map String.toList := by
      have text := hbare.toList_text.symm.trans (toList_bare hp)
      rw [(List.cons.inj text).2, splitSlash_joinSlash (by simp) noSlash]
    by_cases root : names = []
    · -- nothing but the root is left: the file has no name in front of its ending, and lies there
      subst root
      have single : [[]] = (front ++ [stem]).map String.toList := pieces
      obtain rfl : front = [] := by
        have length := congrArg List.length single
        simpa using length
      obtain rfl : stem = "" := String.toList_injective (by simpa using single.symm)
      refine apart (hp.path_eq (isAt_of_toList (fun s hs => ?_) rfl))
      exact hp.isPart hs
    · rw [splitSlash_names root fun s hs => hbare.isPart hs] at pieces
      have same : names = front ++ [stem] :=
        List.map_injective_iff.mpr (fun _ _ => String.toList_injective) pieces
      exact (isPart_stem hp).mp (hbare.isPart (same ▸ List.mem_append_right _ List.mem_cons_self))
        dots
  · intro named
    by_cases dots : stem ∈ ["", ".", ".."]
    · obtain rfl : target = ⟨"/.ts"⟩ := by
        by_contra apart
        exact named ⟨dots, apart⟩
      decide +kernel
    · have part := (isPart_stem hp).mpr dots
      have parts : ∀ s ∈ front ++ [stem], (Component.name s).IsPart := by
        intro s hs
        rcases List.mem_append.mp hs with hs | hs
        · exact hp.isPart (List.mem_append_left _ hs)
        · exact List.mem_singleton.mp hs ▸ part
      exact (isAt_of_toList parts (toList_bare hp)).normal

theorem moduleStem_of_isAbsolute {p : Path} (absolute : p.isAbsolute = true) (containing : Path) :
    h.moduleStem p.text containing = p.normalize := by
  unfold Host.moduleStem join
  simp only [if_pos absolute]

theorem isFile_normalize (h : Host) (p : Path) :
    h.cache.isFile p.normalize = h.cache.isFile p := by
  rw [SourceCache.isFile, normalize_normalize]
  rfl

/-- A file that only its ending names is not found again. -/
theorem not_same_of_nameless (hp : target.IsAt (front ++ [stem ++ ".ts"])) (nameless : Nameless target)
    (absent : h.cache.isFile (bare target) = false) (there : h.cache.isFile target = true)
    {back : Path} (tried : back ∈ Host.candidates (bare target).normalize) : ¬ back.Same target := by
  intro same
  have dots := ((nameless_iff hp).mp nameless).1
  have noEnding : ∀ ending : String, '/' ∉ ending.toList → ending.toList <:+ target.text.toList →
      ending.toList <:+ (stem ++ ".ts").toList := fun _ slash => (suffix_text_iff hp slash).mp
  simp only [List.mem_cons, List.not_mem_nil, or_false] at dots
  rcases Host.isNormal_candidates (isNormal_normalize _) back tried with normal | rfl
  · obtain rfl : back = target := normal.eq_of_same hp.normal same
    generalize hplain : (bare back).normalize = plain at tried
    simp only [Host.candidates, Host.moduleEndings, List.map_cons, List.map_nil, List.mem_cons,
      List.not_mem_nil, or_false, String.append_empty] at tried
    rcases tried with itself | script | declaration | index
    · -- there is a file, and there is none at what is left of the path
      have itself : back = plain := itself
      rw [← isFile_normalize h (bare back), hplain, ← itself, there] at absent
      cases absent
    · have text : plain.text ++ ".ts" = (bare back).text ++ ".ts" :=
        (congrArg Path.text script).symm.trans (text_eq_bare hp)
      have same : plain = bare back := congrArg Path.mk ((String.append_left_inj _).mp text)
      exact (isNormal_bare_iff hp).mp (hplain.trans same) nameless
    · have ending := noEnding ".d.ts" (by decide) (by
        rw [congrArg Path.text declaration, String.toList_append]
        exact List.suffix_append _ _)
      rcases dots with rfl | rfl | rfl <;> exact absurd ending (by decide)
    · have ending := noEnding "index.ts" (by decide) (by
        rw [congrArg Path.text index, String.toList_append]
        exact List.IsSuffix.trans (by decide) (List.suffix_append _ _))
      rcases dots with rfl | rfl | rfl <;> exact absurd ending (by decide)
  · have components : Component.root :: [Component.name "index.ts"] =
        .root :: (front ++ [stem ++ ".ts"]).map .name :=
      Eq.trans (by decide) (same.trans hp.components_eq)
    have last := congrArg List.getLast? (List.cons.inj components).2
    rcases dots with rfl | rfl | rfl <;> simp at last

theorem resolve?_bare (hp : target.IsAt (front ++ [stem ++ ".ts"]))
    (absent : h.cache.isFile (bare target) = false) (there : h.cache.isFile target = true)
    (containing : Path) :
    (∃ back, h.resolve? (bare target).text containing = some back ∧ back.Same target) ↔
      ¬ Nameless target := by
  have absolute : (bare target).isAbsolute = true := isAbsolute_of_toList (toList_bare hp)
  rw [Host.resolve?_eq_find?, moduleStem_of_isAbsolute absolute]
  constructor
  · rintro ⟨back, found, same⟩ nameless
    exact not_same_of_nameless hp nameless absent there (List.mem_of_find?_eq_some found) same
  · intro named
    have normal : (bare target).normalize = bare target := (isNormal_bare_iff hp).mpr named
    have second : (⟨(bare target).text ++ ".ts"⟩ : Path) = target :=
      congrArg Path.mk (text_eq_bare hp).symm
    have found : (Host.candidates (bare target)).find? h.cache.isFile = some target := by
      simp [Host.candidates, Host.moduleEndings, absent, second, there]
    refine ⟨target, ?_, rfl⟩
    rw [normal]
    exact found

theorem not_same_bare (hp : target.IsAt (front ++ [stem ++ ".ts"])) : ¬ (bare target).Same target := by
  intro same
  have components := (components_bare hp).symm.trans (same.trans hp.components_eq)
  have last : componentOf stem.toList = some (.name (stem ++ ".ts")) := by
    simpa using components
  unfold componentOf at last
  split at last
  · cases last
  · split at last
    · cases last
    · have text := congrArg String.length (Component.name.inj (Option.some.inj last))
      simp at text

theorem script_of_nameless (hp : target.IsAt names) (nameless : Nameless target) :
    ".ts".toList <:+ target.text.toList := by
  obtain ⟨⟨dots, -, last⟩, -⟩ := nameless
  rcases List.eq_nil_or_concat' names with rfl | ⟨front, name, rfl⟩
  · simp [fileName?, hp.components_eq] at last
  · rw [hp.fileName?_eq, Option.some.injEq] at last
    rw [suffix_text_iff hp (by decide), last, String.toList_append]
    exact List.suffix_append _ _

/-- The one path that is not written in the normal way stands for the index of the root. -/
theorem resolve?_index (absent : h.cache.isFile (bare ⟨"//index.ts"⟩) = false)
    (there : h.cache.isFile ⟨"//index.ts"⟩ = true) (containing : Path) :
    h.resolve? (bare ⟨"//index.ts"⟩).text containing = some ⟨"/index.ts"⟩ := by
  rw [Host.resolve?_eq_find?, moduleStem_of_isAbsolute (by decide +kernel)]
  have stem : (bare ⟨"//index.ts"⟩).normalize = ⟨"/index"⟩ := by decide +kernel
  rw [← isFile_normalize, stem] at absent
  rw [← isFile_normalize, show Path.normalize ⟨"//index.ts"⟩ = ⟨"/index.ts"⟩ by decide +kernel] at there
  rw [stem]
  simp [Host.candidates, Host.moduleEndings, absent, there]

/-- If nothing else is found where the ending of a file was taken off, then the file is found there
again, unless it is nameless. -/
theorem resolve?_withoutEnding (absolute : target.isAbsolute = true)
    (written : target.IsNormal ∨ target = ⟨"//index.ts"⟩) (there : h.cache.isFile target = true)
    (free : h.cache.isFile (bare target) = false ∨ (bare target).Same target) (containing : Path) :
    (∃ back, h.resolve? (bare target).text containing = some back ∧ back.Same target) ↔
      ¬ Nameless target := by
  rcases written with normal | rfl
  · obtain ⟨names, hp⟩ := normal.exists_isAt absolute
    by_cases script : ".ts".toList <:+ target.text.toList
    · obtain ⟨front, stem, rfl⟩ := exists_script hp script
      exact resolve?_bare hp (free.resolve_right (not_same_bare hp)) there containing
    · have same : bare target = target := congrArg Path.mk (withoutEnding_of_other script)
      have settled : target.normalize = target := normal
      have found : h.resolve? target.text containing = some target := by
        rw [Host.resolve?_eq_find?, moduleStem_of_isAbsolute absolute, settled]
        simp [Host.candidates, Host.moduleEndings, there]
      rw [same]
      exact iff_of_true ⟨target, found, rfl⟩ fun nameless => script (script_of_nameless hp nameless)
  · have absent := free.resolve_right (by decide +kernel)
    refine iff_of_true ⟨_, resolve?_index absent there containing, by decide +kernel⟩ ?_
    unfold Nameless
    decide +kernel

theorem isAbsolute_of_resolve? {specifier : String} {containing : Path}
    (base : h.base.isAbsolute = true) (absolute : containing.isAbsolute = true)
    (found : h.resolve? specifier containing = some target) : target.isAbsolute = true := by
  have anchor : (if Host.isRelative specifier then containing.parent?.getD h.base
      else h.base).isAbsolute = true := by
    split
    · cases parent : containing.parent? with
      | none => exact base
      | some d => exact isAbsolute_parent absolute parent
    · exact base
  obtain ⟨body, text⟩ := exists_toList_of_isAbsolute
    (isAbsolute_normalize (isAbsolute_join anchor ⟨specifier⟩))
  obtain ⟨ending, -, rfl⟩ := List.mem_map.mp (List.mem_of_find?_eq_some found)
  have whole : ((h.moduleStem specifier containing).text ++ ending).toList =
      '/' :: (body ++ ending.toList) := by
    rw [String.toList_append, Host.moduleStem, text, List.cons_append]
  exact isAbsolute_of_toList whole

end Back

/-! ### The entry module -/

variable {h : Host} {main target : Path} {f : SourceFile} {localName specifier : String}
  {e : ModuleReference}

/-- What an entry module has to do with the main file that it was inferred from. -/
structure EntryOf (h : Host) (main : Path) (f : SourceFile) (localName specifier : String)
    (target : Path) (e : ModuleReference) : Prop where
  read : h.source main = .ok (some f)
  -- The first bootstrap call with a name behind its bracket has the local name there. If that is all
  -- of the argument, then it is the first call with a name for an argument.
  call : ∃ before here rest,
    FirstAt (fun ts => ∃ name rest, CallsWith name rest ts) f.tokens before here ∧
    CallsWith localName rest here ∧
    (EndsArgument rest ↔
      FirstAt (fun ts => ∃ name rest, CallsWith name rest ts ∧ EndsArgument rest) f.tokens before here)
  -- The first import that gives the file the local name has the specifier, and what it gives is the
  -- export.
  clause : ∃ before here,
    FirstAt (fun ts => ∃ specifier exported, Imports localName specifier exported ts) f.tokens before
      here ∧ Imports localName specifier e.exportName here
  resolved : h.resolve? specifier main = some target
  module_eq : e.module = withoutEnding target

theorem rest_eq_of_callsWith {name name' : String} {rest rest' tokens : List Token}
    (calls : CallsWith name rest tokens) (calls' : CallsWith name' rest' tokens) : rest = rest' := by
  obtain ⟨_, _, _, split, -⟩ := calls
  obtain ⟨_, _, _, split', -⟩ := calls'
  simp only [split, List.cons.injEq] at split'
  exact split'.2.2.2

/-- The entry module of a main file is inferred exactly if there is one. -/
theorem entryOfMain_eq_some_iff : (entryOfMain main h).1 = some e ↔
    ∃ f localName specifier target, EntryOf h main f localName specifier target e := by
  constructor
  · intro found
    simp only [entryOfMain] at found
    split at found
    next f read =>
      simp only [entryOfFile?, Option.bind_eq_bind, Option.bind_eq_some_iff, Prod.exists] at found
      obtain ⟨localName, called, specifier, exported, imported, target, resolved, made⟩ := found
      cases made
      obtain ⟨before, here, place, rest, calls⟩ := bootstrapped?_eq_some_iff.mp called
      refine ⟨f, localName, specifier, target, read, ⟨before, here, rest, place, calls, ?_⟩,
        importOf?_eq_some_iff.mp imported, resolved, rfl⟩
      constructor
      · intro ends
        refine ⟨place.split, ⟨localName, rest, calls, ends⟩, fun front back split hne => ?_⟩
        rintro ⟨name, rest', calls', -⟩
        exact place.first front back split hne ⟨name, rest', calls'⟩
      · intro whole
        obtain ⟨name, rest', calls', ends⟩ := whole.holds
        rwa [rest_eq_of_callsWith calls calls']
    next => cases found
  · rintro ⟨f, localName, specifier, target, entry⟩
    obtain ⟨before, here, rest, place, calls, -⟩ := entry.call
    have called := bootstrapped?_eq_some_iff.mpr ⟨before, here, place, rest, calls⟩
    have imported := importOf?_eq_some_iff.mpr entry.clause
    simp only [entryOfMain, entry.read, entryOfFile?, called, imported, entry.resolved,
      Option.bind_eq_bind, Option.bind_some, ← entry.module_eq]
    rfl

/-- The entry module that was inferred from a main file leads back to the file that the main file
imports, if nothing else lies where the ending was taken off: exactly if that file has a name apart
from its ending. Then the search for all routes starts there. -/
theorem entryOfMain_leads_back {after : Host} (base : h.base.isAbsolute = true)
    (absolute : main.isAbsolute = true) (found : entryOfMain main h = (some e, after)) :
    ∃ f localName specifier target, EntryOf h main f localName specifier target e ∧
      (h.cache.isFile ⟨e.module⟩ = false ∨ Path.Same ⟨e.module⟩ target →
        ((∃ back, after.resolve? e.module (after.base.join ⟨"index.ts"⟩) = some back ∧
          back.Same target) ↔ ¬ Nameless target) ∧
        (¬ Nameless target → ∀ P : Program, P.contains target = true →
          ∃ start, start.Same target ∧ startOfAll P (some e) after = [start])) := by
  obtain ⟨f, localName, specifier, target, entry⟩ :=
    entryOfMain_eq_some_iff.mp (congrArg Prod.fst found)
  have unchanged : ∀ p, after.cache.isFile p = h.cache.isFile p := by
    intro p
    rw [← show h.retainAll [main] = after from congrArg Prod.snd found]
    exact SourceCache.isFile_retain _ _ _
  refine ⟨f, localName, specifier, target, entry, fun free => ?_⟩
  have there := Host.isFile_of_resolve? entry.resolved
  have module_eq : e.module = (Factory.bare target).text := entry.module_eq
  have rooted := isAbsolute_of_resolve? base absolute entry.resolved
  have back := resolve?_withoutEnding (h := after) rooted
    (Host.isNormal_of_resolve? entry.resolved) (by rw [unchanged, there])
    (by rw [unchanged]; rwa [module_eq] at free) (after.base.join ⟨"index.ts"⟩)
  rw [← module_eq] at back
  refine ⟨back, fun named P contained => ?_⟩
  obtain ⟨start, resolved, same⟩ := back.mpr named
  have known : P.contains start = true := (P.files.contains_congr same).trans contained
  refine ⟨start, same, ?_⟩
  simp [startOfAll, resolved, known]

/-- A host whose main file has the given text. -/
def hostOfMain (text : String) (others : List Path) : Host :=
  .ofFiles (.memory (others.foldl (·.insert · "") (MemoryFiles.empty.insert ⟨"/m.ts"⟩ text))) ⟨"/"⟩

theorem entryOfMain_leads_back_renamed :
    let h := hostOfMain "import{B,A as R,}from'./a';f().bootstrapModule(R)" [⟨"/a.ts"⟩]
    let e : ModuleReference := ⟨"/a", "A"⟩
    let after := (entryOfMain ⟨"/m.ts"⟩ h).2
    h.base.isAbsolute = true ∧ Path.isAbsolute ⟨"/m.ts"⟩ = true ∧
      entryOfMain ⟨"/m.ts"⟩ h = (some e, after) ∧ h.cache.isFile ⟨e.module⟩ = false ∧
      after.resolve? e.module (after.base.join ⟨"index.ts"⟩) = some ⟨"/a.ts"⟩ ∧
      ∃ f localName specifier target, EntryOf h ⟨"/m.ts"⟩ f localName specifier target e ∧
        (Path.Same ⟨"/a.ts"⟩ target ↔ ¬ Nameless target) := by
  intro h e after
  have base : h.base.isAbsolute = true := by decide +kernel
  have main : Path.isAbsolute ⟨"/m.ts"⟩ = true := by decide +kernel
  have found : entryOfMain ⟨"/m.ts"⟩ h = (some e, after) := Prod.ext (by decide +kernel) rfl
  have free : h.cache.isFile ⟨e.module⟩ = false := by decide +kernel
  have back : after.resolve? e.module (after.base.join ⟨"index.ts"⟩) = some ⟨"/a.ts"⟩ := by
    decide +kernel
  obtain ⟨f, localName, specifier, target, entry, leads⟩ := entryOfMain_leads_back base main found
  refine ⟨base, main, found, free, back, f, localName, specifier, target, entry, ?_⟩
  have leads := (leads (.inl free)).1
  rw [back] at leads
  simpa using leads

/-- A file that only its ending names is imported, and the entry module leads to no file at all. -/
theorem nameless_entry_leads_nowhere :
    let h := hostOfMain "import{A}from'./a/.ts';bootstrapModule(A)" [⟨"/a/.ts"⟩]
    let after := (entryOfMain ⟨"/m.ts"⟩ h).2
    (entryOfMain ⟨"/m.ts"⟩ h).1 = some ⟨"/a/", "A"⟩ ∧
      h.resolve? "./a/.ts" ⟨"/m.ts"⟩ = some ⟨"/a/.ts"⟩ ∧ h.cache.isFile ⟨"/a/"⟩ = false ∧
      after.resolve? "/a/" (after.base.join ⟨"index.ts"⟩) = none := by
  decide +kernel

end Precompile.Route
