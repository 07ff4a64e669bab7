import Mathlib.Data.List.Chain
import Precompile.Proofs.Script.Shape
import Precompile.Script.Imports

/-!
The specifiers that a scan finds, from the shapes of the tokens alone.

An `import` of names in braces is found if `from` is near enough to the last keyword in front of it,
be it the `import` itself or one of the names (`modules_import`). A statement in which no name has a
literal or the start of a call behind it names no module (`modules_of_apart`).
-/

namespace Precompile.Script

/-! ### Scans over shapes -/

namespace Shape

def literalAt? : List Shape → Option String
  | .literal x :: _ => some x
  | _ => none

/-- What `findFrom?` finds, among shapes. -/
def findFrom? : Nat → List Shape → Option String
  | 0, _ => none
  | _ + 1, [] => none
  | n + 1, s :: rest =>
    if s = .punct ';' ∨ s = .name "import" ∨ s = .name "export" then none
    else if s = .name "from" then literalAt? rest
    else findFrom? n rest

/-- What `importTarget?` finds, among shapes. -/
def importTarget? : List Shape → Option String
  | .literal x :: _ => some x
  | .punct '(' :: rest => literalAt? rest
  | shapes => findFrom? fromLookahead shapes

/-- The specifiers of what `scanImports` finds, among shapes. -/
def modules : List Shape → List String
  | [] => []
  | s :: rest =>
    let target :=
      if s = .name "import" then importTarget? rest
      else if s = .name "export" then findFrom? fromLookahead rest
      else none
    target.toList ++ modules rest

end Shape

theorem literalAt?_eq (ts : List Token) :
    (literalAt? ts).map Token.text = Shape.literalAt? (ts.map Token.shape) := by
  cases ts with
  | nil => rfl
  | cons t ts =>
    rw [literalAt?, List.map_cons]
    cases hkind : t.kind <;> simp [Token.shape, hkind, Shape.literalAt?]

theorem findFrom?_eq (n : Nat) (ts : List Token) :
    (findFrom? n ts).map Token.text = Shape.findFrom? n (ts.map Token.shape) := by
  fun_induction findFrom? n ts with
  | case1 => simp [Shape.findFrom?]
  | case2 => simp [Shape.findFrom?]
  | case3 n t rest h =>
    simp only [Bool.or_eq_true, Token.isPunct_iff, Token.isIdent_iff, or_assoc] at h
    rw [List.map_cons, Shape.findFrom?, if_pos h]
    rfl
  | case4 n t rest h horigin =>
    simp only [Bool.or_eq_true, Token.isPunct_iff, Token.isIdent_iff, or_assoc] at h horigin
    rw [List.map_cons, Shape.findFrom?, if_neg h, if_pos horigin, literalAt?_eq]
  | case5 n t rest h horigin ih =>
    simp only [Bool.or_eq_true, Token.isPunct_iff, Token.isIdent_iff, or_assoc] at h horigin
    rw [List.map_cons, Shape.findFrom?, if_neg h, if_neg horigin, ih]

theorem importTarget?_eq (ts : List Token) :
    (importTarget? ts).map Token.text = Shape.importTarget? (ts.map Token.shape) := by
  cases ts with
  | nil => rfl
  | cons t ts =>
    rw [importTarget?]
    split
    next literal => simp [Shape.importTarget?, Token.shape, literal]
    next literal =>
      have other : ∀ x, t.shape ≠ .literal x := by
        intro x hx
        exact literal (Token.shape_eq_literal_iff.mp hx).1
      split
      next bracket =>
        rw [Token.isPunct_iff] at bracket
        rw [List.map_cons, bracket, literalAt?_eq]
        rfl
      next bracket =>
        rw [Token.isPunct_iff] at bracket
        rw [findFrom?_eq, List.map_cons, Shape.importTarget?]
        · exact fun x _ same => other x (List.cons.inj same).1
        · exact fun _ same => bracket (List.cons.inj same).1

theorem specifiers_scanImports (ts : List Token) :
    (scanImports ts).map ImportRef.specifier = Shape.modules (ts.map Token.shape) := by
  induction ts with
  | nil => rfl
  | cons t ts ih =>
    have toList : ∀ target : Option Token, (target.map ImportRef.ofToken).toList.map
        ImportRef.specifier = (target.map Token.text).toList := by
      intro target
      cases target <;> rfl
    rw [scanImports, List.map_append, ih, toList, List.map_cons, Shape.modules]
    congr 2
    simp only [Token.isIdent_iff]
    by_cases himport : t.shape = .name "import"
    · rw [if_pos himport, if_pos himport, importTarget?_eq]
    · rw [if_neg himport, if_neg himport]
      by_cases hexport : t.shape = .name "export"
      · rw [if_pos hexport, if_pos hexport, findFrom?_eq]
      · rw [if_neg hexport, if_neg hexport]
        rfl

/-! ### Names in braces -/

/-- A name at which a declaration would start. -/
def isKeyword (name : String) : Bool := name = "import" || name = "export"

/-- A name that the search for `from` passes. -/
def isPassed (name : String) : Bool := !isKeyword name && name != "from"

theorem passed_iff {name : String} :
    isPassed name = true ↔ isKeyword name = false ∧ name ≠ "from" := by
  simp [isPassed]

/-- The names behind the last one at which a declaration would start. -/
def namesAfter : List String → List String
  | [] => []
  | n :: names => if (n :: names).any isKeyword then namesAfter names else n :: names

/-- The names leave a `from` behind them within the reach of the last keyword in front of it. -/
def InReach (names : List String) : Prop :=
  (namesAfter names).length ≤ 31 ∧ "from" ∉ namesAfter names

instance (names : List String) : Decidable (InReach names) := instDecidableAnd

theorem namesAfter_suffix (names : List String) : namesAfter names <:+ names := by
  induction names with
  | nil => exact List.suffix_rfl
  | cons n names ih =>
    rw [namesAfter]
    split
    · exact ih.trans (List.suffix_cons n names)
    · exact List.suffix_rfl

theorem inReach_cons_of_keyword {n : String} {names : List String}
    (keyword : (n :: names).any isKeyword = true) : InReach (n :: names) ↔ InReach names := by
  simp only [InReach, namesAfter, keyword, if_true]

theorem inReach_of_no_keyword {names : List String} (keyword : ¬ names.any isKeyword = true) :
    InReach names ↔ names.all isPassed = true ∧ 2 * names.length + 1 < fromLookahead := by
  have after : namesAfter names = names := by
    cases names with
    | nil => rfl
    | cons n names => rw [namesAfter, if_neg keyword]
  have passed : names.all isPassed = true ↔ "from" ∉ names := by
    simp only [List.any_eq_true, not_exists, not_and, Bool.not_eq_true] at keyword
    rw [List.all_eq_true]
    constructor
    · intro all origin
      exact (passed_iff.mp (all _ origin)).2 rfl
    · intro origin n hn
      exact passed_iff.mpr ⟨keyword n hn, fun h => origin (h ▸ hn)⟩
  rw [InReach, after, passed, fromLookahead, and_comm]
  refine and_congr_right fun _ => ?_
  omega

namespace Shape

/-- Names in braces, each behind its sign, and the specifier of the module that has them. -/
def listed (names : List (Char × String)) (specifier : String) (rest : List Shape) : List Shape :=
  names.foldr (fun n later => .punct n.1 :: .name n.2 :: later)
    (.punct '\x7d' :: .name "from" :: .literal specifier :: rest)

variable {names : List (Char × String)} {specifier : String} {rest : List Shape}

theorem findFrom?_sign {c : Char} (hc : c ≠ ';') (k : Nat) :
    findFrom? (k + 1) (.punct c :: rest) = findFrom? k rest := by
  simp [findFrom?, hc]

theorem findFrom?_name {n : String} (k : Nat) :
    findFrom? (k + 1) (.name n :: rest) =
      if isKeyword n then none else if n = "from" then literalAt? rest else findFrom? k rest := by
  simp [findFrom?, isKeyword]

theorem modules_punct (c : Char) : modules (.punct c :: rest) = modules rest := by
  simp [modules]

theorem modules_literal (x : String) : modules (.literal x :: rest) = modules rest := by
  simp [modules]

theorem modules_name {n : String} (hn : isKeyword n = false) :
    modules (.name n :: rest) = modules rest := by
  simp_all [modules, isKeyword]

/-- A sign that separates names in braces. -/
def Separates (c : Char) : Prop := c = '\x7b' ∨ c = ','

theorem Separates.ne_semicolon {c : Char} (hc : Separates c) : c ≠ ';' := by
  rcases hc with rfl | rfl <;> decide

/-- What stands behind a `from` among names is no literal. -/
theorem literalAt?_listed : literalAt? (listed names specifier rest) = none := by
  cases names <;> rfl

theorem importTarget?_listed (signs : ∀ n ∈ names, Separates n.1) :
    importTarget? (listed names specifier rest) =
      findFrom? fromLookahead (listed names specifier rest) := by
  cases names with
  | nil => rfl
  | cons n names =>
    -- no sign opens a call
    rcases signs n List.mem_cons_self with h | h <;> simp [listed, h, importTarget?]

theorem findFrom?_listed (signs : ∀ n ∈ names, Separates n.1) (k : Nat) :
    findFrom? k (listed names specifier rest) =
      if (names.map (·.2)).all isPassed ∧ 2 * names.length + 1 < k then some specifier
      else none := by
  induction names generalizing k with
  | nil => rcases k with _ | _ | k <;> simp [listed, findFrom?, literalAt?]
  | cons n names ih =>
    obtain ⟨sign, signs⟩ := List.forall_mem_cons.mp signs
    rcases k with _ | _ | k
    · simp [findFrom?]
    · simp [listed, findFrom?, sign.ne_semicolon]
    · have listed_cons : listed (n :: names) specifier rest =
          .punct n.1 :: .name n.2 :: listed names specifier rest := rfl
      have near : 2 * (names.length + 1) + 1 < k + 1 + 1 ↔ 2 * names.length + 1 < k := by omega
      rw [listed_cons, findFrom?_sign sign.ne_semicolon, findFrom?_name, ih signs, literalAt?_listed]
      simp only [List.map_cons, List.all_cons, List.length_cons, Bool.and_eq_true, near]
      by_cases keyword : isKeyword n.2 = true
      · simp [passed_iff, keyword]
      · by_cases origin : n.2 = "from"
        · simp [passed_iff, origin]
        · have passed : isPassed n.2 = true := passed_iff.mpr ⟨by simpa using keyword, origin⟩
          simp only [keyword, origin, passed, if_false, true_and, Bool.false_eq_true]

theorem modules_listed_of_no_keyword (plain : ∀ n ∈ names, isKeyword n.2 = false) :
    modules (listed names specifier rest) = modules rest := by
  induction names with
  | nil =>
    show modules (.punct '\x7d' :: .name "from" :: .literal specifier :: rest) = _
    rw [modules_punct, modules_name (by decide), modules_literal]
  | cons n names ih =>
    obtain ⟨hn, plain⟩ := List.forall_mem_cons.mp plain
    show modules (.punct n.1 :: .name n.2 :: listed names specifier rest) = _
    rw [modules_punct, modules_name hn, ih plain]

theorem modules_cons_listed (n : String) (signs : ∀ n ∈ names, Separates n.1) :
    modules (.name n :: listed names specifier rest) =
      (if isKeyword n then findFrom? fromLookahead (listed names specifier rest) else none).toList ++
        modules (listed names specifier rest) := by
  rw [modules, importTarget?_listed signs]
  by_cases himport : n = "import" <;> by_cases hexport : n = "export" <;>
    simp [isKeyword, himport, hexport]

/-- No `from` is found past a keyword. -/
theorem findFrom?_listed_of_keyword (signs : ∀ n ∈ names, Separates n.1)
    (keyword : (names.map (·.2)).any isKeyword = true) (k : Nat) :
    findFrom? k (listed names specifier rest) = none := by
  rw [findFrom?_listed signs, if_neg]
  rintro ⟨passed, -⟩
  obtain ⟨m, hm, found⟩ := List.any_eq_true.mp keyword
  have missed := (passed_iff.mp (List.all_eq_true.mp passed m hm)).1
  rw [found] at missed
  cases missed

/-- The keywords among the names, and one in front of them, find the specifier once or not at all. -/
theorem modules_listed (signs : ∀ n ∈ names, Separates n.1) :
    (findFrom? fromLookahead (listed names specifier rest)).toList ++
        modules (listed names specifier rest) =
      (if InReach (names.map (·.2)) then [specifier] else []) ++ modules rest := by
  induction names with
  | nil =>
    rw [modules_listed_of_no_keyword (by simp), findFrom?_listed signs]
    rfl
  | cons n names ih =>
    by_cases keyword : ((n :: names).map (·.2)).any isKeyword = true
    · -- the search starts again behind the last keyword
      have later : InReach ((n :: names).map (·.2)) ↔ InReach (names.map (·.2)) :=
        inReach_cons_of_keyword keyword
      have behind := (List.forall_mem_cons.mp signs).2
      rw [findFrom?_listed_of_keyword signs keyword]
      have same : modules (listed (n :: names) specifier rest) =
          (findFrom? fromLookahead (listed names specifier rest)).toList ++
            modules (listed names specifier rest) := by
        show modules (.punct n.1 :: .name n.2 :: listed names specifier rest) = _
        rw [modules_punct, modules_cons_listed n.2 behind]
        by_cases hn : isKeyword n.2 = true
        · rw [if_pos hn]
        · rw [if_neg hn, findFrom?_listed_of_keyword behind]
          simpa [hn] using keyword
      rw [same, ih behind]
      simp only [later]
      rfl
    · have plain : ∀ m ∈ n :: names, isKeyword m.2 = false := by simpa using keyword
      have found : findFrom? fromLookahead (listed (n :: names) specifier rest) =
          if InReach ((n :: names).map (·.2)) then some specifier else none := by
        rw [findFrom?_listed signs]
        simp only [inReach_of_no_keyword keyword, List.length_map]
      rw [modules_listed_of_no_keyword plain, found]
      split <;> rfl

/-- An `import` of names in braces is found unless one of the names hides its `from`. -/
theorem modules_import (signs : ∀ n ∈ names, Separates n.1) :
    modules (.name "import" :: listed names specifier rest) =
      (if InReach (names.map (·.2)) then [specifier] else []) ++ modules rest := by
  rw [modules_cons_listed _ signs, if_pos (by decide), modules_listed signs]

/-! ### Statements that name no module -/

/-- A name is followed by neither a literal nor the start of a call. -/
def Apart (s t : Shape) : Prop := (∃ n, s = .name n) → (∀ x, t ≠ .literal x) ∧ t ≠ .punct '('

variable {front : List Shape} {s : Shape}

theorem target_of_apart {n : String} (apart : (.name n :: front).IsChain Apart) :
    literalAt? (front ++ .punct ';' :: rest) = none ∧
      importTarget? (front ++ .punct ';' :: rest) =
        findFrom? fromLookahead (front ++ .punct ';' :: rest) := by
  cases front with
  | nil => exact ⟨rfl, rfl⟩
  | cons t front =>
    obtain ⟨literal, call⟩ := (List.isChain_cons_cons.mp apart).1 ⟨n, rfl⟩
    cases t with
    | literal x => exact absurd rfl (literal x)
    | punct c =>
      have hc : c ≠ '(' := fun h => call (congrArg Shape.punct h)
      exact ⟨rfl, by simp [importTarget?, hc]⟩
    | name | template | number => exact ⟨rfl, rfl⟩

theorem findFrom?_of_apart (apart : front.IsChain Apart) (k : Nat) :
    findFrom? k (front ++ .punct ';' :: rest) = none := by
  induction front generalizing k with
  | nil => cases k <;> simp [findFrom?]
  | cons s front ih =>
    cases k with
    | zero => rfl
    | succ k =>
      rw [List.cons_append, findFrom?, ih apart.tail]
      split
      next => rfl
      next =>
        split
        next origin =>
          subst origin
          exact (target_of_apart apart).1
        next => rfl

theorem modules_of_apart (apart : front.IsChain Apart) :
    modules (front ++ .punct ';' :: rest) = modules rest := by
  induction front with
  | nil => exact modules_punct ';'
  | cons s front ih =>
    have later : front.IsChain Apart := apart.tail
    rw [List.cons_append, modules, ih later, findFrom?_of_apart later]
    by_cases himport : s = .name "import"
    · subst himport
      rw [if_pos rfl, (target_of_apart apart).2, findFrom?_of_apart later]
      rfl
    · simp [himport]

end Shape

end Precompile.Script
