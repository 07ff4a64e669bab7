import Precompile.Proofs.Script.Shape
import Precompile.Proofs.Script.Written
import Precompile.Script.Imports

/-!
Which modules are found in a text of declarations.

An `import` or `export` declaration names its module behind `from`, or at once. A scan finds the
modules of all declarations, but for those in which `from` is further behind the keyword than is
looked (`scanImports_declarations`).
-/

namespace Precompile.Script

/-! ### Declarations -/

/-- The names that a scan looks for. -/
def keywords : List String := ["from", "import", "export"]

/-- A token that a name may consist of: its characters outside ASCII are tokens of their own, and
so are those of an escape. -/
inductive IsPiece : Shape → Prop where
  | word {s : String} : s ∉ keywords → IsPiece (.name s)
  | digits {s : String} : IsPiece (.number s)
  | character {c : Char} : 128 ≤ c.toNat → IsPiece (.punct c)
  | escape {c : Char} : c ∈ ['\\', '\x7b', '\x7d'] → IsPiece (.punct c)

structure Name where
  pieces : List Shape
  nonempty : pieces ≠ []
  all : ∀ s ∈ pieces, IsPiece s

/-- A name of one word. -/
def Name.word (s : String) (h : s ∉ keywords) : Name :=
  ⟨[.name s], by simp, by simpa using .word h⟩

/-- One of the names in braces. -/
inductive Binding where
  | plain (n : Name)
  | renamed (n m : Name)

def Binding.shapes : Binding → List Shape
  | .plain n => n.pieces
  | .renamed n m => n.pieces ++ .name "as" :: m.pieces

/-- Names in braces, with a comma behind the last one or without. -/
structure Bindings where
  items : List Binding
  comma : Bool

namespace Bindings

def listed : List Binding → List Shape
  | [] => []
  | [b] => b.shapes
  | b :: c :: rest => b.shapes ++ .punct ',' :: listed (c :: rest)

def shapes (b : Bindings) : List Shape :=
  .punct '\x7b' :: (listed b.items ++
    if b.comma then [.punct ',', .punct '\x7d'] else [.punct '\x7d'])

end Bindings

/-- What is imported or exported. -/
inductive Clause where
  | default (n : Name)
  | everything (n : Name)
  | named (b : Bindings)
  | defaultAndNamed (n : Name) (b : Bindings)
  | exported (b : Bindings)
  | allExported

namespace Clause

def keyword : Clause → String
  | .exported _ | .allExported => "export"
  | _ => "import"

def shapes : Clause → List Shape
  | .default n => n.pieces
  | .everything n => .punct '*' :: .name "as" :: n.pieces
  | .named b => b.shapes
  | .defaultAndNamed n b => n.pieces ++ .punct ',' :: b.shapes
  | .exported b => b.shapes
  | .allExported => [.punct '*']

end Clause

/-- A declaration that names a module; without a clause it is imported as a whole. -/
structure Declaration where
  clause? : Option Clause
  specifier : Token
  isLiteral : specifier.kind = .literal
  semicolon : Bool

namespace Declaration

variable (d : Declaration)

/-- How many tokens stand between the keyword and `from`. -/
def distance : Nat := (d.clause?.map fun c => c.shapes.length).getD 0

/-- What stands before the specifier. -/
def beginning : List Shape :=
  match d.clause? with
  | none => [.name "import"]
  | some c => .name c.keyword :: (c.shapes ++ [.name "from"])

def shapes : List Shape :=
  d.beginning ++ .literal d.specifier.text :: if d.semicolon then [.punct ';'] else []

/-- The tokens are those of the declaration, its specifier among them. -/
structure IsWritten (ts : List Token) : Prop where
  shapes : ts.map Token.shape = d.shapes
  specifier : d.specifier ∈ ts

end Declaration

/-- The tokens are those of the declarations, one behind the other. -/
inductive Declares : List Declaration → List Token → Prop where
  | nil : Declares [] []
  | cons {d : Declaration} {ds : List Declaration} {ts rest : List Token} :
      d.IsWritten ts → Declares ds rest → Declares (d :: ds) (ts ++ rest)

/-! ### Looking for a module -/

/-- The shape stands in the way of nothing between a keyword and `from`. -/
def IsInner (s : Shape) : Prop :=
  s ≠ .punct ';' ∧ s ≠ .punct '(' ∧ (∀ x, s ≠ .literal x) ∧ ∀ k ∈ keywords, s ≠ .name k

theorem IsPiece.isInner {s : Shape} (h : IsPiece s) : IsInner s := by
  cases h with
  | word hs =>
    refine ⟨nofun, nofun, nofun, fun k hk same => ?_⟩
    cases same
    exact hs hk
  | digits => exact ⟨nofun, nofun, nofun, nofun⟩
  | @character c hc =>
    have other : ∀ d : Char, d.toNat < 128 → Shape.punct c ≠ .punct d := by
      rintro d hd ⟨⟩
      exact absurd hc (Nat.not_le_of_lt hd)
    exact ⟨other _ (by decide), other _ (by decide), nofun, nofun⟩
  | @escape c hc =>
    simp only [List.mem_cons, List.not_mem_nil, or_false] at hc
    rcases hc with rfl | rfl | rfl <;> exact ⟨by decide, by decide, nofun, nofun⟩

theorem isInner_punct {c : Char} (hc : c ∉ [';', '(']) : IsInner (.punct c) := by
  simp only [List.mem_cons, List.not_mem_nil, or_false, not_or] at hc
  exact ⟨by simp [hc.1], by simp [hc.2], nofun, nofun⟩

theorem isInner_as : IsInner (.name "as") := ⟨nofun, nofun, nofun, by simp [keywords]⟩

theorem Name.isInner (n : Name) : ∀ s ∈ n.pieces, IsInner s := fun s hs => (n.all s hs).isInner

theorem Binding.isInner (b : Binding) : ∀ s ∈ b.shapes, IsInner s := by
  cases b with
  | plain n => exact n.isInner
  | renamed n m =>
    exact List.forall_mem_append.mpr
      ⟨n.isInner, List.forall_mem_cons.mpr ⟨isInner_as, m.isInner⟩⟩

theorem Bindings.isInner_listed (bs : List Binding) : ∀ s ∈ listed bs, IsInner s := by
  fun_induction listed bs with
  | case1 => nofun
  | case2 b => exact b.isInner
  | case3 b c rest ih =>
    exact List.forall_mem_append.mpr
      ⟨b.isInner, List.forall_mem_cons.mpr ⟨isInner_punct (by decide), ih⟩⟩

theorem Bindings.isInner (b : Bindings) : ∀ s ∈ b.shapes, IsInner s := by
  refine List.forall_mem_cons.mpr ⟨isInner_punct (by decide), ?_⟩
  refine List.forall_mem_append.mpr ⟨isInner_listed b.items, ?_⟩
  cases b.comma
  · exact List.forall_mem_singleton.mpr (isInner_punct (by decide))
  · exact List.forall_mem_cons.mpr
      ⟨isInner_punct (by decide), List.forall_mem_singleton.mpr (isInner_punct (by decide))⟩

theorem Clause.isInner (c : Clause) : ∀ s ∈ c.shapes, IsInner s := by
  cases c with
  | default n => exact n.isInner
  | everything n =>
    exact List.forall_mem_cons.mpr
      ⟨isInner_punct (by decide), List.forall_mem_cons.mpr ⟨isInner_as, n.isInner⟩⟩
  | named b => exact b.isInner
  | defaultAndNamed n b =>
    exact List.forall_mem_append.mpr
      ⟨n.isInner, List.forall_mem_cons.mpr ⟨isInner_punct (by decide), b.isInner⟩⟩
  | exported b => exact b.isInner
  | allExported => exact List.forall_mem_singleton.mpr (isInner_punct (by decide))

theorem Clause.shapes_ne_nil (c : Clause) : c.shapes ≠ [] := by
  cases c with
  | default n => exact n.nonempty
  | everything n => simp [shapes]
  | named b => simp [shapes, Bindings.shapes]
  | defaultAndNamed n b => simp [shapes]
  | exported b => simp [shapes, Bindings.shapes]
  | allExported => simp [shapes]

variable {ts rest : List Token} {t origin literal : Token}

/-- What stands before `from` is passed over as far as is looked. -/
theorem findFrom?_append (inner : ∀ t ∈ ts, IsInner t.shape)
    (horigin : origin.shape = .name "from") (hliteral : literal.kind = .literal) (n : Nat)
    (rest : List Token) : findFrom? n (ts ++ origin :: literal :: rest) =
      if ts.length < n then some literal else none := by
  induction ts generalizing n with
  | nil =>
    cases n with
    | zero => rfl
    | succ n =>
      have goesOn : (origin.isPunct ';' || origin.isIdent "import" || origin.isIdent "export") =
          false := by
        simp [Token.isPunct_eq_false_iff, Token.isIdent_eq_false_iff, horigin]
      rw [List.nil_append, findFrom?, goesOn]
      simp [Token.isIdent_iff.mpr horigin, literalAt?, hliteral]
  | cons t ts ih =>
    cases n with
    | zero => rfl
    | succ n =>
      obtain ⟨ht, inner⟩ := List.forall_mem_cons.mp inner
      obtain ⟨semicolon, -, -, keyword⟩ := ht
      have goesOn : (t.isPunct ';' || t.isIdent "import" || t.isIdent "export") = false := by
        simp [Token.isPunct_eq_false_iff, Token.isIdent_eq_false_iff, semicolon,
          keyword "import" (by decide), keyword "export" (by decide)]
      have notFrom : t.isIdent "from" = false :=
        Token.isIdent_eq_false_iff.mpr (keyword "from" (by decide))
      rw [List.cons_append, findFrom?, goesOn, notFrom]
      simp [ih inner]

/-- Tokens that are no keyword start no declaration. -/
theorem scanImports_append (h : ∀ t ∈ ts, t.shape ≠ .name "import" ∧ t.shape ≠ .name "export")
    (rest : List Token) : scanImports (ts ++ rest) = scanImports rest := by
  induction ts with
  | nil => rfl
  | cons t ts ih =>
    obtain ⟨⟨notImport, notExport⟩, h⟩ := List.forall_mem_cons.mp h
    rw [← Token.isIdent_eq_false_iff] at notImport notExport
    simp [scanImports, notImport, notExport, ih h]

/-! ### One declaration -/

theorem scanImports_import {key : Token} (hkey : key.shape = .name "import") (ts : List Token) :
    scanImports (key :: ts) = ((importTarget? ts).map .ofToken).toList ++ scanImports ts := by
  rw [scanImports, if_pos (Token.isIdent_iff.mpr hkey)]

theorem scanImports_export {key : Token} (hkey : key.shape = .name "export") (ts : List Token) :
    scanImports (key :: ts) =
      ((findFrom? fromLookahead ts).map .ofToken).toList ++ scanImports ts := by
  have notImport : key.isIdent "import" = false := by
    simp [Token.isIdent_eq_false_iff, hkey]
  rw [scanImports, notImport, if_neg (by decide), if_pos (Token.isIdent_iff.mpr hkey)]

/-- A clause of an `import` is neither a literal nor a bracket. -/
theorem importTarget?_of_inner (inner : ∀ t ∈ ts, IsInner t.shape) (nonempty : ts ≠ [])
    (rest : List Token) : importTarget? (ts ++ rest) = findFrom? fromLookahead (ts ++ rest) := by
  obtain ⟨t, ts, rfl⟩ := List.exists_cons_of_ne_nil nonempty
  obtain ⟨-, bracket, notLiteral, -⟩ := inner t List.mem_cons_self
  have other : t.kind ≠ .literal := fun hkind =>
    notLiteral t.text (Token.shape_eq_literal_iff.mpr ⟨hkind, rfl⟩)
  rw [List.cons_append, importTarget?, if_neg other,
    if_neg (by rw [Token.isPunct_iff]; exact bracket)]

namespace Declaration

variable {d : Declaration}

/-- The specifier of a declaration, if it is looked for far enough. -/
def found (d : Declaration) : List ImportRef :=
  if d.distance < fromLookahead then [.ofToken d.specifier] else []

theorem not_literal_of_mem_beginning {s : Shape} (hs : s ∈ d.beginning) (x : String) :
    s ≠ .literal x := by
  unfold beginning at hs
  split at hs
  next =>
    rw [List.mem_singleton.mp hs]
    nofun
  next c _ =>
    rcases List.mem_cons.mp hs with rfl | hs
    · nofun
    rcases List.mem_append.mp hs with hs | hs
    · exact (c.isInner s hs).2.2.1 x
    · rw [List.mem_singleton.mp hs]
      nofun

/-- The specifier is the only literal of its declaration. -/
theorem IsWritten.exists_tokens (h : d.IsWritten ts) : ∃ front back,
    ts = front ++ d.specifier :: back ∧ front.map Token.shape = d.beginning ∧
      ∀ t ∈ back, t.shape = .punct ';' := by
  obtain ⟨front, _, rfl, hfront, hback⟩ := List.map_eq_append_iff.mp h.shapes
  obtain ⟨t, back, rfl, ht, hback⟩ := List.map_eq_cons_iff.mp hback
  have semicolons : ∀ t ∈ back, t.shape = .punct ';' := by
    intro u hu
    have hmem := List.mem_map_of_mem (f := Token.shape) hu
    rw [hback] at hmem
    split at hmem
    · exact List.mem_singleton.mp hmem
    · cases hmem
  refine ⟨front, back, ?_, hfront, semicolons⟩
  have literal := Token.shape_eq_literal_iff.mpr ⟨d.isLiteral, rfl⟩
  rcases List.mem_append.mp h.specifier with hmem | hmem
  · have hmem := List.mem_map_of_mem (f := Token.shape) hmem
    exact absurd literal (not_literal_of_mem_beginning (hfront ▸ hmem) _)
  rcases List.mem_cons.mp hmem with same | hmem
  · rw [same]
  · cases literal.symm.trans (semicolons _ hmem)

/-- What is found of a declaration, whatever follows it. -/
theorem IsWritten.scanImports_append (h : d.IsWritten ts) (rest : List Token) :
    scanImports (ts ++ rest) = d.found ++ scanImports rest := by
  obtain ⟨front, back, rfl, hfront, hback⟩ := h.exists_tokens
  have literal := Token.shape_eq_literal_iff.mpr ⟨d.isLiteral, rfl⟩
  have ending : scanImports (d.specifier :: (back ++ rest)) = scanImports rest := by
    rw [← List.cons_append]
    refine Script.scanImports_append (List.forall_mem_cons.mpr ⟨?_, fun t ht => ?_⟩) rest
    · simp [literal]
    · simp [hback t ht]
  rw [List.append_assoc, List.cons_append]
  unfold beginning at hfront
  split at hfront
  next whole =>
    obtain ⟨key, _, rfl, hkey, hnil⟩ := List.map_eq_cons_iff.mp hfront
    rw [List.map_eq_nil_iff.mp hnil, List.singleton_append, scanImports_import hkey, ending]
    simp [importTarget?, d.isLiteral, found, distance, whole, fromLookahead]
  next c hc =>
    obtain ⟨key, _, rfl, hkey, hclause⟩ := List.map_eq_cons_iff.mp hfront
    obtain ⟨ts, _, rfl, hts, hlast⟩ := List.map_eq_append_iff.mp hclause
    obtain ⟨origin, _, rfl, horigin, hnil⟩ := List.map_eq_cons_iff.mp hlast
    rw [List.map_eq_nil_iff.mp hnil, List.cons_append, List.append_assoc, List.singleton_append]
    have inner : ∀ t ∈ ts, IsInner t.shape := fun t ht =>
      c.isInner _ (hts ▸ List.mem_map_of_mem ht)
    have nonempty : ts ≠ [] := fun h => c.shapes_ne_nil (by rw [← hts, h, List.map_nil])
    have later :
        scanImports (ts ++ origin :: d.specifier :: (back ++ rest)) = scanImports rest := by
      rw [Script.scanImports_append, ← List.singleton_append, Script.scanImports_append, ending]
      · simp [horigin]
      · intro t ht
        obtain ⟨-, -, -, keyword⟩ := inner t ht
        exact ⟨keyword _ (by decide), keyword _ (by decide)⟩
    have target := findFrom?_append inner horigin d.isLiteral fromLookahead (back ++ rest)
    have length : ts.length = d.distance := by
      rw [distance, hc, ← List.length_map (f := Token.shape), hts]
      rfl
    have result : ((findFrom? fromLookahead (ts ++ origin :: d.specifier :: (back ++ rest))).map
        ImportRef.ofToken).toList = d.found := by
      rw [target, length, found]
      split <;> rfl
    have keyword : c.keyword = "import" ∨ c.keyword = "export" := by
      cases c <;> simp [Clause.keyword]
    rcases keyword with himport | hexport
    · rw [scanImports_import (himport ▸ hkey), importTarget?_of_inner inner nonempty, result, later]
    · rw [scanImports_export (hexport ▸ hkey), result, later]

end Declaration

/-! ### Texts of declarations -/

theorem scanImports_of_declares {ds : List Declaration} (h : Declares ds ts) :
    scanImports ts = ds.flatMap Declaration.found := by
  induction h with
  | nil => rfl
  | cons hts _ ih => rw [hts.scanImports_append, ih, List.flatMap_cons]

/-- What is found are the declarations within reach. -/
theorem flatMap_found (ds : List Declaration) : ds.flatMap Declaration.found =
    (ds.filter fun d => d.distance < fromLookahead).map fun d => .ofToken d.specifier := by
  induction ds with
  | nil => rfl
  | cons d ds ih =>
    by_cases reached : d.distance < fromLookahead <;>
      simp [Declaration.found, reached, ih]

theorem Declares.mem {ds : List Declaration} (h : Declares ds ts) :
    ∀ d ∈ ds, d.specifier ∈ ts := by
  induction h with
  | nil => nofun
  | cons hts _ ih =>
    exact List.forall_mem_cons.mpr
      ⟨List.mem_append_left _ hts.specifier, fun d hd => List.mem_append_right _ (ih d hd)⟩

/-- The modules of the declarations within reach are found, each with the place of its literal. -/
theorem scanImports_declarations (source : String) {ds : List Declaration} {ts : List Token}
    (written : Written 0 source.toList ts) (declares : Declares ds ts) :
    scanImports (lex source).tokens =
        (ds.filter fun d => d.distance < fromLookahead).map (fun d => .ofToken d.specifier) ∧
      (∀ d ∈ ds, IsQuoted source.toList d.specifier.start d.specifier.stop
        d.specifier.text.toList) ∧
      (scanImports (lex source).tokens = ds.map (fun d => .ofToken d.specifier) ↔
        ∀ d ∈ ds, d.distance < fromLookahead) := by
  have found : scanImports (lex source).tokens =
      (ds.filter fun d => d.distance < fromLookahead).map fun d => .ofToken d.specifier := by
    rw [lex, tokens_of_written written, scanImports_of_declares declares, flatMap_found]
  refine ⟨found, fun d hd => ?_, ?_⟩
  · exact isQuoted_of_written written (.start _) _ (declares.mem d hd) d.isLiteral
  rw [found]
  constructor
  · intro same
    have length := congrArg List.length same
    rw [List.length_map, List.length_map, List.length_filter_eq_length_iff] at length
    simpa using length
  · intro reached
    rw [List.filter_eq_self.mpr (by simpa using reached)]

theorem scanImports_declarations_of_default :
    let source := "import D from './m'"
    let d : Declaration := ⟨some (.default (.word "D" (by decide))),
      ⟨.literal, "./m", 14, 19⟩, rfl, false⟩
    scanImports (lex source).tokens =
        ([d].filter fun e => e.distance < fromLookahead).map (fun e => .ofToken e.specifier) ∧
      (∀ e ∈ [d], IsQuoted source.toList e.specifier.start e.specifier.stop
        e.specifier.text.toList) ∧
      (scanImports (lex source).tokens = [d].map (fun e => .ofToken e.specifier) ↔
        ∀ e ∈ [d], e.distance < fromLookahead) := by
  intro source d
  have word : ∀ (pos : Nat) (c : Char) (cs : List Char) {rest : List Char} {ts : List Token},
      isIdentStart c = true → cs.all isIdentPart = true →
      Written (pos + width (c :: cs) + 1) rest ts → Written pos (c :: cs ++ ' ' :: rest)
        (⟨.ident, String.ofList (c :: cs), pos, pos + width (c :: cs)⟩ :: ts) := by
    intro pos c cs rest ts hc hcs later
    exact .token (.name hc (List.all_eq_true.mp hcs) (by simp [isIdentPart]))
      (.skipped (.blank rfl) later)
  have body : Quotes '\'' ['.', '/', 'm'] ['.', '/', 'm'] :=
    .plain (by decide) (by decide) (by decide) (.plain (by decide) (by decide) (by decide)
      (.plain (by decide) (by decide) (by decide) .nil))
  have text : source.toList = 'i' :: "mport".toList ++ ' ' :: (['D'] ++ ' ' ::
      ('f' :: "rom".toList ++ ' ' :: ('\'' :: (['.', '/', 'm'] ++ ['\'']) ++ []))) := by decide
  have written := word 0 'i' "mport".toList rfl (by decide)
    (word _ 'D' [] rfl (by decide)
      (word _ 'f' "rom".toList rfl (by decide)
        (.token (.literal (.inl rfl) body) .nil)))
  rw [← text] at written
  have whole : Written 0 source.toList (lex source).tokens := by
    rw [lex, tokens_of_written written]
    exact written
  have declared : d.IsWritten (lex source).tokens := ⟨by decide +kernel, by decide +kernel⟩
  exact scanImports_declarations source whole (by simpa using Declares.cons declared .nil)

/-- With more than 31 names in braces `from` is too far behind its keyword. -/
theorem scanImports_of_many_bindings :
    let source := "import \x7ba" ++ String.join (List.replicate 31 ",a") ++ "\x7d from './m'"
    let names : Bindings := ⟨List.replicate 32 (.plain (.word "a" (by decide))), false⟩
    let d : Declaration := ⟨some (.named names), ⟨.literal, "./m", 78, 83⟩, rfl, false⟩
    Declares [d] (lex source).tokens ∧ scanImports (lex source).tokens = [] := by
  intro source names d
  have written : d.IsWritten (lex source).tokens := ⟨by decide +kernel, by decide +kernel⟩
  refine ⟨?_, by decide +kernel⟩
  simpa using Declares.cons written .nil

end Precompile.Script
