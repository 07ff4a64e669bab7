import Mathlib.Data.List.Basic
import Precompile.Factory.Classes
import Precompile.Proofs.Script.Shape

/-!
Which classes of a file are found.

A file of class declarations is a list of decorators, modifiers, a name and a body each. A class is
found if the last of its decorators is a known one, with the templates which that decorator names;
those of the decorators in front of it are lost, and so is the class if a decorator that is not
known stands last (`decoratedClasses_eq_iff`).
-/

namespace Precompile.Factory

open Script

/-! ### Declarations -/

def opens : List Char := ['(', '\x7b', '[']

def closes : List Char := [')', '\x7d', ']']

/-- In a list of shapes each bracket is closed; of which kind the brackets are does not matter. -/
inductive Balanced : List Shape → Prop where
  | nil : Balanced []
  | plain {s : Shape} {rest : List Shape} : (∀ c, s = .punct c → c ∉ opens ∧ c ∉ closes) →
      Balanced rest → Balanced (s :: rest)
  | nested {c d : Char} {inner rest : List Shape} : c ∈ opens → Balanced inner → d ∈ closes →
      Balanced rest → Balanced (.punct c :: inner ++ .punct d :: rest)

/-- A decorator that is called. -/
structure Decorator where
  name : String
  arguments : List Shape
  balanced : Balanced arguments

inductive Modifier where
  | exported
  | default
  | abstract
  deriving DecidableEq, Repr

def Modifier.keyword : Modifier → String
  | .exported => "export"
  | .default => "default"
  | .abstract => "abstract"

structure ClassDeclaration where
  decorators : List Decorator
  modifiers : List Modifier
  name : String
  -- What is written behind the name up to the next declaration.
  body : List Shape

/-- How the call of a decorator begins. -/
def callOf (name : String) : List Shape := [.punct '@', .name name, .punct '(']

def Decorator.shapes (d : Decorator) : List Shape := callOf d.name ++ d.arguments ++ [.punct ')']

def Decorator.IsKnown (d : Decorator) : Prop := d.name ∈ decorators

instance (d : Decorator) : Decidable d.IsKnown := inferInstanceAs (Decidable (d.name ∈ decorators))

namespace ClassDeclaration

def modifierShapes (c : ClassDeclaration) : List Shape := c.modifiers.map (.name ·.keyword)

def shapes (c : ClassDeclaration) : List Shape :=
  c.decorators.flatMap Decorator.shapes ++
    (c.modifierShapes ++ .name "class" :: .name c.name :: c.body)

end ClassDeclaration

/-- No known decorator is called among the shapes. -/
def Quiet (shapes : List Shape) : Prop := ∀ name ∈ decorators, ¬ callOf name <:+: shapes

instance (shapes : List Shape) : Decidable (Quiet shapes) :=
  inferInstanceAs (Decidable (∀ name ∈ decorators, ¬ callOf name <:+: shapes))

/-! ### Templates -/

/-- The template that a property names, given the shapes from its name on. -/
def templateOf? : List Shape → Option String
  | .name property :: .punct ':' :: .literal url :: _ =>
    if property = templateProperty then some url else none
  | _ => none

/-- The templates that are named among the shapes. -/
def templatesIn : List Shape → List String
  | [] => []
  | s :: rest => (templateOf? (s :: rest)).toList ++ templatesIn rest

variable {t : Token} {ts rest : List Token} {ss : List Shape}

theorem templateOf?_eq_some_iff {url : String} : templateOf? ss = some url ↔
    ∃ later, ss = .name templateProperty :: .punct ':' :: .literal url :: later := by
  constructor
  · intro h
    unfold templateOf? at h
    split at h
    next property url later =>
      split at h
      next named =>
        cases h
        exact ⟨later, by rw [named]⟩
      next => cases h
    next => cases h
  · rintro ⟨later, rfl⟩
    simp [templateOf?]

theorem templateAt?_eq (ts : List Token) : templateAt? ts = templateOf? (ts.map Token.shape) := by
  ext url
  rw [templateOf?_eq_some_iff]
  simp only [List.map_eq_cons_iff]
  constructor
  · intro h
    unfold templateAt? at h
    split at h
    next property colon value later =>
      split at h
      next found =>
        rw [Bool.and_eq_true, Token.isIdent_iff, Token.isPunct_iff] at found
        exact ⟨later.map Token.shape, property, _, rfl, found.1, colon, _, rfl, found.2, value,
          later, rfl, Token.literal?_eq_some_iff.mp h, rfl⟩
      next => cases h
    next => cases h
  · rintro ⟨_, property, _, rfl, hproperty, colon, _, rfl, hcolon, value, later, rfl, hvalue, rfl⟩
    simp [templateAt?, Token.isIdent_iff.mpr hproperty, Token.isPunct_iff.mpr hcolon,
      Token.literal?_eq_some_iff.mpr hvalue]

/-- A closing bracket ends the place where a template can be named. -/
theorem templateOf?_append_closing {d : Char} (hd : d ∈ closes) (s : Shape)
    (front back : List Shape) : templateOf? (s :: front ++ .punct d :: back) = templateOf? (s :: front) := by
  have notColon : d ≠ ':' := by
    rintro rfl
    exact absurd hd (by decide)
  ext url
  simp only [templateOf?_eq_some_iff]
  rcases front with _ | ⟨colon, _ | ⟨value, front⟩⟩ <;> simp [notColon]

theorem templatesIn_append_closing {d : Char} (hd : d ∈ closes) (front back : List Shape) :
    templatesIn (front ++ .punct d :: back) = templatesIn front ++ templatesIn back := by
  induction front with
  | nil => simp [templatesIn, templateOf?]
  | cons s front ih =>
    rw [List.cons_append, templatesIn, ih, ← List.cons_append, templateOf?_append_closing hd,
      templatesIn, List.append_assoc]

theorem isOpening_iff : isOpening t = true ↔ ∃ c ∈ opens, t.shape = .punct c := by
  simp [isOpening, opens, Token.isPunct_iff, or_assoc]

theorem isClosing_iff : isClosing t = true ↔ ∃ c ∈ closes, t.shape = .punct c := by
  simp [isClosing, closes, Token.isPunct_iff, or_assoc]

theorem arguments_opening {c : Char} (hc : c ∈ opens) (ht : t.shape = .punct c) (depth : Nat)
    (rest : List Token) : arguments (depth + 1) (t :: rest) = arguments (depth + 2) rest := by
  rw [arguments, if_pos (isOpening_iff.mpr ⟨c, hc, ht⟩)]

theorem not_mem_opens {d : Char} (hd : d ∈ closes) : d ∉ opens := by
  simp only [closes, List.mem_cons, List.not_mem_nil, or_false] at hd
  rcases hd with rfl | rfl | rfl <;> decide

theorem arguments_closing {d : Char} (hd : d ∈ closes) (ht : t.shape = .punct d) (depth : Nat)
    (rest : List Token) : arguments (depth + 1) (t :: rest) = arguments depth rest := by
  have notOpening : ¬ isOpening t = true := by
    rintro opening
    obtain ⟨c, hc, ht'⟩ := isOpening_iff.mp opening
    cases ht.symm.trans ht'
    exact not_mem_opens hd hc
  rw [arguments, if_neg notOpening, if_pos (isClosing_iff.mpr ⟨d, hd, ht⟩)]

theorem arguments_plain (ht : ∀ c, t.shape = .punct c → c ∉ opens ∧ c ∉ closes) (depth : Nat)
    (rest : List Token) : arguments (depth + 1) (t :: rest) =
      ((templateAt? (t :: rest)).toList ++ (arguments (depth + 1) rest).1,
        (arguments (depth + 1) rest).2) := by
  have notOpening : ¬ isOpening t = true := fun opening => by
    obtain ⟨c, hc, ht'⟩ := isOpening_iff.mp opening
    exact (ht c ht').1 hc
  have notClosing : ¬ isClosing t = true := fun closing => by
    obtain ⟨c, hc, ht'⟩ := isClosing_iff.mp closing
    exact (ht c ht').2 hc
  rw [arguments, if_neg notOpening, if_neg notClosing]

/-- What is read of balanced shapes and the bracket behind them. -/
theorem arguments_append {d : Char} {close : Token} (hss : Balanced ss)
    (hts : ts.map Token.shape = ss) (hd : d ∈ closes) (hclose : close.shape = .punct d)
    (depth : Nat) (rest : List Token) : arguments (depth + 1) (ts ++ close :: rest) =
      (templatesIn ss ++ (arguments depth rest).1, (arguments depth rest).2) := by
  induction hss generalizing ts d close depth rest with
  | nil =>
    rw [List.map_eq_nil_iff.mp hts, List.nil_append, arguments_closing hd hclose]
    rfl
  | @plain s ss hs hss ih =>
    obtain ⟨t, later, rfl, rfl, hlater⟩ := List.map_eq_cons_iff.mp hts
    have template : templateAt? (t :: (later ++ close :: rest)) = templateOf? (t.shape :: ss) := by
      rw [templateAt?_eq, List.map_cons, List.map_append, hlater, List.map_cons, hclose,
        ← List.cons_append, templateOf?_append_closing hd]
    rw [List.cons_append, arguments_plain hs, template, ih hlater hd hclose, templatesIn,
      List.append_assoc]
  | @nested c d' inner ss hc hinner hd' hss ihInner ih =>
    obtain ⟨front, _, rfl, hfront, hback⟩ := List.map_eq_append_iff.mp hts
    obtain ⟨t, tokens, rfl, ht, htokens⟩ := List.map_eq_cons_iff.mp hfront
    obtain ⟨u, later, rfl, hu, hlater⟩ := List.map_eq_cons_iff.mp hback
    rw [List.append_assoc, List.cons_append, List.cons_append, arguments_opening hc ht,
      ihInner htokens hd' hu, ih hlater hd hclose, List.cons_append, templatesIn,
      templatesIn_append_closing hd']
    simp [templateOf?]

/-! ### Quiet parts -/

/-- The tokens continue no call of a known decorator that starts in front of them. -/
def Apart (rest : List Token) : Prop :=
  ∀ t ∈ rest.head?, t.shape ≠ .punct '(' ∧ ∀ name ∈ decorators, t.shape ≠ .name name

theorem decoratedIn_of_not_at (ht : t.shape ≠ .punct '@') (rest : List Token) :
    decoratedIn (t :: rest) = decoratedIn rest := by
  rcases rest with _ | ⟨name, _ | ⟨bracket, rest⟩⟩
  · simp [decoratedIn]
  · simp [decoratedIn]
  · have notAt : t.isPunct '@' = false := by simpa [← Token.isPunct_iff] using ht
    simp [decoratedIn, notAt]

theorem decoratedIn_append_of_not_at (h : ∀ t ∈ ts, t.shape ≠ .punct '@') (rest : List Token) :
    decoratedIn (ts ++ rest) = decoratedIn rest := by
  induction ts with
  | nil => rfl
  | cons t ts ih =>
    rw [List.cons_append, decoratedIn_of_not_at (h t List.mem_cons_self),
      ih fun u hu => h u (List.mem_cons_of_mem _ hu)]

/-- A place where no known decorator is called is passed over. -/
theorem decoratedIn_cons
    (quiet : ∀ name ∈ decorators, ¬ callOf name <+: (t :: rest).map Token.shape) : decoratedIn (t :: rest) = decoratedIn rest := by
  rcases rest with _ | ⟨name, _ | ⟨bracket, rest⟩⟩
  · simp [decoratedIn]
  · simp [decoratedIn]
  · rw [decoratedIn]
    split
    next h =>
      rw [Bool.and_eq_true, decide_eq_true_iff] at h
      have hname := Token.shape_eq_name_iff.mpr ⟨h.2, rfl⟩
      rw [if_neg]
      · exact (decoratedIn_of_not_at (by simp [hname]) _).symm
      · intro h'
        rw [Bool.and_eq_true, List.contains_iff_mem, Token.isPunct_iff] at h'
        refine quiet _ h'.1 ⟨rest.map Token.shape, ?_⟩
        simp [callOf, hname, h'.2, Token.isPunct_iff.mp h.1]
    next => rfl

theorem decoratedIn_append (quiet : Quiet (ts.map Token.shape)) (apart : Apart rest) :
    decoratedIn (ts ++ rest) = decoratedIn rest := by
  induction ts with
  | nil => rfl
  | cons t ts ih =>
    have later : Quiet (ts.map Token.shape) := fun name hname found =>
      quiet name hname (found.trans (List.suffix_cons _ _).isInfix)
    rw [List.cons_append, decoratedIn_cons, ih later]
    intro name hname found
    -- A call that starts at the last tokens would go on in what follows them.
    rcases ts with _ | ⟨u, _ | ⟨v, ts⟩⟩
    · obtain ⟨-, called⟩ := List.cons_prefix_cons.mp found
      cases rest with
      | nil => simp at called
      | cons u rest =>
        exact (apart u rfl).2 name hname (List.cons_prefix_cons.mp called).1.symm
    · obtain ⟨-, called⟩ := List.cons_prefix_cons.mp (List.cons_prefix_cons.mp found).2
      cases rest with
      | nil => simp at called
      | cons v rest => exact (apart v rfl).1 (List.cons_prefix_cons.mp called).1.symm
    · refine quiet name hname (List.IsPrefix.isInfix ?_)
      simpa [callOf, List.cons_prefix_cons] using found

/-! ### One declaration -/

variable {d : Decorator}

theorem tokens_of_decorator (hts : ts.map Token.shape = d.shapes) :
    ∃ sign name bracket args close, ts = sign :: name :: bracket :: (args ++ [close]) ∧
      sign.shape = .punct '@' ∧ name.shape = .name d.name ∧ bracket.shape = .punct '(' ∧
      args.map Token.shape = d.arguments ∧ close.shape = .punct ')' := by
  rw [Decorator.shapes, List.append_assoc] at hts
  obtain ⟨call, _, rfl, hcall, hback⟩ := List.map_eq_append_iff.mp hts
  obtain ⟨args, _, rfl, hargs, hend⟩ := List.map_eq_append_iff.mp hback
  simp only [callOf, List.map_eq_cons_iff, List.map_eq_nil_iff] at hcall hend
  obtain ⟨sign, _, rfl, hsign, name, _, rfl, hname, bracket, _, rfl, hbracket, rfl⟩ := hcall
  obtain ⟨close, _, rfl, hclose, rfl⟩ := hend
  exact ⟨sign, name, bracket, args, close, rfl, hsign, hname, hbracket, hargs, hclose⟩

/-- A known decorator belongs to the class ahead of it. -/
theorem decoratedIn_known (hts : ts.map Token.shape = d.shapes) (known : d.IsKnown)
    (rest : List Token) : decoratedIn (ts ++ rest) =
      ((classAhead rest).1.map fun className =>
        DecoratedClass.mk className (templatesIn d.arguments)).toList ++
          decoratedIn (classAhead rest).2 := by
  obtain ⟨sign, name, bracket, args, close, rfl, hsign, hname, hbracket, hargs, hclose⟩ :=
    tokens_of_decorator hts
  obtain ⟨hkind, htext⟩ := Token.shape_eq_name_iff.mp hname
  have read : arguments 1 (args ++ close :: rest) = (templatesIn d.arguments, rest) := by
    rw [arguments_append d.balanced hargs (by decide) hclose, arguments]
    simp
  have named : name.text ∈ decorators := htext ▸ known
  have start : sign :: name :: bracket :: (args ++ [close]) ++ rest =
      sign :: name :: bracket :: (args ++ close :: rest) := by simp
  rw [start, decoratedIn]
  simp [Token.isPunct_iff.mpr hsign, Token.isPunct_iff.mpr hbracket, hkind, named, read]

/-- Any other decorator is passed over. -/
theorem decoratedIn_unknown (hts : ts.map Token.shape = d.shapes) (unknown : ¬ d.IsKnown)
    (quiet : Quiet d.arguments) (rest : List Token) :
    decoratedIn (ts ++ rest) = decoratedIn rest := by
  obtain ⟨sign, name, bracket, args, close, rfl, hsign, hname, hbracket, hargs, hclose⟩ :=
    tokens_of_decorator hts
  have apart : Apart (close :: rest) := by
    rintro _ ⟨⟩
    simp [hclose]
  have start : sign :: name :: bracket :: (args ++ [close]) ++ rest =
      sign :: name :: bracket :: (args ++ close :: rest) := by simp
  rw [start, decoratedIn_cons, decoratedIn_of_not_at (by simp [hname]),
    decoratedIn_of_not_at (by simp [hbracket]), decoratedIn_append (hargs ▸ quiet) apart,
    decoratedIn_of_not_at (by simp [hclose])]
  intro known hknown called
  rw [List.map_cons, List.map_cons, hname] at called
  have same := (List.cons_prefix_cons.mp (List.cons_prefix_cons.mp called).2).1
  cases same
  exact unknown hknown

theorem classAhead_at (ht : t.shape = .punct '@') (rest : List Token) :
    classAhead (t :: rest) = (none, t :: rest) := by
  have notClass : t.isIdent "class" = false := by simp [← Bool.not_eq_true, Token.isIdent_iff, ht]
  simp [classAhead, Token.isPunct_iff.mpr ht, notClass]

theorem not_at_heading {modifiers : List Modifier} {name : String}
    (hts : ts.map Token.shape = modifiers.map (.name ·.keyword) ++ [.name "class", .name name]) :
    ∀ t ∈ ts, t.shape ≠ .punct '@' := by
  intro t ht
  have hmem := List.mem_map_of_mem (f := Token.shape) ht
  rw [hts, List.mem_append] at hmem
  rcases hmem with hmem | hmem
  · obtain ⟨m, -, hm⟩ := List.mem_map.mp hmem
    simp [← hm]
  · simp only [List.mem_cons, List.not_mem_nil, or_false] at hmem
    rcases hmem with hm | hm <;> simp [hm]

/-- A class is ahead of its modifiers. -/
theorem classAhead_heading {modifiers : List Modifier} {name : String}
    (hts : ts.map Token.shape =
      modifiers.map (.name ·.keyword) ++ [.name "class", .name name])
    (rest : List Token) : classAhead (ts ++ rest) = (some name, rest) := by
  obtain ⟨front, _, rfl, hfront, hback⟩ := List.map_eq_append_iff.mp hts
  simp only [List.map_eq_cons_iff, List.map_eq_nil_iff] at hback
  obtain ⟨keyword, _, rfl, hkeyword, nameToken, _, rfl, hname, rfl⟩ := hback
  obtain ⟨hkind, rfl⟩ := Token.shape_eq_name_iff.mp hname
  have passed : ∀ t ∈ front, (!t.isPunct '@' && !t.isIdent "class") = true := by
    intro t ht
    have hmem := List.mem_map_of_mem (f := Token.shape) ht
    rw [hfront] at hmem
    obtain ⟨m, -, hm⟩ := List.mem_map.mp hmem
    simp only [Bool.and_eq_true, Bool.not_eq_true', ← Bool.not_eq_true, Token.isPunct_iff,
      Token.isIdent_iff, ← hm]
    cases m <;> simp [Modifier.keyword]
  have hclass := Token.isIdent_iff.mpr hkeyword
  rw [List.append_assoc, classAhead, List.dropWhile_append_of_pos passed]
  simp [hclass, hkind]

/-- The templates that the last decorator names, if it is a known one. -/
def lastTemplates? (ds : List Decorator) : Option (List String) :=
  ds.getLast?.bind fun d => if d.IsKnown then some (templatesIn d.arguments) else none

/-- The templates that the known decorators name, if there is one. -/
def allTemplates? (ds : List Decorator) : Option (List String) :=
  if ∃ d ∈ ds, d.IsKnown then
    some ((ds.filter (·.IsKnown)).flatMap fun d => templatesIn d.arguments)
  else none

theorem lastTemplates?_cons (d e : Decorator) (ds : List Decorator) :
    lastTemplates? (d :: e :: ds) = lastTemplates? (e :: ds) := by
  rw [lastTemplates?, List.getLast?_cons_cons]
  rfl

/-- The last decorator of a class is the one that is found. -/
theorem decoratedIn_decorators {ds : List Decorator} {modifiers : List Modifier} {name : String}
    {heading body : List Token}
    (hts : ts.map Token.shape = ds.flatMap Decorator.shapes)
    (quiet : ∀ d ∈ ds, ¬ d.IsKnown → Quiet d.arguments)
    (hheading : heading.map Token.shape =
      modifiers.map (.name ·.keyword) ++ [.name "class", .name name])
    (hbody : Quiet (body.map Token.shape)) (apart : Apart rest) :
    decoratedIn (ts ++ (heading ++ (body ++ rest))) =
      ((lastTemplates? ds).map (DecoratedClass.mk name)).toList ++ decoratedIn rest := by
  induction ds generalizing ts with
  | nil =>
    rw [List.map_eq_nil_iff.mp hts, List.nil_append, decoratedIn_append_of_not_at,
      decoratedIn_append hbody apart]
    · rfl
    · exact not_at_heading hheading
  | cons d ds ih =>
    obtain ⟨front, back, rfl, hfront, hback⟩ := List.map_eq_append_iff.mp hts
    have later := ih hback fun e he => quiet e (List.mem_cons_of_mem _ he)
    rw [List.append_assoc]
    by_cases known : d.IsKnown
    · rw [decoratedIn_known hfront known]
      cases ds with
      | nil =>
        rw [List.map_eq_nil_iff.mp hback, List.nil_append, classAhead_heading hheading,
          decoratedIn_append hbody apart]
        simp [lastTemplates?, known]
      | cons e ds =>
        obtain ⟨t, rest', rfl, ht, -⟩ := List.map_eq_cons_iff.mp hback
        rw [List.cons_append] at later ⊢
        rw [classAhead_at ht, later, lastTemplates?_cons]
        rfl
    · rw [decoratedIn_unknown hfront known (quiet d List.mem_cons_self known), later]
      cases ds with
      | nil => simp [lastTemplates?, known]
      | cons e ds => rw [lastTemplates?_cons]

/-! ### Files of declarations -/

namespace ClassDeclaration

variable (c : ClassDeclaration)

/-- The class as it is found. -/
def found? : Option DecoratedClass := (lastTemplates? c.decorators).map (.mk c.name)

/-- The class with all its templates, if it has a known decorator. -/
def decorated? : Option DecoratedClass := (allTemplates? c.decorators).map (.mk c.name)

/-- No known decorator is called in the body or in the arguments of a decorator that is not known
itself. -/
structure IsQuiet : Prop where
  arguments : ∀ d ∈ c.decorators, ¬ d.IsKnown → Quiet d.arguments
  body : Quiet c.body

/-- If one of the decorators is known then the last one is, and the others name no templates that
count. -/
def EndsKnown : Prop :=
  (∃ d ∈ c.decorators, d.IsKnown) → ∃ before last, c.decorators = before ++ [last] ∧
    last.IsKnown ∧ ∀ d ∈ before, d.IsKnown → templatesIn d.arguments = []

end ClassDeclaration

theorem decoratedIn_declaration {c : ClassDeclaration} (quiet : c.IsQuiet)
    (hts : ts.map Token.shape = c.shapes) (apart : Apart rest) :
    decoratedIn (ts ++ rest) = c.found?.toList ++ decoratedIn rest := by
  have parts : c.shapes = c.decorators.flatMap Decorator.shapes ++
      ((c.modifierShapes ++ [.name "class", .name c.name]) ++ c.body) := by
    simp [ClassDeclaration.shapes]
  rw [parts] at hts
  obtain ⟨front, _, rfl, hfront, hback⟩ := List.map_eq_append_iff.mp hts
  obtain ⟨heading, body, rfl, hheading, hbody⟩ := List.map_eq_append_iff.mp hback
  rw [List.append_assoc, List.append_assoc,
    decoratedIn_decorators hfront quiet.arguments hheading (hbody ▸ quiet.body) apart]
  rfl

theorem apart_of_declarations {cs : List ClassDeclaration}
    (hts : ts.map Token.shape = cs.flatMap ClassDeclaration.shapes) : Apart ts := by
  cases cs with
  | nil =>
    rw [List.map_eq_nil_iff.mp hts]
    nofun
  | cons c cs =>
    obtain ⟨ds, modifiers, name, body⟩ := c
    rcases ds with _ | ⟨d, ds⟩
    · rcases modifiers with _ | ⟨m, modifiers⟩
      · obtain ⟨u, _, rfl, hu, -⟩ := List.map_eq_cons_iff.mp hts
        rintro _ ⟨⟩
        simp [hu, decorators]
      · obtain ⟨u, _, rfl, hu, -⟩ := List.map_eq_cons_iff.mp hts
        rintro _ ⟨⟩
        cases m <;> simp [hu, decorators, Modifier.keyword]
    · obtain ⟨u, _, rfl, hu, -⟩ := List.map_eq_cons_iff.mp hts
      rintro _ ⟨⟩
      simp [hu]

theorem decoratedIn_declarations {cs : List ClassDeclaration} (quiet : ∀ c ∈ cs, c.IsQuiet)
    (hts : ts.map Token.shape = cs.flatMap ClassDeclaration.shapes) :
    decoratedIn ts = cs.filterMap ClassDeclaration.found? := by
  induction cs generalizing ts with
  | nil =>
    rw [List.map_eq_nil_iff.mp hts]
    simp [decoratedIn]
  | cons c cs ih =>
    obtain ⟨front, back, rfl, hfront, hback⟩ := List.map_eq_append_iff.mp hts
    rw [decoratedIn_declaration (quiet c List.mem_cons_self) hfront (apart_of_declarations hback),
      ih (fun c hc => quiet c (List.mem_cons_of_mem _ hc)) hback, List.filterMap_cons]
    cases c.found? <;> rfl

theorem length_filterMap_le_of_isSome {α β : Type} {f g : α → Option β}
    (h : ∀ x, (f x).isSome → (g x).isSome) (l : List α) :
    (l.filterMap f).length ≤ (l.filterMap g).length := by
  induction l with
  | nil => exact Nat.le_refl _
  | cons x l ih =>
    have here := h x
    simp only [List.filterMap_cons]
    cases hf : f x <;> cases hg : g x <;> simp_all
    omega

/-- What is left out of a list by a function that gives less than another one shows. -/
theorem filterMap_eq_filterMap_iff {α β : Type} {f g : α → Option β}
    (h : ∀ x, (f x).isSome → (g x).isSome) (l : List α) :
    l.filterMap f = l.filterMap g ↔ ∀ x ∈ l, f x = g x := by
  refine ⟨fun same => ?_, List.filterMap_congr⟩
  induction l with
  | nil => nofun
  | cons x l ih =>
    have here := h x
    have fewer := length_filterMap_le_of_isSome h l
    simp only [List.filterMap_cons] at same
    rw [List.forall_mem_cons]
    cases hf : f x with
    | none =>
      cases hg : g x with
      | none => exact ⟨rfl, ih (by simpa [hf, hg] using same)⟩
      | some b =>
        have shorter := congrArg List.length same
        simp only [hf, hg, List.length_cons] at shorter
        omega
    | some a =>
      obtain ⟨b, hg⟩ := Option.isSome_iff_exists.mp (here (by simp [hf]))
      simp only [hf, hg, List.cons.injEq] at same
      exact ⟨by rw [hg, same.1], ih same.2⟩

theorem lastTemplates?_eq_some_iff {ds : List Decorator} {urls : List String} :
    lastTemplates? ds = some urls ↔
      ∃ before last, ds = before ++ [last] ∧ last.IsKnown ∧ templatesIn last.arguments = urls := by
  simp only [lastTemplates?, Option.bind_eq_some_iff, List.getLast?_eq_some_iff]
  constructor
  · rintro ⟨last, ⟨before, rfl⟩, h⟩
    split at h
    next known => exact ⟨before, last, rfl, known, Option.some.inj h⟩
    next => cases h
  · rintro ⟨before, last, rfl, known, rfl⟩
    exact ⟨last, ⟨before, rfl⟩, if_pos known⟩

theorem isSome_allTemplates? {ds : List Decorator} (h : (lastTemplates? ds).isSome) :
    (allTemplates? ds).isSome := by
  obtain ⟨urls, h⟩ := Option.isSome_iff_exists.mp h
  obtain ⟨before, last, rfl, known, -⟩ := lastTemplates?_eq_some_iff.mp h
  have any : ∃ d ∈ before ++ [last], d.IsKnown := ⟨last, by simp, known⟩
  rw [allTemplates?, if_pos any]
  rfl

theorem found?_eq_decorated?_iff (c : ClassDeclaration) :
    c.found? = c.decorated? ↔ c.EndsKnown := by
  have inj : c.found? = c.decorated? ↔ lastTemplates? c.decorators = allTemplates? c.decorators :=
    (Option.map_injective fun _ _ h => (DecoratedClass.mk.inj h).2).eq_iff
  rw [inj, ClassDeclaration.EndsKnown]
  generalize c.decorators = ds
  by_cases any : ∃ d ∈ ds, d.IsKnown
  · rw [allTemplates?, if_pos any, lastTemplates?_eq_some_iff, forall_prop_of_true any]
    refine exists_congr fun before => exists_congr fun last => and_congr_right ?_
    rintro rfl
    refine and_congr_right fun known => ?_
    simp [known, List.filter_append]
  · have nothing : lastTemplates? ds = none := by
      rw [Option.eq_none_iff_forall_ne_some]
      intro urls h
      obtain ⟨before, last, rfl, known, -⟩ := lastTemplates?_eq_some_iff.mp h
      exact any ⟨last, by simp, known⟩
    rw [nothing, allTemplates?, if_neg any]
    exact iff_of_true rfl fun h => absurd h any

theorem decoratedClasses_eq_iff (f : SourceFile) (cs : List ClassDeclaration)
    (hf : f.tokens.map Token.shape = cs.flatMap ClassDeclaration.shapes)
    (quiet : ∀ c ∈ cs, c.IsQuiet) :
    decoratedClasses f = cs.filterMap ClassDeclaration.found? ∧
      (decoratedClasses f = cs.filterMap ClassDeclaration.decorated? ↔ ∀ c ∈ cs, c.EndsKnown) := by
  have found : decoratedClasses f = cs.filterMap ClassDeclaration.found? :=
    decoratedIn_declarations quiet hf
  refine ⟨found, ?_⟩
  rw [found, filterMap_eq_filterMap_iff]
  · simp only [found?_eq_decorated?_iff]
  · intro c
    simpa only [ClassDeclaration.found?, ClassDeclaration.decorated?, Option.isSome_map] using
      isSome_allTemplates?

/-- A known decorator that another one follows is not found. -/
theorem decoratedClasses_of_second_decorator :
    let f : SourceFile := ⟨⟨"/a.ts"⟩, "@NgModule() @Injectable() export class A \x7b\x7d"⟩
    let c : ClassDeclaration := ⟨[⟨"NgModule", [], .nil⟩, ⟨"Injectable", [], .nil⟩], [.exported],
      "A", [.punct '\x7b', .punct '\x7d']⟩
    f.tokens.map Token.shape = [c].flatMap ClassDeclaration.shapes ∧ c.IsQuiet ∧
      decoratedClasses f = [] ∧ [c].filterMap ClassDeclaration.decorated? = [⟨"A", []⟩] := by
  refine ⟨by decide +kernel, ⟨?_, by decide⟩, by decide +kernel, by decide +kernel⟩
  simp only [List.forall_mem_cons]
  decide

/-- The arguments that name one template. -/
def templateArguments (url : String) : List Shape :=
  [.punct '\x7b', .name templateProperty, .punct ':', .literal url, .punct '\x7d']

theorem balanced_templateArguments (url : String) : Balanced (templateArguments url) :=
  .nested (c := '\x7b') (d := '\x7d') (by decide)
    (.plain (by simp) (.plain (by simp [opens, closes]) (.plain (by simp) .nil))) (by decide) .nil

theorem decoratedClasses_of_component :
    let f : SourceFile := ⟨⟨"/a.ts"⟩,
      "@Injectable() @Component(\x7btemplateUrl: './a.html'\x7d) export class A \x7b\x7d"⟩
    let c : ClassDeclaration :=
      ⟨[⟨"Injectable", [], .nil⟩, ⟨"Component", _, balanced_templateArguments "./a.html"⟩],
        [.exported], "A", [.punct '\x7b', .punct '\x7d']⟩
    decoratedClasses f = [c].filterMap ClassDeclaration.found? ∧
      (decoratedClasses f = [c].filterMap ClassDeclaration.decorated? ↔
        ∀ d ∈ [c], d.EndsKnown) := by
  intro f c
  have quiet : c.IsQuiet := by
    refine ⟨?_, by decide⟩
    simp only [c, List.forall_mem_cons]
    decide
  exact decoratedClasses_eq_iff f [c] (by decide +kernel) (by simpa using quiet)

end Precompile.Factory
