import Mathlib.Data.List.Basic
import Precompile.Pattern.Glob

/-!
What globs match.

`Selected` says which texts a glob stands for, character by character, and the matcher decides it:
the parts that it reads stand for the same (`fits_readParts_iff`), and its tables tell for each rest
of a text whether they do (`allMatch_iff`).
-/

namespace Precompile

/-! ### Parts -/

namespace GlobPart

/-- What a part of a glob stands for. -/
def Takes : GlobPart → List Char → Prop
  | literal c, s => s = [c]
  | single, s => ∃ c, s = [c] ∧ c ≠ '/'
  | segment, s => '/' ∉ s
  | anything, s => '\n' ∉ s
  | directories, s => s = [] ∨ ∃ dirs, s = dirs ++ ['/'] ∧ '\n' ∉ dirs

/-- The parts stand for a whole text, one after the other. -/
inductive Fits : List GlobPart → List Char → Prop where
  | nil : Fits [] []
  | cons (part : GlobPart) {parts : List GlobPart} {s text : List Char} :
      part.Takes s → Fits parts text → Fits (part :: parts) (s ++ text)

theorem fits_nil_iff {text : List Char} : Fits [] text ↔ text = [] :=
  ⟨fun h => by cases h; rfl, fun h => h ▸ .nil⟩

theorem fits_cons_iff {part : GlobPart} {parts : List GlobPart} {text : List Char} :
    Fits (part :: parts) text ↔ ∃ s rest, text = s ++ rest ∧ part.Takes s ∧ Fits parts rest := by
  constructor
  · intro fits
    cases fits with
    | cons _ takes fits => exact ⟨_, _, rfl, takes, fits⟩
  · rintro ⟨s, rest, rfl, takes, fits⟩
    exact .cons part takes fits

/-! ### Matching -/

/-- The answers tell of a text and of each of its rests whether `Q` holds. -/
inductive Tells (Q : List Char → Prop) : List Char → List Bool → Prop where
  | nil {b : Bool} : (b = true ↔ Q []) → Tells Q [] [b]
  | cons {b : Bool} {c : Char} {text : List Char} {later : List Bool} :
      (b = true ↔ Q (c :: text)) → Tells Q text later → Tells Q (c :: text) (b :: later)

variable {Q R : List Char → Prop} {p : Char → Bool} {text : List Char} {later : List Bool}

/-- The first answer is that of the text itself. -/
theorem Tells.headD_iff (tells : Tells Q text later) : later.headD false = true ↔ Q text := by
  cases tells with
  | nil h => exact h
  | cons h _ => exact h

theorem Tells.congr (tells : Tells Q text later) (same : ∀ t, Q t ↔ R t) : Tells R text later := by
  induction tells with
  | nil h => exact .nil (h.trans (same _))
  | cons h _ ih => exact .cons (h.trans (same _)) ih

theorem tells_nothing (text : List Char) : Tells (· = []) text (nothing text) := by
  induction text with
  | nil => exact .nil (by simp)
  | cons c text ih => exact .cons (by simp) ih

theorem Tells.or {answers : List Bool} (tells : Tells Q text later)
    (others : Tells R text answers) :
    Tells (fun t => Q t ∨ R t) text (List.zipWith (· || ·) later answers) := by
  induction tells generalizing answers with
  | nil h =>
    cases others with
    | nil h' => exact .nil (by rw [Bool.or_eq_true, h, h'])
  | cons h _ ih =>
    cases others with
    | cons h' others => exact .cons (by rw [Bool.or_eq_true, h, h']) (ih others)

/-- The text begins with one of which `P` holds, and `Q` holds of what follows. -/
def Joined (P Q : List Char → Prop) (text : List Char) : Prop :=
  ∃ s rest, text = s ++ rest ∧ P s ∧ Q rest

theorem Tells.oneThen (tells : Tells Q text later) :
    Tells (Joined (fun s => ∃ c, s = [c] ∧ p c = true) Q) text
      (GlobPart.oneThen p text later) := by
  induction tells with
  | nil => exact .nil (by simp [Joined])
  | @cons b c text later _ tells ih =>
    refine .cons ?_ ih
    rw [Bool.and_eq_true, List.tail_cons, tells.headD_iff]
    constructor
    · rintro ⟨hc, hQ⟩
      exact ⟨[c], text, rfl, ⟨c, rfl, hc⟩, hQ⟩
    · rintro ⟨_, rest, heq, ⟨d, rfl, hd⟩, hQ⟩
      cases heq
      exact ⟨hd, hQ⟩

theorem joined_all_nil : Joined (fun s => ∀ c ∈ s, p c = true) Q [] ↔ Q [] := by
  constructor
  · rintro ⟨s, rest, heq, -, hQ⟩
    obtain ⟨-, rfl⟩ := List.append_eq_nil_iff.mp heq.symm
    exact hQ
  · exact fun hQ => ⟨[], [], rfl, by simp, hQ⟩

theorem joined_all_cons {c : Char} : Joined (fun s => ∀ c ∈ s, p c = true) Q (c :: text) ↔
    Q (c :: text) ∨ p c = true ∧ Joined (fun s => ∀ c ∈ s, p c = true) Q text := by
  constructor
  · rintro ⟨s, rest, heq, hall, hQ⟩
    cases s with
    | nil => exact .inl (heq ▸ hQ)
    | cons d s =>
      cases heq
      obtain ⟨hc, hall⟩ := List.forall_mem_cons.mp hall
      exact .inr ⟨hc, s, rest, rfl, hall, hQ⟩
  · rintro (hQ | ⟨hc, s, rest, rfl, hall, hQ⟩)
    · exact ⟨[], c :: text, rfl, by simp, hQ⟩
    · exact ⟨c :: s, rest, rfl, List.forall_mem_cons.mpr ⟨hc, hall⟩, hQ⟩

theorem Tells.someThen (tells : Tells Q text later) :
    Tells (Joined (fun s => ∀ c ∈ s, p c = true) Q) text (GlobPart.someThen p text later) := by
  induction tells with
  | nil h => exact .nil (h.trans joined_all_nil.symm)
  | cons h tells ih =>
    refine .cons ?_ ih
    rw [Bool.or_eq_true, Bool.and_eq_true, List.headD_cons, h, List.tail_cons, ih.headD_iff,
      joined_all_cons]

theorem forall_bne_iff {c : Char} {s : List Char} : (∀ d ∈ s, (d != c) = true) ↔ c ∉ s := by
  simp only [bne_iff_ne]
  exact List.forall_mem_ne'

/-- Directories are nothing, or a text on one line and a slash behind it. -/
theorem joined_directories_iff : Joined (Takes .directories) Q text ↔
    Q text ∨ Joined (fun s => ∀ c ∈ s, (c != '\n') = true)
      (Joined (fun s => ∃ c, s = [c] ∧ (c == '/') = true) Q) text := by
  constructor
  · rintro ⟨_, rest, rfl, rfl | ⟨dirs, rfl, oneLine⟩, hQ⟩
    · exact .inl hQ
    · exact .inr ⟨dirs, '/' :: rest, by simp, forall_bne_iff.mpr oneLine, ['/'], rest, rfl,
        ⟨'/', rfl, rfl⟩, hQ⟩
  · rintro (hQ | ⟨dirs, _, rfl, oneLine, _, rest, rfl, ⟨c, rfl, slash⟩, hQ⟩)
    · exact ⟨[], text, rfl, .inl rfl, hQ⟩
    · obtain rfl := eq_of_beq slash
      exact ⟨dirs ++ ['/'], rest, by simp, .inr ⟨dirs, rfl, forall_bne_iff.mp oneLine⟩, hQ⟩

theorem Tells.andThen (part : GlobPart) (tells : Tells Q text later) :
    Tells (Joined part.Takes Q) text (GlobPart.andThen text part later) := by
  have takes : ∀ {P : List Char → Prop}, (∀ s, P s ↔ part.Takes s) → ∀ t,
      Joined P Q t ↔ Joined part.Takes Q t := fun same t =>
    exists_congr fun s => exists_congr fun rest =>
      and_congr_right fun _ => and_congr_left fun _ => same s
  cases part with
  | literal c => exact tells.oneThen.congr (takes fun s => by simp [Takes])
  | single => exact tells.oneThen.congr (takes fun s => by simp [Takes])
  | segment => exact tells.someThen.congr (takes fun s => forall_bne_iff)
  | anything => exact tells.someThen.congr (takes fun s => forall_bne_iff)
  | directories =>
    exact (tells.or tells.oneThen.someThen).congr fun t => joined_directories_iff.symm

theorem tells_parts (parts : List GlobPart) (text : List Char) :
    Tells (Fits parts) text (parts.foldr (GlobPart.andThen text) (nothing text)) := by
  induction parts with
  | nil => exact (tells_nothing text).congr fun t => fits_nil_iff.symm
  | cons part parts ih => exact (ih.andThen part).congr fun t => fits_cons_iff.symm

/-- Whatever way it takes, the matcher decides whether the parts stand for a text. -/
theorem allMatch_iff (parts : List GlobPart) (text : List Char) :
    allMatch parts text = true ↔ Fits parts text := by
  fun_induction allMatch parts text with
  | case1 c parts d text ih =>
    rw [Bool.and_eq_true, ih, fits_cons_iff]
    constructor
    · rintro ⟨same, fits⟩
      exact ⟨[d], text, rfl, by rw [eq_of_beq same]; rfl, fits⟩
    · rintro ⟨_, rest, heq, rfl, fits⟩
      cases heq
      exact ⟨beq_self_eq_true _, fits⟩
  | case2 parts d text ih =>
    rw [Bool.and_eq_true, ih, fits_cons_iff]
    constructor
    · rintro ⟨other, fits⟩
      exact ⟨[d], text, rfl, ⟨d, rfl, bne_iff_ne.mp other⟩, fits⟩
    · rintro ⟨_, rest, heq, ⟨c, rfl, other⟩, fits⟩
      cases heq
      exact ⟨bne_iff_ne.mpr other, fits⟩
  | case3 parts text => exact (tells_parts parts text).headD_iff

end GlobPart

/-! ### Globs -/

namespace Glob

open GlobPart (Takes Fits allMatch_iff fits_cons_iff fits_nil_iff)

/-- A glob, read character by character, stands for a text. -/
inductive Selected : List Char → List Char → Prop where
  | done : Selected [] []
  | nowhere {glob text : List Char} : Selected glob text → Selected ('*' :: '*' :: '/' :: glob) text
  | directories {glob text dirs : List Char} : '\n' ∉ dirs → Selected glob text →
      Selected ('*' :: '*' :: '/' :: glob) (dirs ++ '/' :: text)
  | anything {glob text s : List Char} : glob.head? ≠ some '/' → '\n' ∉ s → Selected glob text →
      Selected ('*' :: '*' :: glob) (s ++ text)
  | segment {glob text s : List Char} : glob.head? ≠ some '*' → '/' ∉ s → Selected glob text →
      Selected ('*' :: glob) (s ++ text)
  | single {glob text : List Char} {c : Char} : c ≠ '/' → Selected glob text →
      Selected ('?' :: glob) (c :: text)
  | itself {glob text : List Char} {c : Char} : c ≠ '*' → c ≠ '?' → Selected glob text →
      Selected (c :: glob) (c :: text)

theorem Selected.fits {glob text : List Char} (selected : Selected glob text) :
    Fits (readParts glob) text := by
  have other : ∀ {c : Char} {glob : List Char}, glob.head? ≠ some c →
      ∀ rest, glob = c :: rest → False := by
    rintro c glob hne rest rfl
    exact hne rfl
  induction selected with
  | done => exact .nil
  | nowhere _ ih =>
    rw [readParts]
    exact .cons (s := []) .directories (.inl rfl) ih
  | @directories glob text dirs oneLine _ ih =>
    rw [readParts, List.append_cons]
    exact .cons .directories (.inr ⟨dirs, rfl, oneLine⟩) ih
  | anything slash oneLine _ ih =>
    rw [readParts]
    · exact .cons .anything oneLine ih
    · exact other slash
  | segment star noSlash _ ih =>
    rw [readParts]
    · exact .cons .segment noSlash ih
    · exact fun rest heq => other star _ heq
    · exact other star
  | @single glob text c noSlash _ ih =>
    rw [readParts]
    exact .cons (s := [c]) .single ⟨c, rfl, noSlash⟩ ih
  | @itself glob text c star mark _ ih =>
    rw [readParts]
    · exact .cons (s := [c]) (.literal c) rfl ih
    · exact fun _ h => absurd h star
    · exact fun _ h => absurd h star
    · exact star
    · exact mark

/-- The parts of a glob stand for what its characters stand for. -/
theorem fits_readParts_iff {glob text : List Char} :
    Fits (readParts glob) text ↔ Selected glob text := by
  refine ⟨fun fits => ?_, Selected.fits⟩
  have head : ∀ {c : Char} {glob : List Char}, (∀ rest, glob = c :: rest → False) →
      glob.head? ≠ some c := by
    rintro c glob other hhead
    obtain ⟨rest, rfl⟩ := List.head?_eq_some_iff.mp hhead
    exact other rest rfl
  fun_induction readParts glob generalizing text with
  | case1 glob ih =>
    obtain ⟨_, text, rfl, rfl | ⟨dirs, rfl, oneLine⟩, later⟩ := fits_cons_iff.mp fits
    · exact .nowhere (ih later)
    · rw [List.append_assoc]
      exact .directories oneLine (ih later)
  | case2 glob slash ih =>
    obtain ⟨s, text, rfl, oneLine, later⟩ := fits_cons_iff.mp fits
    exact .anything (head slash) oneLine (ih later)
  | case3 glob _ star ih =>
    obtain ⟨s, text, rfl, noSlash, later⟩ := fits_cons_iff.mp fits
    exact .segment (head star) noSlash (ih later)
  | case4 glob ih =>
    obtain ⟨_, text, rfl, ⟨c, rfl, noSlash⟩, later⟩ := fits_cons_iff.mp fits
    exact .single noSlash (ih later)
  | case5 c glob _ _ star mark ih =>
    obtain ⟨_, text, rfl, rfl, later⟩ := fits_cons_iff.mp fits
    exact .itself star mark (ih later)
  | case6 => exact fits_nil_iff.mp fits ▸ .done

/-! ### Below a base -/

/-- What the parts of a glob are matched with: the whole text, or what follows the base in it. -/
def Below (base : Option (List Char)) (text rest : List Char) : Prop :=
  text = rest ∨ ∃ b, base = some b ∧ text = b ++ '/' :: rest

theorem stripStart?_eq_some_iff {bs cs rest : List Char} :
    stripStart? bs cs = some rest ↔ cs = bs ++ rest := by
  induction bs generalizing cs with
  | nil => simp [stripStart?]
  | cons b bs ih =>
    cases cs with
    | nil => simp [stripStart?]
    | cons c cs =>
      rw [stripStart?]
      split
      next same => simp [ih, same]
      next other => simp [Ne.symm other]

theorem any_starts_iff (g : Glob) (text : List Char) :
    (g.starts text).any (GlobPart.allMatch g.parts) = true ↔
      ∃ rest, Below g.base text rest ∧ Fits g.parts rest := by
  have mem : ∀ rest, rest ∈ g.starts text ↔ Below g.base text rest := by
    intro rest
    rw [starts, List.mem_cons, Below, Option.mem_toList, eq_comm]
    refine or_congr_right ?_
    simp [Option.bind_eq_some_iff, stripStart?_eq_some_iff]
  simp only [List.any_eq_true, mem, GlobPart.allMatch_iff]

/-- The glob stands for a text as a whole, or for what follows the base in it. -/
def Selects (base : List Char) (glob : String) (text : List Char) : Prop :=
  ∃ rest, (text = rest ∨ text = base ++ '/' :: rest) ∧
    Selected (trimHere (forwardSlashes glob.toList)) rest

theorem below_some_iff {base text rest : List Char} :
    Below (some base) text rest ↔ text = rest ∨ text = base ++ '/' :: rest := by
  simp [Below]

theorem selects_iff {base : List Char} {glob : String} {text : List Char} :
    Selects base glob text ↔ ∃ rest, Below (some base) text rest ∧
      Fits (readParts (trimHere (forwardSlashes glob.toList))) rest := by
  simp only [Selects, below_some_iff, fits_readParts_iff]

instance (base : List Char) (glob : String) (text : List Char) :
    Decidable (Selects base glob text) :=
  decidable_of_iff _
    ((any_starts_iff ⟨some base, readParts (trimHere (forwardSlashes glob.toList))⟩ text).trans
      selects_iff.symm)

theorem matchesPath_parse_iff {pattern : String} {base p : Path} :
    (parse pattern (some base)).matchesPath p = true ↔
      Selects (trimSlashes (forwardSlashes base.text.toList)) pattern
        (forwardSlashes p.text.toList) :=
  (any_starts_iff _ _).trans selects_iff.symm

/-! ### The glob for everything -/

variable {base rest text : List Char}

theorem selected_segment_iff : Selected ['*'] rest ↔ '/' ∉ rest := by
  constructor
  · intro selected
    generalize hglob : ['*'] = glob at selected
    cases selected with
    | segment _ noSlash later =>
      cases hglob
      cases later
      simpa using noSlash
    | itself star _ _ =>
      cases hglob
      exact absurd rfl star
    | _ => simp at hglob
  · intro noSlash
    have whole : Selected ('*' :: []) (rest ++ []) := .segment (by simp) noSlash .done
    rwa [List.append_nil] at whole

/-- No line feed comes before the last slash of a text. -/
def OneLineAbove (text : List Char) : Prop :=
  ∀ dirs name, text = dirs ++ '/' :: name → '/' ∉ name → '\n' ∉ dirs

/-- There is one last slash. -/
theorem eq_of_last_slash {dirs dirs' name name' : List Char} (noSlash : '/' ∉ name)
    (noSlash' : '/' ∉ name') (same : dirs ++ '/' :: name = dirs' ++ '/' :: name') :
    dirs = dirs' := by
  rcases List.append_eq_append_iff.mp same with ⟨more, rfl, h⟩ | ⟨more, rfl, h⟩
  · cases more with
    | nil => simp
    | cons c more =>
      rw [List.cons_append, List.cons.injEq] at h
      exact absurd (h.2 ▸ List.mem_append_right _ List.mem_cons_self) noSlash
  · cases more with
    | nil => simp
    | cons c more =>
      rw [List.cons_append, List.cons.injEq] at h
      exact absurd (h.2 ▸ List.mem_append_right _ List.mem_cons_self) noSlash'

theorem exists_last_slash (slash : '/' ∈ rest) :
    ∃ dirs name, rest = dirs ++ '/' :: name ∧ '/' ∉ name := by
  obtain ⟨name, dirs, split, noSlash⟩ := List.eq_append_cons_of_mem (List.mem_reverse.mpr slash)
  refine ⟨dirs.reverse, name.reverse, ?_, by simpa using noSlash⟩
  rw [← List.reverse_reverse rest, split]
  simp

theorem selected_everything_iff :
    Selected ['*', '*', '/', '*'] rest ↔ OneLineAbove rest := by
  constructor
  · intro selected
    generalize hglob : ['*', '*', '/', '*'] = glob at selected
    cases selected with
    | nowhere later =>
      cases hglob
      rintro dirs name rfl _
      exact absurd (List.mem_append_right _ List.mem_cons_self) (selected_segment_iff.mp later)
    | directories oneLine later =>
      cases hglob
      intro dirs name split noSlash
      exact eq_of_last_slash (selected_segment_iff.mp later) noSlash split ▸ oneLine
    | anything slash _ _ =>
      cases hglob
      exact absurd rfl slash
    | segment star _ _ =>
      cases hglob
      exact absurd rfl star
    | itself star _ _ =>
      cases hglob
      exact absurd rfl star
    | _ => simp at hglob
  · intro oneLine
    by_cases slash : '/' ∈ rest
    · obtain ⟨dirs, name, rfl, noSlash⟩ := exists_last_slash slash
      exact .directories (oneLine dirs name rfl noSlash) (selected_segment_iff.mpr noSlash)
    · exact .nowhere (selected_segment_iff.mpr slash)

/-- The glob for everything selects the texts that have, whole or below the base, no line feed in
front of their last slash. -/
theorem selects_everything_iff :
    Selects base "**/*" text ↔ ∃ rest, (text = rest ∨ text = base ++ '/' :: rest) ∧
      OneLineAbove rest := by
  have glob : trimHere (forwardSlashes "**/*".toList) = ['*', '*', '/', '*'] := by decide
  simp only [Selects, glob, selected_everything_iff]

end Glob

end Precompile
