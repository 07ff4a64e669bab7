import Precompile.Proofs.Script.Segmentation
import Precompile.Script.Bytewise

/-!
Reading a script by its bytes.

At a place between two characters the bytes tell the same as the characters do
(`Uniform.byteAt_iff`), so that each part of the reading by bytes stops where the reading by
characters does. It never cuts a character, never leaves the text and always gets on
(`lexFrom?_eq`).
-/

namespace Precompile.Script.Bytewise

theorem size_eq_width (cs : List Char) : size cs = width cs := by
  induction cs with
  | nil => rfl
  | cons c cs ih =>
    rw [width, ← ih, size, bytes, List.flatMap_cons, List.length_append,
      String.length_utf8EncodeChar]
    rfl

theorem charWidth_of_ascii {c : Char} (ascii : c.toNat < 128) : charWidth c = 1 := by
  rw [charWidth, Char.utf8Size_eq_one_iff, UInt32.le_iff_toNat_le]
  exact Nat.le_of_lt_succ ascii

/-- The bytes of a character are where it is. -/
theorem byteAt_add {cs rest : List Char} {i k : Nat} {c : Char} (h : Ahead cs i (c :: rest))
    (hk : k < (String.utf8EncodeChar c).length) :
    byteAt cs (i + k) = Char.ofUInt8 (String.utf8EncodeChar c)[k] := by
  obtain ⟨before, rfl, rfl⟩ := h
  have hbefore : (bytes before).length = width before := size_eq_width before
  have hbytes : bytes (before ++ c :: rest) =
      bytes before ++ (String.utf8EncodeChar c ++ bytes rest) := by
    rw [bytes, List.flatMap_append, List.flatMap_cons]
    rfl
  rw [byteAt, hbytes, List.getElem?_append_right (by omega), hbefore, Nat.add_sub_cancel_left,
    List.getElem?_append_left hk, List.getElem?_eq_getElem hk]
  rfl

/-- The one byte of an ASCII character has its number. -/
theorem byteAt_of_ascii {cs rest : List Char} {i : Nat} {c : Char} (h : Ahead cs i (c :: rest))
    (ascii : c.toNat < 128) : byteAt cs i = c := by
  have encoded := String.utf8EncodeChar_eq_singleton (charWidth_of_ascii ascii)
  have first := byteAt_add h (k := 0) (by rw [encoded]; exact Nat.one_pos)
  simp only [encoded, Nat.add_zero, List.getElem_cons_zero] at first
  rw [first]
  refine Char.ext (UInt32.toNat_inj.mp ?_)
  have hval : c.val.toNat < 128 := ascii
  show c.val.toUInt8.toUInt32.toNat = c.val.toNat
  rw [UInt8.toNat_toUInt32, UInt32.toNat_toUInt8]
  omega

/-- All bytes of another character have numbers beyond ASCII. -/
theorem le_toNat_of_mem_utf8EncodeChar {c : Char} (wide : 128 ≤ c.toNat) :
    ∀ b ∈ String.utf8EncodeChar c, 128 ≤ b.toNat := by
  have hval : ¬ c.val.toNat ≤ 127 := Nat.not_le_of_lt wide
  unfold String.utf8EncodeChar
  simp only [hval, if_false]
  split
  · simp
    omega
  split
  · simp
    omega
  · simp
    omega

/-- Characters beyond ASCII are not told apart. -/
def Uniform (p : Char → Prop) : Prop :=
  ∀ c d : Char, 128 ≤ c.toNat → 128 ≤ d.toNat → (p c ↔ p d)

theorem Uniform.of_ascii {p : Char → Prop} (ascii : ∀ c, p c → c.toNat < 128) : Uniform p :=
  fun c d hc hd => ⟨fun h => absurd (ascii c h) (Nat.not_lt_of_le hc),
    fun h => absurd (ascii d h) (Nat.not_lt_of_le hd)⟩

theorem Uniform.eq {x : Char} (ascii : x.toNat < 128) : Uniform (· = x) :=
  .of_ascii fun _ h => h ▸ ascii

/-- A test that does not tell characters beyond ASCII apart comes out for each byte of a character
as for the character. -/
theorem Uniform.byteAt_iff {p : Char → Prop} (uniform : Uniform p) {cs rest : List Char} {i k : Nat}
    {c : Char} (h : Ahead cs i (c :: rest)) (hk : k < charWidth c) :
    p (byteAt cs (i + k)) ↔ p c := by
  by_cases ascii : c.toNat < 128
  · have hzero : k = 0 := by
      have := charWidth_of_ascii ascii
      omega
    rw [hzero, Nat.add_zero, byteAt_of_ascii h ascii]
  · have inside : k < (String.utf8EncodeChar c).length := by
      rwa [String.length_utf8EncodeChar]
    rw [byteAt_add h inside]
    exact uniform _ _ (le_toNat_of_mem_utf8EncodeChar (Nat.le_of_not_lt ascii) _
      (List.getElem_mem inside)) (Nat.le_of_not_lt ascii)

theorem Uniform.byteAt_start_iff {p : Char → Prop} (uniform : Uniform p) {cs rest : List Char}
    {i : Nat} {c : Char} (h : Ahead cs i (c :: rest)) : p (byteAt cs i) ↔ p c :=
  uniform.byteAt_iff h (k := 0) (charWidth_pos c)

section Reading

variable {cs rest : List Char} {i : Nat}

theorem lt_size {c : Char} {k : Nat} (h : Ahead cs i (c :: rest)) (hk : k < charWidth c) :
    i + k < size cs := by
  have := h.add_width
  rw [size_eq_width, ← this, width]
  omega

theorem lt_size_start {c : Char} (h : Ahead cs i (c :: rest)) : i < size cs :=
  lt_size h (k := 0) (charWidth_pos c)

theorem not_lt_size (h : Ahead cs i []) : ¬ i < size cs := by
  have := h.add_width
  rw [size_eq_width, ← this]
  exact Nat.lt_irrefl i

theorem byteAt_end (h : Ahead cs i []) : byteAt cs i = '\x00' := by
  rw [byteAt, List.getElem?_eq_none (Nat.le_of_not_lt (not_lt_size h))]
  rfl

/-- An ASCII character is read where it is. -/
theorem byteAt_eq_iff {c x : Char} (h : Ahead cs i (c :: rest)) (ascii : x.toNat < 128) :
    byteAt cs i = x ↔ c = x :=
  (Uniform.eq ascii).byteAt_start_iff h

/-- Two ASCII characters are read one after the other where they are. -/
theorem bytesAt_eq_iff {x y : Char} (h : Ahead cs i rest) (hx : x.toNat < 128)
    (hy : y.toNat < 128) (hx' : x ≠ '\x00') (hy' : y ≠ '\x00') :
    byteAt cs i = x ∧ byteAt cs (i + 1) = y ↔ ∃ tail, rest = x :: y :: tail := by
  constructor
  · rintro ⟨first, second⟩
    cases rest with
    | nil => exact absurd ((byteAt_end h).symm.trans first).symm hx'
    | cons c rest =>
      obtain rfl := (byteAt_eq_iff h hx).mp first
      have behind := h.next
      rw [charWidth_of_ascii hx] at behind
      cases rest with
      | nil => exact absurd ((byteAt_end behind).symm.trans second).symm hy'
      | cons d rest =>
        obtain rfl := (byteAt_eq_iff behind hy).mp second
        exact ⟨rest, rfl⟩
  · rintro ⟨tail, rfl⟩
    have behind := h.next
    rw [charWidth_of_ascii hx] at behind
    exact ⟨byteAt_of_ascii h hx, byteAt_of_ascii behind hy⟩

theorem charAt?_end (h : Ahead cs i []) : charAt? cs i = some none := by
  rw [charAt?, h.dropBytes?_eq, Option.map_some, List.head?_nil]

theorem charAt?_start {c : Char} (h : Ahead cs i (c :: rest)) : charAt? cs i = some (some c) := by
  rw [charAt?, h.dropBytes?_eq, Option.map_some, List.head?_cons]

example : charAt? "éx".toList 1 = none ∧ charAt? "éx".toList 2 = some (some 'x') := by
  decide +kernel

/-! ### Gaps -/

/-- What is the same at each place as at the next one is the same further on. -/
theorem eq_add_of_steps {α : Type} {f : Nat → α} {n : Nat}
    (steps : ∀ k < n, f (i + k) = f (i + k + 1)) : f i = f (i + n) := by
  induction n with
  | zero => rfl
  | succ n ih =>
    rw [ih fun k hk => steps k (Nat.lt_succ_of_lt hk)]
    exact steps n (Nat.lt_succ_self n)

theorem skipWhile_eq {p : Char → Bool} (uniform : Uniform (p · = true)) (h : Ahead cs i rest) :
    skipWhile cs p i = i + width (rest.takeWhile p) := by
  induction rest generalizing i with
  | nil =>
    rw [skipWhile, if_neg fun inside => not_lt_size h inside.1]
    rfl
  | cons c rest ih =>
    by_cases hc : p c = true
    · have step : skipWhile cs p i = skipWhile cs p (i + charWidth c) := by
        refine eq_add_of_steps fun k hk => ?_
        rw [skipWhile, if_pos ⟨lt_size h hk, (uniform.byteAt_iff h hk).mpr hc⟩]
      rw [step, ih h.next, List.takeWhile_cons_of_pos hc, width, Nat.add_assoc]
    · have first : ¬ p (byteAt cs i) = true :=
        mt (uniform.byteAt_start_iff h).mp hc
      rw [skipWhile, if_neg fun inside => first inside.2, List.takeWhile_cons_of_neg hc]
      rfl

theorem toNat_lt_of_isBlank (c : Char) (h : isBlank c = true) : c.toNat < 128 := by
  simp only [isBlank, Bool.or_eq_true, decide_eq_true_eq] at h
  rcases h with (((rfl | rfl) | rfl) | rfl) | rfl <;> decide

theorem toNat_lt_of_isAlphanum (c : Char) (h : c.isAlphanum = true) : c.toNat < 128 := by
  have below : ∀ {d : Char}, d.toNat < 128 → c.val ≤ d.val → c.toNat < 128 := fun hd hc =>
    Nat.lt_of_le_of_lt (UInt32.le_iff_toNat_le.mp hc) hd
  rcases Bool.or_eq_true_iff.mp h with letter | digit
  · rcases Bool.or_eq_true_iff.mp letter with upper | lower
    · exact below (d := 'Z') (by decide) (of_decide_eq_true upper).2
    · exact below (d := 'z') (by decide) (of_decide_eq_true (Bool.and_eq_true_iff.mp lower).2)
  · exact below (d := '9') (by decide) (of_decide_eq_true (Bool.and_eq_true_iff.mp digit).2)

theorem toNat_lt_of_isNumberPart (c : Char) (h : isNumberPart c = true) : c.toNat < 128 := by
  simp only [isNumberPart, Bool.or_eq_true, decide_eq_true_eq] at h
  rcases h with (h | rfl) | rfl
  · exact toNat_lt_of_isAlphanum c h
  · decide
  · decide

theorem toNat_lt_of_isIdentPart (c : Char) (h : isIdentPart c = true) : c.toNat < 128 := by
  simp only [isIdentPart, Bool.or_eq_true, decide_eq_true_eq] at h
  rcases h with (h | rfl) | rfl
  · exact toNat_lt_of_isAlphanum c h
  · decide
  · decide

theorem commentEnd?_eq (h : Ahead cs i rest) :
    commentEnd? cs i = (splitBlockComment? rest).map fun s => i + width s.1 := by
  have closing := fun {i rest} (h : Ahead cs i rest) =>
    bytesAt_eq_iff (x := '*') (y := '/') h (by decide) (by decide) (by decide) (by decide)
  fun_induction splitBlockComment? rest generalizing i with
  | case1 tail =>
    rw [commentEnd?, if_pos (lt_size_start h), if_pos ((closing h).mpr ⟨tail, rfl⟩)]
    rfl
  | case2 c tail hopen ih =>
    have step : commentEnd? cs i = commentEnd? cs (i + charWidth c) := by
      refine eq_add_of_steps fun k hk => ?_
      rw [commentEnd?, if_pos (lt_size h hk), if_neg]
      intro hclosing
      -- only the first byte of a star is a star, and then no slash follows
      obtain rfl := ((Uniform.eq (by decide)).byteAt_iff h hk).mp hclosing.1
      obtain rfl : k = 0 := Nat.lt_one_iff.mp hk
      obtain ⟨tail', heq⟩ := (closing h).mp hclosing
      cases heq
      exact hopen _ rfl rfl
    rw [step, ih h.next, Option.map_map]
    refine congrArg (fun f => Option.map f _) (funext fun s => ?_)
    exact Nat.add_assoc ..
  | case3 => rw [commentEnd?, if_neg (not_lt_size h)]; rfl

/-- A gap goes on the same from any place of the white space at its beginning. -/
theorem skipGap_congr {j : Nat} (h : skipWhile cs isBlank i = skipWhile cs isBlank j) :
    skipGap cs i = skipGap cs j := by
  rw [skipGap.eq_def, skipGap.eq_def cs j]
  dsimp only
  generalize skipWhile cs isBlank i = k at h
  subst h
  rfl

/-- What a gap holds where no white space is left. -/
theorem skipGap_of_not_blank (h : skipWhile cs isBlank i = i) :
    skipGap cs i =
      if byteAt cs i = '/' ∧ byteAt cs (i + 1) = '/' then skipGap cs (skipWhile cs (· != '\n') i)
      else if byteAt cs i = '/' ∧ byteAt cs (i + 1) = '*' then
        match commentEnd? cs (i + 2) with
        | some k => skipGap cs k
        | none => (size cs, some i)
      else (i, none) := by
  rw [skipGap.eq_def]
  dsimp only
  generalize skipWhile cs isBlank i = k at h
  subst h
  split
  · rfl
  · split
    · split <;> rename_i hend <;> rw [hend]
    · rfl

theorem uniform_not_newline : Uniform ((· != '\n') · = true) := by
  have other : ∀ e : Char, 128 ≤ e.toNat → (e != '\n') = true := by
    intro e he
    refine bne_iff_ne.mpr ?_
    rintro rfl
    exact absurd he (by decide)
  exact fun c d hc hd => iff_of_true (other c hc) (other d hd)

/-- A gap that starts with a block comment goes on behind it, if it has an end. -/
theorem skipGap_of_block (h : Ahead cs i ('/' :: '*' :: rest)) :
    skipGap cs i = ((commentEnd? cs (i + 2)).map (skipGap cs)).getD (size cs, some i) := by
  have first : byteAt cs i = '/' := byteAt_of_ascii h (by decide)
  have second : byteAt cs (i + 1) = '*' := byteAt_of_ascii h.next (by decide)
  have noline : ¬ (byteAt cs i = '/' ∧ byteAt cs (i + 1) = '/') := fun line =>
    absurd (second.symm.trans line.2) (by decide)
  have started : skipWhile cs isBlank i = i :=
    skipWhile_eq (.of_ascii toNat_lt_of_isBlank) h
  rw [skipGap_of_not_blank started, if_neg noline, if_pos ⟨first, second⟩]
  cases commentEnd? cs (i + 2) <;> rfl

/-- The place behind a gap that starts at `i`, and that of a comment in it that is not closed. -/
def placesOf (i : Nat) (g : Gap) : Nat × Option Nat :=
  (i + width g.written, g.openAt.map (i + ·))

theorem placesOf_after (i : Nat) (before : List Char) (g : Gap) :
    placesOf i (g.after before) = placesOf (i + width before) g := by
  simp only [placesOf, Gap.after, width_append, Option.map_map, Nat.add_assoc]
  rfl

theorem skipGap_eq (h : Ahead cs i rest) : skipGap cs i = placesOf i (readGap rest) := by
  have blanks : Uniform (isBlank · = true) := .of_ascii toNat_lt_of_isBlank
  have line := fun {i rest} (h : Ahead cs i rest) =>
    bytesAt_eq_iff (x := '/') (y := '/') h (by decide) (by decide) (by decide) (by decide)
  have block := fun {i rest} (h : Ahead cs i rest) =>
    bytesAt_eq_iff (x := '/') (y := '*') h (by decide) (by decide) (by decide) (by decide)
  fun_induction readGap rest generalizing i with
  | case1 rest ih =>
    have further : Ahead cs _ (rest.dropWhile (· != '\n')) :=
      h.append ('/' :: '/' :: rest.takeWhile (· != '\n')) (by simp)
    have hline := skipWhile_eq uniform_not_newline h
    rw [List.takeWhile_cons_of_pos (by decide), List.takeWhile_cons_of_pos (by decide)] at hline
    rw [skipGap_of_not_blank (skipWhile_eq blanks h), if_pos ((line h).mpr ⟨rest, rfl⟩), hline,
      ih further, placesOf_after]
  | case2 rest body rest' hclosed ih =>
    have further : Ahead cs _ rest' :=
      h.append ('/' :: '*' :: body) (by simp [splitBlockComment?_append hclosed])
    have hend : commentEnd? cs (i + 2) = some (i + width ('/' :: '*' :: body)) := by
      have found := commentEnd?_eq (h.append ['/', '*'] rfl)
      rw [hclosed, Option.map_some, Nat.add_assoc, ← width_append] at found
      exact found
    rw [skipGap_of_block h, hend, placesOf_after]
    exact ih further
  | case3 rest hopen =>
    have hend : commentEnd? cs (i + 2) = none := by
      have found := commentEnd?_eq (h.append ['/', '*'] rfl)
      rwa [hopen] at found
    rw [skipGap_of_block h, hend]
    exact congrArg (·, some i) ((size_eq_width cs).trans h.add_width.symm)
  | case4 c rest hline hblock hc ih =>
    have step : skipGap cs i = skipGap cs (i + charWidth c) := by
      refine skipGap_congr ?_
      rw [skipWhile_eq blanks h, skipWhile_eq blanks h.next, List.takeWhile_cons_of_pos hc, width,
        Nat.add_assoc]
    rw [step, ih h.next]
    exact (placesOf_after i [c] _).symm
  | case5 c rest hline hblock hc =>
    have hblank := skipWhile_eq blanks h
    rw [List.takeWhile_cons_of_neg hc] at hblank
    have noline : ¬ (byteAt cs i = '/' ∧ byteAt cs (i + 1) = '/') := fun both => by
      obtain ⟨tail, heq⟩ := (line h).mp both
      cases heq
      exact hline _ rfl rfl
    have noblock : ¬ (byteAt cs i = '/' ∧ byteAt cs (i + 1) = '*') := fun both => by
      obtain ⟨tail, heq⟩ := (block h).mp both
      cases heq
      exact hblock _ rfl rfl
    rw [skipGap_of_not_blank hblank, if_neg noline, if_neg noblock]
    rfl
  | case6 =>
    have nothing : byteAt cs i ≠ '/' := by
      rw [byteAt_end h]
      decide
    rw [skipGap_of_not_blank (skipWhile_eq blanks h), if_neg fun both => nothing both.1,
      if_neg fun both => nothing both.1]
    rfl

/-! ### Literals and templates -/

/-- What was read of a quoted text from a place on. -/
def quotationOf (i : Nat) (substituted : Bool) (q : Quoted) : Quotation :=
  ⟨i + width q.written, q.value, q.closed, substituted || q.substituted⟩

theorem quotationOf_cons (i : Nat) (substituted : Bool) (written : List Char) (c : Char)
    (q : Quoted) : quotationOf i substituted (q.cons written c) =
      (quotationOf (i + width written) substituted q).cons c := by
  simp only [quotationOf, Quoted.cons, Quotation.cons, width_append, Nat.add_assoc]

theorem readString?_eq {quote : Char} (ascii : quote.toNat < 128) (h : Ahead cs i rest) :
    readString? cs quote i = some (quotationOf i false (Script.readString quote rest)) := by
  fun_induction Script.readString quote rest generalizing i with
  | case1 =>
    rw [readString?, if_neg fun inside => not_lt_size h inside.1]
    rfl
  | case2 rest =>
    have newline := (byteAt_eq_iff h (by decide)).mpr (show '\n' = '\n' from rfl)
    rw [readString?, if_neg fun inside => inside.2 newline]
    rfl
  | case3 rest hline =>
    have noline := mt (byteAt_eq_iff h (x := '\n') (by decide)).mp hline
    have closing := (byteAt_eq_iff h ascii).mpr rfl
    rw [readString?, if_pos ⟨lt_size_start h, noline⟩, if_pos closing, quotationOf, width, width,
      charWidth_of_ascii ascii]
    rfl
  | case4 hline hquote =>
    have inside : i < size cs ∧ byteAt cs i ≠ '\n' :=
      ⟨lt_size_start h, mt (byteAt_eq_iff h (by decide)).mp hline⟩
    have escape := (byteAt_eq_iff h (x := '\\') (by decide)).mpr rfl
    have behind : Ahead cs (i + 1) [] := h.next
    rw [readString?, if_pos inside, if_neg (mt (byteAt_eq_iff h ascii).mp hquote), if_pos escape,
      charAt?_end behind]
    dsimp only
    rw [readString?, if_neg fun inside => not_lt_size behind inside.1]
    rfl
  | case5 e rest hline hquote ih =>
    have inside : i < size cs ∧ byteAt cs i ≠ '\n' :=
      ⟨lt_size_start h, mt (byteAt_eq_iff h (by decide)).mp hline⟩
    have escape := (byteAt_eq_iff h (x := '\\') (by decide)).mpr rfl
    have behind : Ahead cs (i + 1) (e :: rest) := h.next
    rw [readString?, if_pos inside, if_neg (mt (byteAt_eq_iff h ascii).mp hquote), if_pos escape,
      charAt?_start behind]
    dsimp only
    rw [ih behind.next, quotationOf_cons, Nat.add_assoc]
    rfl
  | case6 c rest hline hquote hescape ih =>
    have inside : i < size cs ∧ byteAt cs i ≠ '\n' :=
      ⟨lt_size_start h, mt (byteAt_eq_iff h (by decide)).mp hline⟩
    rw [readString?, if_pos inside, if_neg (mt (byteAt_eq_iff h ascii).mp hquote),
      if_neg (mt (byteAt_eq_iff h (by decide)).mp hescape), charAt?_start h]
    dsimp only
    rw [ih h.next, quotationOf_cons]
    rfl

theorem quotationOf_skip (i : Nat) (substituted : Bool) (written : List Char) (q : Quoted) :
    quotationOf i substituted (q.skip written) = quotationOf (i + width written) true q := by
  simp only [quotationOf, Quoted.skip, width_append, Nat.add_assoc, Bool.or_true, Bool.true_or]

/-- Inside a substitution only braces count. -/
theorem readTemplate?_step {depth : Nat} {substituted : Bool} (inside : i < size cs)
    (noopening : ¬ (byteAt cs i = '$' ∧ byteAt cs (i + 1) = '\x7b')) :
    readTemplate? cs (depth + 1) substituted i =
      readTemplate? cs (if byteAt cs i = '\x7b' then depth + 2
        else if byteAt cs i = '\x7d' then depth else depth + 1) substituted (i + 1) := by
  have outside : ¬ (depth + 1 = 0 ∧ byteAt cs i = '`') := fun both => nomatch both.1
  rw [readTemplate?, if_pos inside, if_neg outside, if_neg noopening, if_pos (Nat.succ_pos depth)]
  rfl

/-- A substitution that is being read was found before. -/
theorem readTemplate?_eq {depth : Nat} {substituted : Bool} (found : 0 < depth → substituted = true)
    (h : Ahead cs i rest) :
    readTemplate? cs depth substituted i =
      some (quotationOf i substituted (Script.readTemplate depth rest)) := by
  have opening := fun {i rest} (h : Ahead cs i rest) =>
    bytesAt_eq_iff (x := '$') (y := '\x7b') h (by decide) (by decide) (by decide) (by decide)
  fun_induction Script.readTemplate depth rest generalizing i substituted with
  | case1 depth =>
    rw [readTemplate?, if_neg (not_lt_size h), quotationOf, Quoted.unclosed, Bool.or_false]
    rfl
  | case2 depth rest ih =>
    have first : byteAt cs i = '$' := (byteAt_eq_iff h (by decide)).mpr rfl
    have further := ih (fun _ => rfl) (h.append ['$', '\x7b'] rfl)
    rw [readTemplate?, if_pos (lt_size_start h), if_neg fun both => absurd both.2 (by simp [first]),
      if_pos ((opening h).mpr ⟨rest, rfl⟩), quotationOf_skip]
    exact further
  | case3 rest hopening =>
    have closing := (byteAt_eq_iff h (x := '`') (by decide)).mpr rfl
    rw [readTemplate?, if_pos (lt_size_start h), if_pos ⟨rfl, closing⟩, quotationOf, Bool.or_false]
    rfl
  | case4 hquote hopening =>
    have escape := (byteAt_eq_iff h (x := '\\') (by decide)).mpr rfl
    have behind : Ahead cs (i + 1) [] := h.next
    rw [readTemplate?, if_pos (lt_size_start h), if_neg fun both => absurd both.2 (by simp [escape]),
      if_neg fun both => absurd both.1 (by simp [escape]), if_neg (Nat.lt_irrefl 0), if_pos escape,
      charAt?_end behind]
    dsimp only
    rw [readTemplate?, if_neg (not_lt_size behind), quotationOf, Quoted.unclosed, Bool.or_false]
    rfl
  | case5 e rest hquote hopening ih =>
    have escape := (byteAt_eq_iff h (x := '\\') (by decide)).mpr rfl
    have behind : Ahead cs (i + 1) (e :: rest) := h.next
    rw [readTemplate?, if_pos (lt_size_start h), if_neg fun both => absurd both.2 (by simp [escape]),
      if_neg fun both => absurd both.1 (by simp [escape]), if_neg (Nat.lt_irrefl 0), if_pos escape,
      charAt?_start behind]
    dsimp only
    rw [ih found behind.next, quotationOf_cons, Nat.add_assoc]
    rfl
  | case6 c rest hopening hquote hescape ih =>
    have noopening : ¬ (byteAt cs i = '$' ∧ byteAt cs (i + 1) = '\x7b') := fun both => by
      obtain ⟨tail, heq⟩ := (opening h).mp both
      cases heq
      exact hopening _ rfl rfl
    rw [readTemplate?, if_pos (lt_size_start h),
      if_neg fun both => hquote ((byteAt_eq_iff h (by decide)).mp both.2), if_neg noopening,
      if_neg (Nat.lt_irrefl 0), if_neg (mt (byteAt_eq_iff h (by decide)).mp hescape),
      charAt?_start h]
    dsimp only
    rw [ih found h.next, quotationOf_cons]
    rfl
  | case7 =>
    rename_i c rest hopening depth next ih
    obtain rfl := found (Nat.succ_pos depth)
    have noopening : ¬ (byteAt cs i = '$' ∧ byteAt cs (i + 1) = '\x7b') := fun both => by
      obtain ⟨tail, heq⟩ := (opening h).mp both
      cases heq
      exact hopening _ rfl rfl
    rw [quotationOf_skip]
    refine Eq.trans ?_ (ih (fun _ => rfl) h.next)
    by_cases ascii : c.toNat < 128
    · rw [readTemplate?_step (lt_size_start h) noopening, byteAt_of_ascii h ascii, width,
        charWidth_of_ascii ascii]
      rfl
    · -- no byte of the character is a brace or a dollar sign
      have other : ∀ {x : Char} {k : Nat}, x.toNat < 128 → k < charWidth c →
          byteAt cs (i + k) ≠ x := by
        intro x k hx hk heq
        obtain rfl := ((Uniform.eq hx).byteAt_iff h hk).mp heq
        exact ascii hx
      have same : next = depth + 1 := by
        have : c ≠ '\x7b' := by rintro rfl; exact ascii (by decide)
        have : c ≠ '\x7d' := by rintro rfl; exact ascii (by decide)
        simp [next, *]
      rw [same]
      refine eq_add_of_steps (f := readTemplate? cs (depth + 1) true) fun k hk => ?_
      rw [readTemplate?_step (lt_size h hk) fun both => other (by decide) hk both.1,
        if_neg (other (by decide) hk), if_neg (other (by decide) hk)]

/-! ### Tokens -/

/-- A reading at a place. -/
def placedOf (i : Nat) (r : Reading) : Placed :=
  placed r.kind r.text i (i + width r.written) r.fault

theorem placedAsWritten?_eq {written later : List Char} (kind : TokenKind)
    (fault : Option LexicalFault) (h : Ahead cs i rest) (parts : written ++ later = rest) :
    placedAsWritten? cs kind i (i + width written) fault =
      some (placed kind written i (i + width written) fault) := by
  rw [placedAsWritten?, h.slice?_eq parts, Option.map_some]

/-- A name or number from its first character on. -/
theorem placedAsWritten?_plain {p : Char → Bool} {c : Char} (kind : TokenKind)
    (ascii : ∀ c, p c = true → c.toNat < 128) (first : p c = true) (h : Ahead cs i (c :: rest)) :
    placedAsWritten? cs kind i (skipWhile cs p i) none =
      some (placedOf i (.plain kind c p rest)) := by
  have parts : c :: rest.takeWhile p ++ rest.dropWhile p = c :: rest := by simp
  rw [skipWhile_eq (.of_ascii ascii) h, List.takeWhile_cons_of_pos first,
    placedAsWritten?_eq kind none h parts]
  rfl

theorem placedQuoted?_eq {c : Char} (fault : LexicalFault) (ascii : c.toNat < 128)
    (h : Ahead cs i (c :: rest)) {q : Quoted} (parts : q.written ++ q.rest = rest) :
    placedQuoted? cs i fault (quotationOf (i + 1) false q) =
      some (placedOf i (.quoted c fault q)) := by
  have stop : i + 1 + width q.written = i + width (c :: q.written) := by
    rw [width, charWidth_of_ascii ascii, Nat.add_assoc]
  unfold placedQuoted? quotationOf Reading.quoted
  rw [stop]
  cases q.substituted with
  | true =>
    exact placedAsWritten?_eq .template _ h (show (c :: q.written) ++ q.rest = c :: rest by
      rw [List.cons_append, parts])
  | false => rfl

theorem toNat_lt_of_isDigit (c : Char) (h : c.isDigit = true) : c.toNat < 128 :=
  toNat_lt_of_isAlphanum c (by rw [Char.isAlphanum, h, Bool.or_true])

theorem isIdentPart_of_isIdentStart {c : Char} (h : isIdentStart c = true) :
    isIdentPart c = true := by
  simp only [isIdentStart, isIdentPart, Char.isAlphanum, Bool.or_eq_true] at h ⊢
  exact h.imp_left (.imp_left .inl)

theorem toNat_lt_of_isIdentStart (c : Char) (h : isIdentStart c = true) : c.toNat < 128 :=
  toNat_lt_of_isIdentPart c (isIdentPart_of_isIdentStart h)

theorem readToken?_eq {c : Char} (h : Ahead cs i (c :: rest)) :
    readToken? cs i = some (placedOf i (Script.readToken c rest)) := by
  have behind : c.toNat < 128 → Ahead cs (i + 1) rest := fun ascii => by
    have next := h.next
    rwa [charWidth_of_ascii ascii] at next
  have quote : byteAt cs i = '\'' ∨ byteAt cs i = '"' ↔ c = '\'' ∨ c = '"' :=
    or_congr (byteAt_eq_iff h (by decide)) (byteAt_eq_iff h (by decide))
  have template : byteAt cs i = '`' ↔ c = '`' := byteAt_eq_iff h (by decide)
  have digit : (byteAt cs i).isDigit = true ↔ c.isDigit = true :=
    (Uniform.of_ascii (p := (Char.isDigit · = true)) toNat_lt_of_isDigit).byteAt_start_iff h
  have ident : isIdentStart (byteAt cs i) = true ↔ isIdentStart c = true :=
    (Uniform.of_ascii (p := (isIdentStart · = true)) toNat_lt_of_isIdentStart).byteAt_start_iff h
  simp only [readToken?, Script.readToken]
  by_cases hquote : c = '\'' ∨ c = '"'
  · have ascii : c.toNat < 128 := by rcases hquote with rfl | rfl <;> decide
    rw [if_pos (quote.mpr hquote), if_pos hquote, byteAt_of_ascii h ascii,
      readString?_eq ascii (behind ascii), Option.bind_some]
    exact placedQuoted?_eq _ ascii h (readString_append c rest)
  rw [if_neg (mt quote.mp hquote), if_neg hquote]
  by_cases htemplate : c = '`'
  · have ascii : c.toNat < 128 := htemplate ▸ by decide
    rw [if_pos (template.mpr htemplate), if_pos htemplate,
      readTemplate?_eq (fun h => absurd h (Nat.lt_irrefl 0)) (behind ascii), Option.bind_some]
    exact placedQuoted?_eq _ ascii h (readTemplate_append 0 rest)
  rw [if_neg (mt template.mp htemplate), if_neg htemplate]
  by_cases hdigit : c.isDigit = true
  · have part : isNumberPart c = true := by simp [isNumberPart, Char.isAlphanum, hdigit]
    rw [if_pos (digit.mpr hdigit), if_pos hdigit]
    exact placedAsWritten?_plain .number toNat_lt_of_isNumberPart part h
  rw [if_neg (mt digit.mp hdigit), if_neg hdigit]
  by_cases hident : isIdentStart c = true
  · rw [if_pos (ident.mpr hident), if_pos hident]
    exact placedAsWritten?_plain .ident toNat_lt_of_isIdentPart
      (isIdentPart_of_isIdentStart hident) h
  rw [if_neg (mt ident.mp hident), if_neg hident, charAt?_start h]
  have alone : rest.takeWhile (fun _ => false) = [] := by cases rest <;> rfl
  simp only [placedOf, Reading.plain, alone]
  rfl

/-! ### The whole text -/

/-- Only the last gap of a text holds a comment that is not closed. -/
theorem openAt_of_rest (cs : List Char) (h : (readGap cs).rest ≠ []) :
    (readGap cs).openAt = none := by
  cases hopen : (readGap cs).openAt with
  | none => rfl
  | some n => exact absurd (openAt_readGap (.start cs) hopen).1 h

theorem lexFrom?_of_end {j : Nat} {open_ : Option Nat} (gap : skipGap cs i = (j, open_))
    (atEnd : ¬ j < size cs) :
    lexFrom? cs i =
      some ⟨[], (open_.map fun at_ => LexicalError.mk (kept at_) .openComment).toList⟩ := by
  rw [lexFrom?, gap]
  exact if_pos (Nat.le_of_not_lt atEnd)

theorem lexFrom?_of_token {j : Nat} {t : Placed} (gap : skipGap cs i = (j, none))
    (inside : j < size cs) (token : readToken? cs j = some t) (further : i < t.stop)
    (within : t.stop ≤ size cs) :
    lexFrom? cs i = (lexFrom? cs t.stop).map fun later =>
      ⟨t.token :: later.tokens,
        (t.fault.map fun fault => LexicalError.mk t.token.start fault).toList ++ later.errors⟩ := by
  rw [lexFrom?, gap]
  refine (if_neg (Nat.not_le_of_lt inside)).trans ?_
  rw [token, Option.bind_some]
  exact if_pos ⟨further, within⟩

theorem lexFrom?_eq (small : width cs < Nat.pow 2 32) (h : Ahead cs i rest) :
    lexFrom? cs i = some (Script.lexFrom i rest) := by
  have keeps : ∀ {j later}, Ahead cs j later → kept j = j := fun hj =>
    Nat.mod_eq_of_lt (Nat.lt_of_le_of_lt (Nat.le.intro hj.add_width) small)
  fun_induction Script.lexFrom i rest with
  | case1 i rest hgap =>
    have atEnd : Ahead cs _ [] := h.append _ (hgap ▸ readGap_append rest)
    rw [lexFrom?_of_end (skipGap_eq h) (not_lt_size atEnd), Option.map_map]
    cases hopen : (readGap rest).openAt with
    | none => rfl
    | some n =>
      obtain ⟨-, body, comment, -⟩ := openAt_readGap h hopen
      simp only [Option.map_some, Function.comp, keeps comment]
  | case2 i text c rest hgap r start stop later ih =>
    have here : Ahead cs start (c :: rest) := h.append _ (hgap ▸ readGap_append text)
    have further : Ahead cs stop r.rest := here.append _ (readToken_append c rest)
    have closed := openAt_of_rest text (hgap ▸ List.cons_ne_nil c rest)
    have gap : skipGap cs i = (start, none) := by
      rw [skipGap_eq h, placesOf, closed]
      rfl
    have onward : i < stop :=
      Nat.lt_of_le_of_lt (Nat.le_add_right i _)
        (Nat.lt_add_of_pos_right (width_readToken_pos c rest))
    have within : stop ≤ size cs := size_eq_width cs ▸ Nat.le.intro further.add_width
    rw [lexFrom?_of_token gap (lt_size_start here) (readToken?_eq here) onward within]
    show Option.map _ (lexFrom? cs stop) = _
    rw [ih further, Option.map_some]
    have hstart : kept start = start := keeps here
    have hstop : kept (start + width r.written) = stop := keeps further
    simp only [placedOf, placed, hstart]
    rw [hstop]

end Reading

end Precompile.Script.Bytewise

namespace Precompile.Script

/-- A text whose offsets fit is read by its bytes to the end, and its tokens and errors account for
every byte. -/
theorem lex_accounts_for_text (source : String) (small : source.utf8ByteSize < Nat.pow 2 32) :
    Bytewise.lex? source = some (lex source) ∧ Segments source.toList 0 (lex source) :=
  ⟨Bytewise.lexFrom?_eq (by rwa [width_toList]) (.start source.toList),
    segments_lexFrom (.start source.toList)⟩

theorem lex_accounts_for_mixed_text :
    "é(/*ü*/ `a$\x7b'\x7d'\x7d\x7d` // ß\n'x /*".utf8ByteSize < Nat.pow 2 32 ∧
      Bytewise.lex? "é(/*ü*/ `a$\x7b'\x7d'\x7d\x7d` // ß\n'x /*" =
        some (lex "é(/*ü*/ `a$\x7b'\x7d'\x7d\x7d` // ß\n'x /*") ∧
      Segments "é(/*ü*/ `a$\x7b'\x7d'\x7d\x7d` // ß\n'x /*".toList 0
        (lex "é(/*ü*/ `a$\x7b'\x7d'\x7d\x7d` // ß\n'x /*") :=
  ⟨by decide, lex_accounts_for_text _ (by decide)⟩

end Precompile.Script
