import Mathlib.Data.List.Basic
import Precompile.Path.Normal

/-!
Normal forms of paths.

The components of a normal form are those that the stack of components ends with
(`components_normalize`), so normalizing is idempotent and a normal path is determined by its
components.
-/

namespace Precompile

/-- A component that is written as one part between slashes: a climb or a name. -/
def Component.IsPart (c : Component) : Prop :=
  Path.componentOf c.text.toList = some c ∧ '/' ∉ c.text.toList

namespace Path

/-! ### Parts between slashes -/

theorem splitSlash_ne_nil (cs : List Char) : splitSlash cs ≠ [] := by
  fun_cases splitSlash cs <;> simp

theorem splitSlash_of_not_mem {cs : List Char} (h : '/' ∉ cs) : splitSlash cs = [cs] := by
  induction cs with
  | nil => rfl
  | cons c cs ih =>
    have hc : c ≠ '/' := fun heq => h (heq ▸ List.mem_cons_self)
    simp [splitSlash, hc, ih fun hmem => h (List.mem_cons_of_mem _ hmem)]

example : splitSlash "ab".toList = [['a', 'b']] := by
  decide +kernel

theorem splitSlash_append_slash {cs : List Char} (h : '/' ∉ cs) (rest : List Char) :
    splitSlash (cs ++ '/' :: rest) = cs :: splitSlash rest := by
  induction cs with
  | nil => simp [splitSlash]
  | cons c cs ih =>
    have hc : c ≠ '/' := fun heq => h (heq ▸ List.mem_cons_self)
    simp [splitSlash, hc, ih fun hmem => h (List.mem_cons_of_mem _ hmem)]

/-- Splitting takes apart what joining put together. -/
theorem splitSlash_joinSlash {pieces : List (List Char)} (hne : pieces ≠ [])
    (h : ∀ piece ∈ pieces, '/' ∉ piece) : splitSlash (joinSlash pieces) = pieces := by
  induction pieces with
  | nil => exact absurd rfl hne
  | cons piece pieces ih =>
    have hpiece := h piece List.mem_cons_self
    cases pieces with
    | nil => exact splitSlash_of_not_mem hpiece
    | cons next pieces =>
      have hrest := ih (by simp) fun q hq => h q (List.mem_cons_of_mem _ hq)
      simp only [joinSlash] at hrest ⊢
      rw [splitSlash_append_slash hpiece, hrest]

/-- Splitting at a slash of the text splits what is before it and what is behind it. -/
theorem splitSlash_append (cs rest : List Char) :
    splitSlash (cs ++ '/' :: rest) = splitSlash cs ++ splitSlash rest := by
  induction cs with
  | nil => simp [splitSlash]
  | cons c cs ih =>
    by_cases hc : c = '/'
    · simp [splitSlash, hc, ih]
    · have hne := splitSlash_ne_nil cs
      simp only [List.cons_append, splitSlash, if_neg hc, ih]
      cases hcs : splitSlash cs with
      | nil => exact absurd hcs hne
      | cons piece pieces => rfl

theorem not_mem_of_mem_splitSlash {cs piece : List Char} (h : piece ∈ splitSlash cs) :
    '/' ∉ piece := by
  induction cs generalizing piece with
  | nil => simp_all [splitSlash]
  | cons c cs ih =>
    unfold splitSlash at h
    split at h
    · rcases List.mem_cons.mp h with rfl | h
      · simp
      · exact ih h
    next hc =>
      split at h
      next heq => exact absurd heq (splitSlash_ne_nil cs)
      next first rest heq =>
        rcases List.mem_cons.mp h with rfl | h
        · have := ih (heq ▸ List.mem_cons_self)
          simp [Ne.symm hc, this]
        · exact ih (heq ▸ List.mem_cons_of_mem _ h)

theorem not_mem_of_mem_pieces {p : Path} {piece : List Char} (h : piece ∈ p.pieces) :
    '/' ∉ piece := by
  unfold pieces cut at h
  split at h
  · exact not_mem_of_mem_splitSlash h
  · split at h
    next heq => exact not_mem_of_mem_splitSlash (heq ▸ List.mem_cons_of_mem _ h)
    next => exact not_mem_of_mem_splitSlash h

/-! ### Parts behind a path -/

/-- Where no slash comes first, a first `.` is a component of its own. -/
theorem cut_cons {c : Char} (hc : c ≠ '/') (body : List Char) :
    cut (c :: body) = match splitSlash (c :: body) with
      | ['.'] :: pieces => (.here, pieces)
      | pieces => (.plain, pieces) := by
  unfold cut
  split
  next heq =>
    cases heq
    exact absurd rfl hc
  next => rfl

/-- What is written behind a slash adds the components of its parts. Behind nothing the slash is the
root. -/
theorem components_append_slash (cs rest : List Char) :
    components ⟨String.ofList (cs ++ '/' :: rest)⟩ =
      (if cs = [] then [.root] else components ⟨String.ofList cs⟩) ++
        (splitSlash rest).filterMap componentOf := by
  unfold components
  simp only [String.toList_ofList]
  cases cs with
  | nil => simp [cut, Lead.component?]
  | cons c cs =>
    -- a first slash is the root
    by_cases hc : c = '/'
    · subst hc
      simp [cut, Lead.component?, splitSlash_append]
    · have hne := splitSlash_ne_nil (c :: cs)
      rw [if_neg (by simp), List.cons_append, cut_cons hc, cut_cons hc, ← List.cons_append,
        splitSlash_append]
      cases hcs : splitSlash (c :: cs) with
      | nil => exact absurd hcs hne
      | cons piece pieces =>
        by_cases hdot : piece = ['.']
        · subst hdot
          simp [Lead.component?]
        · simp [Lead.component?, hdot, List.filterMap_cons]
          cases componentOf piece <;> simp

theorem isPart_of_componentOf {piece : List Char} {c : Component}
    (h : componentOf piece = some c) (hslash : '/' ∉ piece) : c.IsPart := by
  have hpiece : c.text.toList = piece := by
    unfold componentOf at h
    split at h
    · cases h
    · split at h
      next hup => cases h; exact hup.symm
      next => cases h; exact String.toList_ofList
  exact ⟨hpiece.symm ▸ h, hpiece.symm ▸ hslash⟩

theorem text_ne_nil_of_isPart {c : Component} (h : c.IsPart) : c.text.toList ≠ [] := by
  intro hempty
  have hc := h.1
  simp [componentOf, isBlank, hempty] at hc

/-- A path that neither starts at the root nor with a `.` is the sequence of its parts. -/
theorem cut_of_plain {p : Path} (h : p.lead = .plain) :
    cut p.text.toList = (.plain, splitSlash p.text.toList) := by
  unfold lead cut at h
  unfold cut
  split at h
  · cases h
  · split at h
    · cases h
    · rfl

theorem components_of_plain {p : Path} (h : p.lead = .plain) :
    p.components = (splitSlash p.text.toList).filterMap componentOf := by
  simp [components, cut_of_plain h, Lead.component?]

/-- Joining adds the components of the parts that are written, also behind a `.` that comes first. -/
theorem components_join_of_relative {p q : Path} (hp : p.text ≠ "") (hq : q.isAbsolute = false) :
    (p.join q).components = p.components ++ (splitSlash q.text.toList).filterMap componentOf := by
  unfold join
  rw [hq, if_neg (by simp)]
  -- joining writes a slash in between unless there is one before it
  by_cases hend : p.text.endsWith "/"
  · -- the slash at the end carries no meaning in `p`, and separates `p` from `q`
    obtain ⟨cs, hcs⟩ := String.Slice.endsWith_string_iff.mp hend
    rw [String.copy_toSlice] at hcs
    have components : p.components = if cs = [] then [.root] else components ⟨String.ofList cs⟩ := by
      have hslash := components_append_slash cs []
      have htext : String.ofList (cs ++ ['/']) = p.text := by
        apply String.toList_injective
        simpa using hcs
      rw [htext] at hslash
      simpa [splitSlash, componentOf, isBlank] using hslash
    have htext : p.text ++ q.text = String.ofList (cs ++ '/' :: q.text.toList) := by
      apply String.toList_injective
      rw [String.toList_append, ← hcs]
      simp
    rw [if_pos (by simp [hend]), htext, components_append_slash, components]
  · have htext : p.text ++ "/" ++ q.text =
        String.ofList (p.text.toList ++ '/' :: q.text.toList) := by
      apply String.toList_injective
      simp
    have hne : p.text.toList ≠ [] := by simpa using hp
    rw [if_neg (by simp [hend, hp]), htext, components_append_slash, if_neg hne,
      String.ofList_toList]

/-- Joining with a path that is seen from a directory adds its components. -/
theorem components_join (p : Path) {q : Path} (hq : q.lead = .plain) :
    (p.join q).components = p.components ++ q.components := by
  have habs : q.isAbsolute = false := by simp [isAbsolute, hq]
  by_cases hempty : p.text = ""
  · have hp : p.components = [] := by
      simp [components, cut, hempty, splitSlash, Lead.component?, componentOf, isBlank]
    simp [join, habs, hempty, hp]
  · rw [components_join_of_relative hempty habs, components_of_plain hq]

theorem lead_of_isPart {c : Component} (h : c.IsPart) : lead ⟨c.text⟩ = .plain := by
  obtain ⟨hc, hslash⟩ := h
  unfold lead cut
  split
  next heq => exact absurd (heq ▸ List.mem_cons_self) hslash
  next =>
    rw [splitSlash_of_not_mem hslash]
    split
    next heq =>
      have hdot : c.text.toList = ['.'] := (List.cons.inj heq).1
      simp [componentOf, isBlank, hdot] at hc
    next => rfl

theorem components_part {c : Component} (h : c.IsPart) : components ⟨c.text⟩ = [c] := by
  rw [components_of_plain (lead_of_isPart h), splitSlash_of_not_mem h.2]
  simp [h.1]

/-- Joining with a part adds its component. -/
theorem components_join_part (p : Path) {c : Component} (h : c.IsPart) :
    (p.join ⟨c.text⟩).components = p.components ++ [c] := by
  rw [components_join p (lead_of_isPart h), components_part h]

/-! ### Paths of components -/

/-- Components that a path can have without a leading `.`: parts, behind the root or not. -/
def Shaped (cs : List Component) : Prop :=
  ∃ parts, (∀ c ∈ parts, c.IsPart) ∧ (cs = parts ∨ cs = .root :: parts)

theorem ofComponents_concat (front : List Component) (c : Component) :
    ofComponents (front ++ [c]) = (ofComponents front).join ⟨c.text⟩ := by
  rw [ofComponents, List.foldl_concat]
  rfl

theorem components_foldl_join (parts : List Component) (h : ∀ c ∈ parts, c.IsPart) (p : Path) :
    (parts.foldl (fun p c => p.join ⟨c.text⟩) p).components = p.components ++ parts := by
  induction parts generalizing p with
  | nil => simp
  | cons c parts ih =>
    have hc := components_join_part p (h c List.mem_cons_self)
    rw [List.foldl_cons, ih (fun d hd => h d (List.mem_cons_of_mem _ hd)), hc, List.append_assoc]
    rfl

theorem components_ofComponents {cs : List Component} (h : Shaped cs) :
    (ofComponents cs).components = cs := by
  obtain ⟨parts, hparts, rfl | rfl⟩ := h
  · exact components_foldl_join cs hparts ⟨""⟩
  · exact components_foldl_join parts hparts ⟨"/"⟩

/-! ### Normal components -/

/-- Components that are read off a stack again as they are. -/
def Settled (done : List Component) : Prop := done.reverse.foldl pushComponent [] = done

theorem Settled.cons {done : List Component} (h : Settled done) {c : Component}
    (hc : pushComponent done c = c :: done) : Settled (c :: done) := by
  unfold Settled at h ⊢
  rw [List.reverse_cons, List.foldl_append, h]
  exact hc

theorem Settled.tail_of_name {s : String} {done : List Component}
    (h : Settled (.name s :: done)) : Settled done := by
  unfold Settled at h ⊢
  rw [List.reverse_cons, List.foldl_append] at h
  exact (List.cons.inj h).2

theorem Settled.push {done : List Component} (h : Settled done) (c : Component) :
    Settled (pushComponent done c) := by
  cases c with
  | root => exact h.cons rfl
  | here => exact h
  | name s => exact h.cons rfl
  | up =>
    -- a climb takes a name off the stack, stays at the root, and is kept on top of another climb
    cases done with
    | nil => exact h.cons rfl
    | cons top rest =>
      cases top with
      | root => exact h
      | here => exact h.cons rfl
      | up => exact h.cons rfl
      | name s => exact h.tail_of_name

theorem settled_foldl (cs : List Component) {done : List Component} (h : Settled done) :
    Settled (cs.foldl pushComponent done) := by
  apply List.foldlRecOn cs pushComponent h
  intro done settled c _
  exact settled.push c

theorem normalComponents_idem (cs : List Component) :
    normalComponents (normalComponents cs) = normalComponents cs := by
  have h : Settled (cs.foldl pushComponent []) := settled_foldl cs rfl
  exact congrArg List.reverse h

theorem Shaped.concat {cs : List Component} (h : Shaped cs) {c : Component} (hc : c.IsPart) :
    Shaped (cs ++ [c]) := by
  obtain ⟨parts, hparts, hcs⟩ := h
  refine ⟨parts ++ [c], ?_, ?_⟩
  · intro d hd
    rcases List.mem_append.mp hd with hd | hd
    · exact hparts d hd
    · exact List.mem_singleton.mp hd ▸ hc
  · rcases hcs with rfl | rfl
    · exact .inl rfl
    · exact .inr rfl

theorem Shaped.of_concat_name {cs : List Component} {s : String}
    (h : Shaped (cs ++ [.name s])) : Shaped cs := by
  obtain ⟨parts, hparts, hcs⟩ := h
  rcases List.eq_nil_or_concat' parts with rfl | ⟨front, last, rfl⟩
  · rcases hcs with hcs | hcs
    · simp at hcs
    · rw [← List.nil_append [Component.root], List.append_singleton_inj] at hcs
      cases hcs.2
  · have hfront : ∀ c ∈ front, c.IsPart := fun c hc => hparts c (by simp [hc])
    rcases hcs with hcs | hcs
    · exact ⟨front, hfront, .inl (List.append_singleton_inj.mp hcs).1⟩
    · rw [← List.cons_append, List.append_singleton_inj] at hcs
      exact ⟨front, hfront, .inr hcs.1⟩

theorem Shaped.push {done : List Component} (h : Shaped done.reverse) {c : Component}
    (hc : c.IsPart) : Shaped (pushComponent done c).reverse := by
  cases c with
  | root => exact absurd hc.2 (by simp [Component.text])
  | here => exact h
  | name s => exact List.reverse_cons ▸ h.concat hc
  | up =>
    have hup : Shaped (.up :: done).reverse := List.reverse_cons ▸ h.concat hc
    cases done with
    | nil => exact hup
    | cons top rest =>
      cases top with
      | root => exact h
      | here => exact hup
      | up => exact hup
      | name s => exact Shaped.of_concat_name (List.reverse_cons ▸ h)

theorem shaped_foldl {parts : List Component} (hparts : ∀ c ∈ parts, c.IsPart)
    {done : List Component} (h : Shaped done.reverse) :
    Shaped (parts.foldl pushComponent done).reverse := by
  apply List.foldlRecOn (motive := fun done => Shaped done.reverse) parts pushComponent h
  intro done shaped c hc
  exact shaped.push (hparts c hc)

theorem isPart_of_mem_pieces (p : Path) :
    ∀ c ∈ p.pieces.filterMap componentOf, c.IsPart := by
  intro c hc
  obtain ⟨piece, hpiece, hcomp⟩ := List.mem_filterMap.mp hc
  exact isPart_of_componentOf hcomp (not_mem_of_mem_pieces hpiece)

/-- The normal components of a path are those of some path. -/
theorem shaped_normalComponents (p : Path) : Shaped (normalComponents p.components) := by
  have hparts := isPart_of_mem_pieces p
  have hlead : Shaped (p.lead.component?.toList.foldl pushComponent []).reverse := by
    cases p.lead with
    | root => exact ⟨[], by simp, .inr rfl⟩
    | here => exact ⟨[], by simp, .inl rfl⟩
    | plain => exact ⟨[], by simp, .inl rfl⟩
  have h := shaped_foldl hparts hlead
  rwa [← List.foldl_append] at h

/-- Components of an absolute path, the last one first, that have nothing to climb. -/
def Rooted (done : List Component) : Prop :=
  ∃ names : List String, done = names.map Component.name ++ [.root]

theorem Rooted.push {done : List Component} (h : Rooted done) {c : Component} (hc : c.IsPart) :
    Rooted (pushComponent done c) := by
  obtain ⟨names, rfl⟩ := h
  cases c with
  | root => exact absurd hc.2 (by simp [Component.text])
  | here => exact ⟨names, rfl⟩
  | name s => exact ⟨s :: names, rfl⟩
  | up =>
    cases names with
    | nil => exact ⟨[], rfl⟩
    | cons s names => exact ⟨names, rfl⟩

theorem rooted_foldl {parts : List Component} (hparts : ∀ c ∈ parts, c.IsPart)
    {done : List Component} (h : Rooted done) : Rooted (parts.foldl pushComponent done) := by
  apply List.foldlRecOn parts pushComponent h
  intro done rooted c hc
  exact rooted.push (hparts c hc)

/-- The normal form of an absolute path is the root and names below it. -/
theorem normalComponents_of_isAbsolute {p : Path} (h : p.isAbsolute = true) :
    ∃ names : List String, normalComponents p.components = .root :: names.map Component.name := by
  have hlead : p.lead = .root := of_decide_eq_true h
  -- the root is pushed first, and climbing never takes it off
  have hrooted : Rooted (p.components.foldl pushComponent []) := by
    show Rooted ((p.lead.component?.toList ++ p.pieces.filterMap componentOf).foldl _ _)
    rw [List.foldl_append, hlead]
    exact rooted_foldl (isPart_of_mem_pieces p) ⟨[], rfl⟩
  obtain ⟨names, hnames⟩ := hrooted
  exact ⟨names.reverse, by simp [normalComponents, hnames]⟩

/-! ### Normal paths -/

@[simp] theorem components_normalize (p : Path) :
    p.normalize.components = normalComponents p.components :=
  components_ofComponents (shaped_normalComponents p)

/-- What a path means determines its normal form. -/
theorem Same.normalize_eq {p q : Path} (h : p.Same q) : p.normalize = q.normalize :=
  congrArg (fun cs => ofComponents (normalComponents cs)) h

@[simp] theorem normalize_normalize (p : Path) : p.normalize.normalize = p.normalize := by
  show ofComponents (normalComponents p.normalize.components) = _
  rw [components_normalize, normalComponents_idem]
  rfl

example : normalize ⟨"/a/./b/../c/"⟩ = ⟨"/a/c"⟩ := by
  decide +kernel

theorem isNormal_normalize (p : Path) : p.normalize.IsNormal := normalize_normalize p

/-- A normal path is determined by its components. -/
theorem IsNormal.eq_of_same {p q : Path} (hp : p.IsNormal) (hq : q.IsNormal) (h : p.Same q) :
    p = q :=
  (hp.symm.trans h.normalize_eq).trans hq

/-- Among normal paths there is no other spelling of a normal path. -/
theorem IsNormal.exists_same_iff {ps : List Path} {q : Path} (hq : q.IsNormal)
    (normal : ∀ p ∈ ps, p.IsNormal) : (∃ p ∈ ps, p.Same q) ↔ q ∈ ps := by
  constructor
  · rintro ⟨p, hp, same⟩
    exact (normal p hp).eq_of_same hq same ▸ hp
  · exact fun hq => ⟨q, hq, rfl⟩

theorem same_normalize_iff {p q : Path} :
    p.normalize.Same q.normalize ↔ p.normalize = q.normalize :=
  ⟨(isNormal_normalize p).eq_of_same (isNormal_normalize q), fun h => congrArg components h⟩

end Path

end Precompile
