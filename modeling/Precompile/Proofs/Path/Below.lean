import Precompile.Files.Memory
import Precompile.Proofs.OrderedMap
import Precompile.Proofs.Path.Normal

/-!
What lies below a directory.

A path is below a directory when its components go on where those of the directory end
(`Path.Below`). The text of a normal path tells its components, so what is written behind it can be
followed: an ending changes the last component or adds one (`components_add_ending`,
`components_add_part`).
-/

namespace Precompile

namespace Path

/-- The path lies strictly below the directory. -/
def Below (dir p : Path) : Prop := ∃ c rest, p.components = dir.components ++ c :: rest

theorem below_iff {dir p : Path} : dir.Below p ↔ ¬ p.Same dir ∧ p.startsWith dir = true := by
  unfold Below Same startsWith
  rw [List.isPrefixOf_iff_prefix]
  constructor
  · rintro ⟨c, rest, h⟩
    refine ⟨fun hsame => ?_, ⟨c :: rest, h.symm⟩⟩
    have hlength := congrArg List.length (h.symm.trans hsame)
    simp at hlength
  · rintro ⟨hne, rest, h⟩
    cases rest with
    | nil => exact absurd (h.symm.trans (List.append_nil _)) hne
    | cons c rest => exact ⟨c, rest, h.symm⟩

instance (dir p : Path) : Decidable (dir.Below p) := decidable_of_iff _ below_iff.symm

theorem Below.congr {dir p q : Path} (h : dir.Below p) (same : p.Same q) : dir.Below q := by
  obtain ⟨c, rest, hp⟩ := h
  exact ⟨c, rest, same.symm.trans hp⟩

/-- Behind one more component, a path is below all that the path before it is at or below. -/
theorem below_concat_iff {dir p : Path} {front : List Component} {c : Component}
    (h : p.components = front ++ [c]) : dir.Below p ↔ dir.components <+: front := by
  constructor
  · rintro ⟨d, rest, hp⟩
    rcases List.eq_nil_or_concat' rest with rfl | ⟨more, last, rfl⟩
    · rw [h, List.append_singleton_inj] at hp
      exact ⟨[], by simp [hp.1]⟩
    -- the last component behind the directory is the one of the path
    · have hp' : front ++ [c] = (dir.components ++ d :: more) ++ [last] := by
        rw [← h, hp]
        simp
      exact ⟨d :: more, (List.append_singleton_inj.mp hp').1.symm⟩
  · rintro ⟨rest, rfl⟩
    rw [Below, h]
    cases rest with
    | nil => exact ⟨c, [], by simp⟩
    | cons d rest => exact ⟨d, rest ++ [c], by simp⟩

/-! ### Normal components at the end -/

theorem length_foldl_pushComponent_le (cs done : List Component) :
    (cs.foldl pushComponent done).length ≤ done.length + cs.length := by
  have push : ∀ (done : List Component) c, (pushComponent done c).length ≤ done.length + 1 := by
    intro done c
    unfold pushComponent
    split <;> try split
    all_goals simp
    all_goals omega
  induction cs generalizing done with
  | nil => simp
  | cons c cs ih =>
    have := push done c
    have := ih (pushComponent done c)
    simp only [List.foldl_cons, List.length_cons]
    omega

/-- What comes before the end of normal components is normal. -/
theorem normalComponents_of_concat {front : List Component} {c : Component}
    (h : normalComponents (front ++ [c]) = front ++ [c]) : normalComponents front = front := by
  have hlength := length_foldl_pushComponent_le front []
  unfold normalComponents at h ⊢
  rw [List.foldl_append, List.reverse_eq_iff, List.reverse_append] at h
  generalize front.foldl pushComponent [] = done at h hlength ⊢
  simp only [List.foldl_cons, List.foldl_nil, List.reverse_cons, List.reverse_nil,
    List.nil_append, List.singleton_append] at h
  -- a step that drops or takes away a component would leave too few for those in front
  have pushed : pushComponent done c = c :: done → done.reverse = front := by
    intro hpush
    rw [hpush] at h
    rw [(List.cons.inj h).2, List.reverse_reverse]
  have short : ∀ rest : List Component, rest.length ≤ done.length → rest ≠ c :: front.reverse := by
    intro rest hrest heq
    have := congrArg List.length heq
    simp at this hlength
    omega
  cases c with
  | root => exact pushed rfl
  | name s => exact pushed rfl
  | here => exact absurd h (short done (Nat.le_refl _))
  | up =>
    cases done with
    | nil => exact pushed rfl
    | cons top rest =>
      cases top with
      | root => exact absurd h (short _ (Nat.le_refl _))
      | here => exact pushed rfl
      | up => exact pushed rfl
      | name s => exact absurd h (short rest (by simp))

theorem normalComponents_concat_name (cs : List Component) (s : String) :
    normalComponents (cs ++ [.name s]) = normalComponents cs ++ [.name s] := by
  simp [normalComponents, pushComponent]

theorem normalComponents_append_names (cs : List Component) (names : List String) :
    normalComponents (cs ++ names.map .name) = normalComponents cs ++ names.map .name := by
  induction names generalizing cs with
  | nil => simp
  | cons s names ih =>
    have hcs := ih (cs ++ [.name s])
    rw [normalComponents_concat_name, ← List.append_cons, ← List.append_cons] at hcs
    exact hcs

/-- The components are normal, however the path is spelled. -/
def IsSettled (p : Path) : Prop := normalComponents p.components = p.components

theorem IsSettled.normalize_same {p : Path} (h : p.IsSettled) : p.normalize.Same p :=
  (components_normalize p).trans h

theorem IsNormal.isSettled {p : Path} (h : p.IsNormal) : p.IsSettled := by
  unfold IsSettled
  rw [← components_normalize, h]

/-! ### Texts of normal paths -/

/-- Joining leaves room for more text at the end. -/
theorem text_join_append (p : Path) {q : Path} {ending : String}
    (hq : q.isAbsolute = false) (hmore : isAbsolute ⟨q.text ++ ending⟩ = false) :
    (p.join q).text ++ ending = (p.join ⟨q.text ++ ending⟩).text := by
  unfold join
  rw [hq, hmore]
  simp only [Bool.false_eq_true, if_false]
  split <;> simp [String.append_assoc]

theorem isPart_name {s : String} (hslash : '/' ∉ s.toList) (hlength : 3 ≤ s.toList.length) :
    (Component.name s).IsPart := by
  refine ⟨?_, hslash⟩
  have hne : ∀ piece : List Char, piece.length < 3 → s.toList ≠ piece := by
    intro piece hpiece heq
    rw [heq] at hlength
    omega
  simp [Component.text, componentOf, isBlank, hne]

theorem isAbsolute_of_isPart {c : Component} (h : c.IsPart) : isAbsolute ⟨c.text⟩ = false := by
  simp [isAbsolute, lead_of_isPart h]

theorem IsNormal.shaped {p : Path} (h : p.IsNormal) : Shaped p.components := by
  rw [← h.isSettled]
  exact shaped_normalComponents p

theorem IsNormal.eq_ofComponents {p : Path} (h : p.IsNormal) : p = ofComponents p.components := by
  have hp : ofComponents (normalComponents p.components) = p := h
  rwa [h.isSettled, eq_comm] at hp

/-- A normal path is empty, the root, or some path joined with a part. -/
theorem IsNormal.cases {p : Path} (h : p.IsNormal) :
    p = ⟨""⟩ ∨ p = ⟨"/"⟩ ∨ ∃ front c, Component.IsPart c ∧ p.components = front ++ [c] ∧
      p = (ofComponents front).join ⟨c.text⟩ := by
  obtain ⟨parts, hparts, hcs⟩ := h.shaped
  have hp := h.eq_ofComponents
  rcases List.eq_nil_or_concat' parts with rfl | ⟨front, c, rfl⟩
  · rcases hcs with hcs | hcs
    · exact .inl (by rw [hp, hcs]; rfl)
    · exact .inr (.inl (by rw [hp, hcs]; decide))
  · have hc : c.IsPart := hparts c (by simp)
    have split : ∀ lead, p.components = lead ++ (front ++ [c]) →
        p = (ofComponents (lead ++ front)).join ⟨c.text⟩ := by
      intro lead hlead
      rw [hp, hlead, ← List.append_assoc, ofComponents, List.foldl_append]
      rfl
    rcases hcs with hcs | hcs
    · exact .inr (.inr ⟨front, c, hc, hcs, split [] hcs⟩)
    · exact .inr (.inr ⟨.root :: front, c, hc, hcs, split [.root] hcs⟩)

theorem components_empty : components ⟨""⟩ = [] := by decide

theorem components_root : components ⟨"/"⟩ = [.root] := by decide

/-- A part that is written behind a slash adds its component. Behind nothing the slash is the
root. -/
theorem components_add_part (p : Path) {s : String} (h : (Component.name s).IsPart) :
    components ⟨p.text ++ "/" ++ s⟩ =
      (if p.text = "" then [.root] else p.components) ++ [.name s] := by
  have htext : p.text ++ "/" ++ s = String.ofList (p.text.toList ++ '/' :: s.toList) := by
    apply String.toList_injective
    simp
  have hs : componentOf s.toList = some (.name s) := h.1
  have hslash : '/' ∉ s.toList := h.2
  rw [htext, components_append_slash, splitSlash_of_not_mem hslash, String.ofList_toList]
  simp [hs]

/-- What is in front of the last name of a path, or all of it if there is none. -/
def folder (cs : List Component) : List Component :=
  if cs.getLast? = some .root then cs else cs.dropLast

/-- An ending that is written behind a normal path makes a name of its last component: the one that
this was before, with the ending. -/
theorem components_add_ending {p : Path} (h : p.IsNormal) (ending : String)
    (hslash : '/' ∉ ending.toList) (hlength : 3 ≤ ending.toList.length) :
    ∃ s, components ⟨p.text ++ ending⟩ = folder p.components ++ [.name (s ++ ending)] ∧
      ∀ front name, p.components = front ++ [.name name] → s = name := by
  have alone := isPart_name hslash hlength
  rcases h.cases with rfl | rfl | ⟨front, c, hc, hcs, hp⟩
  · refine ⟨"", ?_, fun front name hname => by simp [components_empty] at hname⟩
    have htext : "" ++ ending = (Component.name ending).text := String.empty_append
    rw [htext, components_part alone, components_empty]
    rfl
  · refine ⟨"", ?_, fun front name hname => ?_⟩
    · have htext : "/" ++ ending = "" ++ "/" ++ ending := by simp
      rw [htext, components_add_part ⟨""⟩ alone, components_root, String.empty_append]
      rfl
    · rw [components_root] at hname
      cases front <;> simp at hname
  · have hmore : (Component.name (c.text ++ ending)).IsPart :=
      isPart_name (by simp [hc.2, hslash]) (by simp; omega)
    refine ⟨c.text, ?_, fun front' name hname => ?_⟩
    · have hroot : c ≠ .root := by
        rintro rfl
        exact absurd hc.2 (by simp [Component.text])
      have hfolder : folder p.components = front := by simp [folder, hcs, hroot]
      have hfront : (ofComponents front).components = front := by
        have := components_join_part (ofComponents front) hc
        rw [← hp, hcs] at this
        exact (List.append_singleton_inj.mp this).1.symm
      have habs : isAbsolute ⟨c.text ++ ending⟩ = false :=
        isAbsolute_of_isPart (c := .name (c.text ++ ending)) hmore
      have htext : p.text ++ ending = ((ofComponents front).join ⟨c.text ++ ending⟩).text := by
        rw [← text_join_append (ofComponents front) (isAbsolute_of_isPart hc) habs, ← hp]
      rw [htext, hfolder]
      have := components_join_part (ofComponents front) hmore
      rwa [hfront] at this
    · rw [hcs] at hname
      rw [(List.append_singleton_inj.mp hname).2]
      rfl

end Path

/-! ### Files in memory -/

namespace MemoryFiles

theorem mem_below {dir p : Path} {ps : List Path} : p ∈ below dir ps ↔ p ∈ ps ∧ dir.Below p := by
  simp [below, Path.below_iff]

/-- There is no file below a path that is no directory. -/
theorem isFile_of_below {m : MemoryFiles} {dir p : Path} (empty : m.isDir dir = false)
    (hdir : dir.IsNormal) (hp : p.IsNormal) (below : dir.Below p) : m.isFile p = false := by
  by_contra there
  rw [Bool.not_eq_false] at there
  obtain ⟨q, hq, hsame⟩ := OrderedMap.exists_mem_keys (m := m.files) (k := p.normalize) there
  have hmem : q ∈ MemoryFiles.below dir.normalize m.files.keys := by
    rw [show p.normalize = p from hp] at hsame
    rw [show dir.normalize = dir from hdir]
    exact mem_below.mpr ⟨hq, below.congr hsame.symm⟩
  simp only [isDir, Bool.not_eq_false', List.isEmpty_iff] at empty
  rw [empty] at hmem
  cases hmem

end MemoryFiles

end Precompile
