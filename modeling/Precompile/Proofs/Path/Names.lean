import Precompile.Proofs.Path.Relative

/-!
Absolute normal paths by their names.

An absolute normal path is determined by the names below the root (`IsAt`). The directory that it
lies in has all of them but the last one (`IsAt.parent?_eq`), and the paths below it are those
whose names go on where its own end (`IsAt.below_iff`).
-/

namespace Precompile.Path

variable {p q d : Path} {s : String} {names more : List String}

/-! ### Absolute paths -/

theorem exists_toList_of_isAbsolute (h : p.isAbsolute = true) :
    ∃ body, p.text.toList = '/' :: body := by
  have hlead : p.lead = .root := of_decide_eq_true h
  unfold lead cut at hlead
  split at hlead
  next body heq => exact ⟨body, heq⟩
  next =>
    split at hlead <;> cases hlead

theorem isAbsolute_of_toList {body : List Char} (h : p.text.toList = '/' :: body) :
    p.isAbsolute = true := by
  simp [isAbsolute, lead, cut, h]

theorem isAbsolute_normalize (h : p.isAbsolute = true) : p.normalize.isAbsolute = true := by
  obtain ⟨names, hnames⟩ := normalComponents_of_isAbsolute h
  exact isAbsolute_iff.mpr ⟨_, (components_normalize p).trans hnames⟩

theorem isAbsolute_join (h : p.isAbsolute = true) (q : Path) : (p.join q).isAbsolute = true := by
  obtain ⟨body, hbody⟩ := exists_toList_of_isAbsolute h
  unfold join
  split
  next hq => exact hq
  next =>
    split
    · have text : (p.text ++ q.text).toList = '/' :: (body ++ q.text.toList) := by simp [hbody]
      exact isAbsolute_of_toList text
    · have text : (p.text ++ "/" ++ q.text).toList = '/' :: (body ++ '/' :: q.text.toList) := by
        simp [hbody]
      exact isAbsolute_of_toList text

theorem isAbsolute_parent (h : p.isAbsolute = true) (hd : p.parent? = some d) :
    d.isAbsolute = true := by
  have hlead : p.lead = .root := of_decide_eq_true h
  have rooted : ∀ pieces, (ofPieces .root pieces).text.toList = '/' :: joinSlash pieces := by
    simp [ofPieces]
  unfold parent? at hd
  rw [hlead] at hd
  split at hd
  · cases hd
  · exact Option.some.inj hd ▸ isAbsolute_of_toList (rooted _)

/-! ### Names below the root -/

/-- The path is the normal one with these names below the root. -/
structure IsAt (p : Path) (names : List String) : Prop where
  normal : p.IsNormal
  components_eq : p.components = .root :: names.map .name

theorem IsNormal.exists_isAt (h : p.IsNormal) (absolute : p.isAbsolute = true) :
    ∃ names, p.IsAt names := by
  obtain ⟨names, hnames⟩ := h.exists_names absolute
  exact ⟨names, h, hnames⟩

/-- A name joined with an absolute normal path is below it in the normal way. -/
theorem IsNormal.join_name (h : p.IsNormal) (part : (Component.name s).IsPart) :
    (p.join ⟨s⟩).IsNormal := by
  have joined : (p.join ⟨s⟩).components = p.components ++ [.name s] :=
    components_join_part (c := .name s) p part
  show ofComponents (normalComponents (p.join ⟨s⟩).components) = _
  rw [joined, normalComponents_concat_name, h.isSettled, ofComponents, List.foldl_append]
  exact congrArg (fun q : Path => q.join ⟨s⟩) h.eq_ofComponents.symm

theorem isAt_ofComponents (parts : ∀ s ∈ names, (Component.name s).IsPart) :
    (ofComponents (.root :: names.map .name)).IsAt names := by
  have shaped : Shaped (.root :: names.map Component.name) := by
    refine ⟨names.map Component.name, fun c hc => ?_, .inr rfl⟩
    obtain ⟨s, hs, rfl⟩ := List.mem_map.mp hc
    exact parts s hs
  refine ⟨?_, components_ofComponents shaped⟩
  have settled := normalComponents_append_names [.root] names
  show ofComponents (normalComponents (ofComponents _).components) = _
  rw [components_ofComponents shaped]
  exact congrArg ofComponents settled

/-- Names behind a slash, with slashes between them, are an absolute normal path. -/
theorem isAt_of_toList (parts : ∀ s ∈ names, (Component.name s).IsPart)
    (hp : p.text.toList = '/' :: joinSlash (names.map String.toList)) : p.IsAt names := by
  have text : p.text = (ofComponents (.root :: names.map Component.name)).text := by
    rw [toList_names] at hp
    have joined := toList_foldl_join (.inr rfl) _ (isPart_of_mem_names parts)
    exact String.toList_injective (hp.trans joined.symm)
  cases p
  cases text
  exact isAt_ofComponents parts

namespace IsAt

theorem absolute (h : p.IsAt names) : p.isAbsolute = true :=
  isAbsolute_iff.mpr ⟨_, h.components_eq⟩

theorem toList_text (h : p.IsAt names) :
    p.text.toList = '/' :: joinSlash (names.map String.toList) :=
  h.normal.toList_text h.components_eq

theorem isPart (h : p.IsAt names) (hs : s ∈ names) : (Component.name s).IsPart :=
  h.normal.isPart_of_mem (by simp [h.components_eq, hs])

theorem path_eq (hp : p.IsAt names) (hq : q.IsAt names) : p = q :=
  hp.normal.eq_of_same hq.normal (hp.components_eq.trans hq.components_eq.symm)

theorem names_eq_of_same (hp : p.IsAt names) (hq : q.IsAt more) (same : p.Same q) :
    names = more := by
  have same := (List.cons.inj (hp.components_eq.symm.trans (same.trans hq.components_eq))).2
  exact List.map_injective_iff.mpr (fun _ _ => Component.name.inj) same

theorem names_eq (hp : p.IsAt names) (hp' : p.IsAt more) : names = more :=
  hp.names_eq_of_same hp' rfl

theorem join (h : d.IsAt names) (part : (Component.name s).IsPart) :
    (d.join ⟨s⟩).IsAt (names ++ [s]) where
  normal := h.normal.join_name part
  components_eq := by
    rw [show (d.join ⟨s⟩).components = d.components ++ [.name s] from
      components_join_part (c := .name s) d part, h.components_eq]
    simp

theorem eq_join (hp : p.IsAt (names ++ [s])) (hd : d.IsAt names) : p = d.join ⟨s⟩ :=
  hp.path_eq (hd.join (hp.isPart (by simp)))

theorem fileName?_eq (h : p.IsAt (names ++ [s])) : p.fileName? = some s := by
  have last : p.components = (.root :: names.map .name) ++ [.name s] := by simp [h.components_eq]
  rw [fileName?, last, List.getLast?_concat]

/-- Above a path there is a path for every beginning of its names. -/
theorem exists_front (h : p.IsAt (names ++ more)) : ∃ d : Path, d.IsAt names :=
  ⟨_, isAt_ofComponents fun _ hs => h.isPart (List.mem_append_left _ hs)⟩

theorem pieces_eq (h : p.IsAt names) (hne : names ≠ []) : p.pieces = names.map String.toList := by
  simp only [pieces, cut, h.toList_text]
  exact splitSlash_names hne fun s hs => h.isPart hs

/-- A directory is written as what is in it begins. -/
theorem text_prefix (hd : d.IsAt names) (hp : p.IsAt (names ++ [s])) :
    d.text.toList <+: p.text.toList := by
  rw [hd.toList_text, hp.toList_text]
  by_cases hne : names = []
  · exact ⟨joinSlash ((names ++ [s]).map String.toList), by simp [hne, joinSlash]⟩
  · rw [List.map_append, List.map_singleton, joinSlash_concat (by simpa using hne)]
    exact ⟨'/' :: s.toList, rfl⟩

/-- A path lies in the directory with its names up to the last one. -/
theorem parent?_eq (hp : p.IsAt (names ++ [s])) (hd : d.IsAt names) : p.parent? = some d := by
  have last : p.components = (.root :: names.map .name) ++ [.name s] := by simp [hp.components_eq]
  have shaped := hp.normal.shaped
  rw [last] at shaped
  rw [hp.normal.eq_ofComponents, last, parent?_ofComponents shaped (hp.isPart (by simp)),
    hd.normal.eq_ofComponents, hd.components_eq]

theorem exists_parent (hp : p.IsAt (names ++ [s])) : ∃ d, p.parent? = some d ∧ d.IsAt names := by
  obtain ⟨d, hd⟩ := hp.exists_front
  exact ⟨d, hp.parent?_eq hd, hd⟩

/-- What lies in a directory has the names of the directory and one more. -/
theorem exists_of_parent (h : p.IsAt names) (hd : p.parent? = some d) :
    ∃ front s, names = front ++ [s] ∧ d.IsAt front := by
  rcases List.eq_nil_or_concat' names with rfl | ⟨front, s, rfl⟩
  · have hpieces : p.pieces = [[]] := by
      simp [pieces, cut, h.toList_text, joinSlash, splitSlash]
    have hlead : p.lead = .root := of_decide_eq_true h.absolute
    simp [parent?, hpieces, hlead, trimEnd, isBlank] at hd
  · obtain ⟨e, he, above⟩ := h.exists_parent
    obtain rfl : e = d := Option.some.inj (he.symm.trans hd)
    exact ⟨front, s, rfl, above⟩

/-! ### Below a directory -/

/-- Below a directory are the paths with its names and more. -/
theorem below_iff (hd : d.IsAt names) (normal : p.IsNormal) :
    d.Below p ↔ ∃ t rest, p.IsAt (names ++ t :: rest) := by
  constructor
  · rintro ⟨c, rest, hp⟩
    have absolute : p.isAbsolute = true :=
      isAbsolute_iff.mpr ⟨_, hp.trans (by rw [hd.components_eq, List.cons_append])⟩
    obtain ⟨all, hall⟩ := normal.exists_isAt absolute
    -- the names of the path begin with those of the directory, and one more follows
    have split : all.map Component.name = names.map Component.name ++ c :: rest := by
      have := hall.components_eq.symm.trans (hp.trans (by rw [hd.components_eq]))
      exact (List.cons.inj this).2
    obtain ⟨front, tail, rfl, hfront, htail⟩ := List.map_eq_append_iff.mp split
    obtain ⟨t, rest', rfl, -, -⟩ := List.map_eq_cons_iff.mp htail
    have hnames : front = names :=
      List.map_injective_iff.mpr (fun _ _ => Component.name.inj) hfront
    exact ⟨t, rest', hnames ▸ hall⟩
  · rintro ⟨t, rest, hp⟩
    exact ⟨.name t, rest.map .name, by simp [hp.components_eq, hd.components_eq]⟩

/-- Nothing is left of a path below itself. -/
theorem stripPrefix?_self (h : p.IsAt names) : p.stripPrefix? p = some ⟨""⟩ := by
  have starts : p.startsWith p = true := List.isPrefixOf_iff_prefix.mpr (List.prefix_refl _)
  have hlead : p.lead = .root := of_decide_eq_true h.absolute
  have dropped : dropPieces names.length p.pieces = [] := by
    by_cases hne : names = []
    · have hpieces : p.pieces = [[]] := by
        simp [pieces, cut, h.toList_text, hne, joinSlash, splitSlash]
      simp [hne, hpieces, dropPieces, isBlank]
    · rw [h.pieces_eq hne, dropPieces_eq_drop, List.drop_eq_nil_of_le (by simp)]
      intro piece hpiece
      obtain ⟨t, ht, rfl⟩ := List.mem_map.mp hpiece
      exact isBlank_of_isPart (h.isPart ht)
  simp [stripPrefix?, starts, h.components_eq, hlead, dropped, trimEnd, ofPieces, joinSlash]

/-- What is left of a path below a directory are its names that come after those of the
directory. -/
theorem components_stripPrefix? (hd : d.IsAt names) (hp : p.IsAt (names ++ s :: more)) :
    ∃ rest, p.stripPrefix? d = some rest ∧ rest.components = (s :: more).map .name := by
  have starts : p.startsWith d = true := by
    rw [startsWith, List.isPrefixOf_iff_prefix, hd.components_eq, hp.components_eq]
    exact ⟨(s :: more).map .name, by simp⟩
  have stripped : p.stripPrefix? d = some (p.relativeTo d) := by
    have some : (p.stripPrefix? d).isSome = true := by
      unfold stripPrefix?
      rw [if_pos starts]
      split <;> rfl
    obtain ⟨rest, hrest⟩ := Option.isSome_iff_exists.mp some
    simp [relativeTo, hrest]
  refine ⟨_, stripped, components_names (by simp) (fun t ht => ?_) ?_⟩
  · exact hp.isPart (List.mem_append_right _ ht)
  · exact toList_relativeTo hp.normal hd.components_eq hp.components_eq (by simp)

end IsAt

/-- The path above an absolute normal one is absolute and normal. -/
theorem IsNormal.parent (h : p.IsNormal) (absolute : p.isAbsolute = true)
    (hd : p.parent? = some d) : d.isAbsolute = true ∧ d.IsNormal := by
  obtain ⟨names, hp⟩ := h.exists_isAt absolute
  obtain ⟨_, _, _, above⟩ := hp.exists_of_parent hd
  exact ⟨above.absolute, above.normal⟩

end Precompile.Path

namespace Precompile.MemoryFiles

open Precompile.Path (IsAt)

variable {d p q : Path} {names : List String}

/-- The child of a directory that leads to a path below it has one more name than the directory. -/
theorem childOf?_eq (hd : d.IsAt names) {s : String} {rest : List String}
    (hp : p.IsAt (names ++ s :: rest)) : childOf? d p = some (d.join ⟨s⟩) := by
  obtain ⟨below, hbelow, components⟩ := hd.components_stripPrefix? hp
  simp [childOf?, hbelow, components, Component.text]

theorem below_of_childOf? (hd : d.IsAt names) (normal : p.IsNormal) (h : childOf? d p = some q) :
    d.Below p := by
  simp only [childOf?, Option.bind_eq_some_iff, Option.map_eq_some_iff] at h
  obtain ⟨rest, stripped, c, first, -⟩ := h
  refine Path.below_iff.mpr ⟨fun same => ?_, ?_⟩
  · have hp : p = d := normal.eq_of_same hd.normal same
    rw [hp, hd.stripPrefix?_self] at stripped
    rw [← Option.some.inj stripped, Path.components_empty] at first
    cases first
  · unfold Path.stripPrefix? at stripped
    split at stripped
    next starts => exact starts
    next => cases stripped

theorem childOf?_eq_some_iff (hd : d.IsAt names) (normal : p.IsNormal) :
    childOf? d p = some q ↔ ∃ s rest, q.IsAt (names ++ [s]) ∧ p.IsAt (names ++ s :: rest) := by
  constructor
  · intro h
    obtain ⟨s, rest, hp⟩ := (hd.below_iff normal).mp (below_of_childOf? hd normal h)
    rw [childOf?_eq hd hp] at h
    exact ⟨s, rest, Option.some.inj h ▸ hd.join (hp.isPart (by simp)), hp⟩
  · rintro ⟨s, rest, hq, hp⟩
    rw [childOf?_eq hd hp, hq.eq_join hd]

/-- A path leads to what lies in a directory if it is that or lies below it. -/
theorem childOf?_eq_some_iff_below (hd : d.IsAt names) {s : String} (hq : q.IsAt (names ++ [s]))
    (normal : p.IsNormal) : childOf? d p = some q ↔ p = q ∨ q.Below p := by
  constructor
  · intro child
    obtain ⟨t, rest, hq', hp⟩ := (childOf?_eq_some_iff hd normal).mp child
    cases rest with
    | nil => exact .inl (hp.path_eq hq')
    | cons u rest =>
      have split : names ++ t :: u :: rest = (names ++ [t]) ++ u :: rest := by simp
      exact .inr ((hq'.below_iff normal).mpr ⟨u, rest, split ▸ hp⟩)
  · rintro (rfl | below)
    · exact (childOf?_eq_some_iff hd normal).mpr ⟨s, [], hq, hq⟩
    · obtain ⟨u, rest, hp⟩ := (hq.below_iff normal).mp below
      rw [List.append_assoc] at hp
      exact (childOf?_eq_some_iff hd normal).mpr ⟨s, u :: rest, hq, hp⟩

end Precompile.MemoryFiles
