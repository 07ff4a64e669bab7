import Mathlib.Data.List.Induction
import Precompile.Proofs.Path.Below

/-!
Texts of absolute normal paths, and of what is left of them below a directory.

An absolute normal path is written as a slash and its names with slashes between them
(`IsNormal.toList_text`). So what is left of it below a directory is written as the names that come
after those of the directory (`toList_relativeTo`).
-/

namespace Precompile.Path

/-! ### Joined parts -/

theorem joinSlash_cons {pieces : List (List Char)} (h : pieces ≠ []) (piece : List Char) :
    joinSlash (piece :: pieces) = piece ++ '/' :: joinSlash pieces := by
  cases pieces with
  | nil => exact absurd rfl h
  | cons next pieces => rfl

theorem joinSlash_concat {pieces : List (List Char)} (h : pieces ≠ []) (piece : List Char) :
    joinSlash (pieces ++ [piece]) = joinSlash pieces ++ '/' :: piece := by
  induction pieces with
  | nil => exact absurd rfl h
  | cons first pieces ih =>
    by_cases hpieces : pieces = []
    · simp [hpieces, joinSlash]
    · rw [List.cons_append, joinSlash_cons (by simp), joinSlash_cons hpieces, ih hpieces]
      simp

/-- What is written in front of the last part does not depend on it. -/
theorem exists_joinSlash_concat (pieces : List (List Char)) :
    ∃ front, ∀ piece, joinSlash (pieces ++ [piece]) = front ++ piece := by
  by_cases h : pieces = []
  · exact ⟨[], fun piece => by simp [h, joinSlash]⟩
  · exact ⟨joinSlash pieces ++ ['/'], fun piece => by simp [joinSlash_concat h]⟩

/-- An ending without a slash is that of the last part. -/
theorem suffix_joinSlash_iff {ending : List Char} (hslash : '/' ∉ ending)
    (pieces : List (List Char)) (last : List Char) :
    ending <:+ joinSlash (pieces ++ [last]) ↔ ending <:+ last := by
  by_cases hpieces : pieces = []
  · simp [hpieces, joinSlash]
  · rw [joinSlash_concat hpieces]
    constructor
    · intro h
      have hlast := List.suffix_append (joinSlash pieces) ('/' :: last)
      rcases List.suffix_or_suffix_of_suffix h hlast with h | h
      · rcases List.suffix_cons_iff.mp h with rfl | h
        · exact absurd List.mem_cons_self hslash
        · exact h
      · exact absurd (h.subset List.mem_cons_self) hslash
    · intro h
      exact h.trans ((List.suffix_cons '/' last).trans (List.suffix_append _ _))

/-! ### Texts -/

theorem eq_of_toList {p q : Path} (h : p.text.toList = q.text.toList) : p = q := by
  cases p
  cases q
  exact congrArg Path.mk (String.toList_injective h)

theorem not_endsWith_slash {p : Path} {front last : List Char} (htext : p.text.toList = front ++ last)
    (hne : last ≠ []) (hslash : '/' ∉ last) : p.text.endsWith "/" = false := by
  by_contra hend
  rw [Bool.not_eq_false] at hend
  obtain ⟨cs, hcs⟩ := String.Slice.endsWith_string_iff.mp hend
  rw [String.copy_toSlice, htext] at hcs
  rcases List.eq_nil_or_concat' last with rfl | ⟨init, c, rfl⟩
  · exact hne rfl
  · rw [← List.append_assoc] at hcs
    have hc : "/".toList = [c] := by
      have := congrArg List.getLast? hcs
      simpa using this
    have hslash' : c = '/' := by simpa [eq_comm] using hc
    exact hslash (by simp [hslash'])

/-- Parts joined one after the other are written with slashes between them, behind the slash of the
root where they start there. -/
theorem toList_foldl_join {start : String} (hstart : start = "" ∨ start = "/")
    (parts : List Component) (h : ∀ c ∈ parts, c.IsPart) :
    (parts.foldl (fun (p : Path) c => p.join ⟨c.text⟩) ⟨start⟩).text.toList =
      start.toList ++ joinSlash (parts.map fun c => c.text.toList) := by
  induction parts using List.reverseRecOn with
  | nil => simp [joinSlash]
  | append_singleton parts c ih =>
    have hc := h c (by simp)
    have hfront := ih fun d hd => h d (by simp [hd])
    have habs : isAbsolute ⟨c.text⟩ = false := isAbsolute_of_isPart hc
    rw [List.foldl_concat]
    generalize parts.foldl (fun (p : Path) c => p.join ⟨c.text⟩) ⟨start⟩ = p at hfront ⊢
    -- a slash is put in between unless nothing or the root comes first
    rcases List.eq_nil_or_concat' parts with rfl | ⟨init, d, rfl⟩
    · have hp : p.text = start := by
        apply String.toList_injective
        simpa [joinSlash] using hfront
      rcases hstart with rfl | rfl
      · simp [join, habs, hp, joinSlash]
      · have hend : "/".endsWith "/" = true := String.Slice.endsWith_string_iff.mpr (by simp)
        simp [join, habs, hp, hend, joinSlash]
    · have hd := h d (by simp)
      obtain ⟨front, hjoin⟩ := exists_joinSlash_concat (init.map fun c => c.text.toList)
      have htext : p.text.toList = (start.toList ++ front) ++ d.text.toList := by
        rw [hfront, List.map_append, List.map_singleton, hjoin, List.append_assoc]
      have hend := not_endsWith_slash htext (text_ne_nil_of_isPart hd) hd.2
      have hne : p.text ≠ "" := by
        intro empty
        simp [empty, text_ne_nil_of_isPart hd] at htext
      rw [List.map_append, List.map_singleton, joinSlash_concat (by simp), ← List.append_assoc,
        ← hfront]
      simp [join, habs, hend, hne]

theorem toList_ofComponents {parts : List Component} (h : ∀ c ∈ parts, c.IsPart) :
    (ofComponents parts).text.toList = joinSlash (parts.map fun c => c.text.toList) := by
  simpa [ofComponents] using toList_foldl_join (.inl rfl) parts h

theorem toList_ofComponents_root {parts : List Component} (h : ∀ c ∈ parts, c.IsPart) :
    (ofComponents (.root :: parts)).text.toList =
      '/' :: joinSlash (parts.map fun c => c.text.toList) :=
  toList_foldl_join (.inr rfl) parts h

theorem toList_names (names : List String) :
    names.map String.toList = (names.map Component.name).map fun c => c.text.toList := by
  simp [Component.text]

theorem isPart_of_mem_names {names : List String}
    (parts : ∀ s ∈ names, (Component.name s).IsPart) :
    ∀ c ∈ names.map Component.name, c.IsPart := by
  simpa using parts

/-- Names are parts wherever they come. -/
theorem Shaped.isPart_of_mem {cs : List Component} (h : Shaped cs) {s : String}
    (hs : Component.name s ∈ cs) : (Component.name s).IsPart := by
  obtain ⟨parts, hparts, rfl | rfl⟩ := h
  · exact hparts _ hs
  · exact hparts _ (List.mem_of_ne_of_mem (by simp) hs)

theorem IsNormal.isPart_of_mem {p : Path} (h : p.IsNormal) {s : String}
    (hs : Component.name s ∈ p.components) : (Component.name s).IsPart :=
  h.shaped.isPart_of_mem hs

/-- An absolute normal path is the root and names below it. -/
theorem IsNormal.exists_names {p : Path} (h : p.IsNormal) (habs : p.isAbsolute = true) :
    ∃ names : List String, p.components = .root :: names.map .name := by
  obtain ⟨names, hnames⟩ := normalComponents_of_isAbsolute habs
  exact ⟨names, h.isSettled.symm.trans hnames⟩

theorem IsNormal.toList_text {p : Path} (h : p.IsNormal) {names : List String}
    (hp : p.components = .root :: names.map .name) :
    p.text.toList = '/' :: joinSlash (names.map String.toList) := by
  have parts : ∀ s ∈ names, (Component.name s).IsPart := by
    intro s hs
    exact h.isPart_of_mem (by simp [hp, hs])
  rw [h.eq_ofComponents, hp, toList_names]
  exact toList_ofComponents_root (isPart_of_mem_names parts)

theorem isBlank_of_isPart {c : Component} (h : c.IsPart) : isBlank c.text.toList = false := by
  by_contra hblank
  have hc := h.1
  simp [componentOf, hblank] at hc

theorem splitSlash_parts {parts : List Component} (hne : parts ≠ []) (h : ∀ c ∈ parts, c.IsPart) :
    splitSlash (joinSlash (parts.map fun c => c.text.toList)) = parts.map fun c => c.text.toList := by
  refine splitSlash_joinSlash (by simp [hne]) fun piece hpiece => ?_
  obtain ⟨c, hc, rfl⟩ := List.mem_map.mp hpiece
  exact (h c hc).2

theorem filterMap_parts {parts : List Component} (h : ∀ c ∈ parts, c.IsPart) :
    (parts.map fun c => c.text.toList).filterMap componentOf = parts := by
  rw [List.filterMap_map]
  induction parts with
  | nil => rfl
  | cons c parts ih =>
    have hc : componentOf c.text.toList = some c := (h c List.mem_cons_self).1
    rw [List.filterMap_cons, Function.comp_apply, hc]
    exact congrArg _ (ih fun d hd => h d (List.mem_cons_of_mem _ hd))

/-- Parts with slashes between them are written as a path from a directory. -/
theorem lead_parts {parts : List Component} (hne : parts ≠ []) (h : ∀ c ∈ parts, c.IsPart) {p : Path}
    (hp : p.text.toList = joinSlash (parts.map fun c => c.text.toList)) : p.lead = .plain := by
  have hsplit := splitSlash_parts hne h
  obtain ⟨c, parts, rfl⟩ := List.exists_cons_of_ne_nil hne
  have hblank : isBlank c.text.toList = false := isBlank_of_isPart (h c List.mem_cons_self)
  unfold lead cut
  rw [hp]
  split
  next body heq =>
    rw [heq] at hsplit
    simp only [splitSlash, if_true, List.map_cons, List.cons.injEq] at hsplit
    simp [← hsplit.1, isBlank] at hblank
  next =>
    rw [hsplit]
    split
    next heq =>
      rw [List.map_cons, List.cons.injEq] at heq
      simp [heq.1, isBlank] at hblank
    next => rfl

theorem cut_of_parts {p : Path} {parts : List Component} (hne : parts ≠ []) (h : ∀ c ∈ parts, c.IsPart)
    (hp : p.text.toList = joinSlash (parts.map fun c => c.text.toList)) :
    cut p.text.toList = (.plain, parts.map fun c => c.text.toList) := by
  rw [cut_of_plain (lead_parts hne h hp), hp, splitSlash_parts hne h]

theorem cut_of_root_parts {p : Path} {parts : List Component} (hne : parts ≠ []) (h : ∀ c ∈ parts, c.IsPart)
    (hp : p.text.toList = '/' :: joinSlash (parts.map fun c => c.text.toList)) :
    cut p.text.toList = (.root, parts.map fun c => c.text.toList) := by
  rw [hp, cut, splitSlash_parts hne h]

theorem components_of_parts {parts : List Component} (hne : parts ≠ []) (h : ∀ c ∈ parts, c.IsPart)
    {p : Path} (hp : p.text.toList = joinSlash (parts.map fun c => c.text.toList)) :
    p.components = parts := by
  rw [components_of_plain (lead_parts hne h hp), hp, splitSlash_parts hne h, filterMap_parts h]

section Names

variable {names : List String}

theorem splitSlash_names (hne : names ≠ []) (parts : ∀ s ∈ names, (Component.name s).IsPart) :
    splitSlash (joinSlash (names.map String.toList)) = names.map String.toList := by
  rw [toList_names]
  exact splitSlash_parts (by simp [hne]) (isPart_of_mem_names parts)

theorem lead_names (hne : names ≠ []) (parts : ∀ s ∈ names, (Component.name s).IsPart) {p : Path}
    (hp : p.text.toList = joinSlash (names.map String.toList)) : p.lead = .plain := by
  rw [toList_names] at hp
  exact lead_parts (by simp [hne]) (isPart_of_mem_names parts) hp

theorem components_names (hne : names ≠ []) (parts : ∀ s ∈ names, (Component.name s).IsPart)
    {p : Path} (hp : p.text.toList = joinSlash (names.map String.toList)) :
    p.components = names.map .name := by
  rw [toList_names] at hp
  exact components_of_parts (by simp [hne]) (isPart_of_mem_names parts) hp

end Names

theorem isAbsolute_iff {p : Path} :
    p.isAbsolute = true ↔ ∃ rest, p.components = .root :: rest := by
  have hcs : p.components = p.lead.component?.toList ++ p.pieces.filterMap componentOf := rfl
  constructor
  · intro h
    have hlead : p.lead = .root := of_decide_eq_true h
    exact ⟨p.pieces.filterMap componentOf, by rw [hcs, hlead]; rfl⟩
  · rintro ⟨rest, h⟩
    rw [hcs] at h
    cases hlead : p.lead with
    | root => simp [isAbsolute, hlead]
    | here => simp [hlead, Lead.component?] at h
    | plain =>
      have hroot := isPart_of_mem_pieces p .root (by simp_all [Lead.component?])
      exact absurd hroot.2 (by simp [Component.text])

/-! ### Cutting -/

theorem dropPieces_eq_drop {pieces : List (List Char)} (h : ∀ piece ∈ pieces, isBlank piece = false)
    (n : Nat) : dropPieces n pieces = pieces.drop n := by
  have keep : ∀ pieces : List (List Char), (∀ piece ∈ pieces, isBlank piece = false) →
      pieces.dropWhile isBlank = pieces := by
    intro pieces h
    cases pieces with
    | nil => rfl
    | cons piece pieces => simp [h piece List.mem_cons_self]
  induction n generalizing pieces with
  | zero => exact keep pieces h
  | succ n ih =>
    rw [dropPieces, keep pieces h, ih fun piece hpiece => h piece (List.mem_of_mem_drop hpiece),
      List.drop_drop, Nat.add_comm]

theorem trimEnd_eq {pieces : List (List Char)} (h : ∀ piece ∈ pieces, isBlank piece = false) :
    trimEnd pieces = pieces := by
  unfold trimEnd
  rcases List.eq_nil_or_concat' pieces with rfl | ⟨front, last, rfl⟩
  · rfl
  · simp [h last (by simp)]

/-! ### The path above -/

/-- The path above one that ends with a part is written as what comes before that part. -/
theorem parent?_of_cut {p : Path} {lead : Lead} {front : List Component} {c : Component}
    (h : ∀ d ∈ front ++ [c], d.IsPart)
    (hp : cut p.text.toList = (lead, (front ++ [c]).map fun d => d.text.toList)) :
    p.parent? = some (ofPieces lead (front.map fun d => d.text.toList)) := by
  have written : ∀ piece ∈ (front ++ [c]).map (fun d => d.text.toList), isBlank piece = false := by
    intro piece hpiece
    obtain ⟨d, hd, rfl⟩ := List.mem_map.mp hpiece
    exact isBlank_of_isPart (h d hd)
  have hlead : p.lead = lead := congrArg Prod.fst hp
  have hpieces : p.pieces = (front ++ [c]).map fun d => d.text.toList := congrArg Prod.snd hp
  have kept : trimEnd p.pieces = front.map (fun d => d.text.toList) ++ [c.text.toList] := by
    rw [hpieces, trimEnd_eq written, List.map_append, List.map_singleton]
  have above : trimEnd (front.map fun d => d.text.toList) = front.map fun d => d.text.toList := by
    apply trimEnd_eq
    intro piece hpiece
    apply written
    rw [List.map_append]
    exact List.mem_append_left _ hpiece
  unfold parent?
  rw [kept, hlead]
  split
  next none => simp at none
  next => rw [List.dropLast_concat, above]

/-- Above a path that ends with a part is the path without it. -/
theorem parent?_ofComponents {front : List Component} {c : Component}
    (shaped : Shaped (front ++ [c])) (hc : c.IsPart) :
    (ofComponents (front ++ [c])).parent? = some (ofComponents front) := by
  obtain ⟨parts, hparts, hcs⟩ := shaped
  rcases List.eq_nil_or_concat' parts with rfl | ⟨init, last, rfl⟩
  · -- the root alone does not end with a part
    rcases hcs with hcs | hcs
    · simp at hcs
    · rw [← List.nil_append [Component.root], List.append_singleton_inj] at hcs
      exact absurd (hcs.2 ▸ hc).2 (by simp [Component.text])
  have hinit : ∀ c ∈ init, c.IsPart := fun c hc => hparts c (List.mem_append_left _ hc)
  rcases hcs with hcs | hcs
  · obtain ⟨rfl, rfl⟩ := List.append_singleton_inj.mp hcs
    rw [parent?_of_cut hparts (cut_of_parts (by simp) hparts (toList_ofComponents hparts))]
    apply congrArg some
    apply eq_of_toList
    rw [toList_ofComponents hinit, ofPieces, String.toList_ofList]
  · rw [← List.cons_append] at hcs
    obtain ⟨rfl, rfl⟩ := List.append_singleton_inj.mp hcs
    have text := toList_ofComponents_root hparts
    rw [List.cons_append, parent?_of_cut hparts (cut_of_root_parts (by simp) hparts text)]
    apply congrArg some
    apply eq_of_toList
    rw [toList_ofComponents_root hinit, ofPieces, String.toList_ofList]

example : parent? ⟨"/a/./b/"⟩ = some ⟨"/a"⟩ := by
  decide +kernel

/-! ### What is left below a directory -/

/-- What is left below a directory is written as the names after those of the directory. -/
theorem toList_relativeTo {p base : Path} (hp : p.IsNormal) {front rest : List String}
    (hbase : base.components = .root :: front.map .name)
    (hcs : p.components = .root :: (front ++ rest).map .name) (hne : rest ≠ []) :
    (p.relativeTo base).text.toList = joinSlash (rest.map String.toList) := by
  have parts : ∀ s ∈ front ++ rest, (Component.name s).IsPart := by
    intro s hs
    refine hp.isPart_of_mem ?_
    rw [hcs]
    exact List.mem_cons_of_mem _ (List.mem_map_of_mem hs)
  have nonblank : ∀ piece ∈ (front ++ rest).map String.toList, isBlank piece = false := by
    intro piece hpiece
    obtain ⟨s, hs, rfl⟩ := List.mem_map.mp hpiece
    exact isBlank_of_isPart (parts s hs)
  have htext := hp.toList_text hcs
  have hsplit := splitSlash_names (by simp [hne]) parts
  have hlead : p.lead = .root := by simp [lead, cut, htext]
  have hpieces : p.pieces = (front ++ rest).map String.toList := by
    simp only [pieces, cut, htext]
    exact hsplit
  have hstarts : p.startsWith base = true := by
    rw [startsWith, List.isPrefixOf_iff_prefix, hbase, hcs]
    exact ⟨rest.map .name, by simp⟩
  -- as many pieces are dropped as the directory has names
  have hdrop : dropPieces front.length p.pieces = rest.map String.toList := by
    rw [hpieces, dropPieces_eq_drop nonblank, List.map_append, List.drop_left' (by simp)]
  have htrim : trimEnd (rest.map String.toList) = rest.map String.toList := by
    refine trimEnd_eq fun piece hpiece => nonblank piece ?_
    rw [List.map_append]
    exact List.mem_append_right _ hpiece
  have hstrip : p.stripPrefix? base = some (ofPieces .plain (rest.map String.toList)) := by
    simp [stripPrefix?, hstarts, hbase, hlead, hdrop, htrim]
  simp [relativeTo, hstrip, ofPieces]

end Precompile.Path
