import Precompile.Proofs.Host
import Precompile.Proofs.Path.Relative

/-!
What specifiers are resolved to, and what that depends on.

The candidates for a specifier have normal components (`isSettled_candidates`), and one that lies
below a directory is only followed by others that do so too (`below_of_earlier`). So a host that
has more files than another one, all of them below a directory that the other one has nothing in,
still resolves to the same file what the other one resolves (`ExtendsBelow.extends`).
-/

namespace Precompile.Host

open Precompile.Path

/-! ### Candidates -/

/-- The files that are tried for a stem, in order. -/
def candidates (stem : Path) : List Path := moduleEndings.map fun ending => ⟨stem.text ++ ending⟩

theorem normalComponents_folder {cs : List Component} (h : normalComponents cs = cs) :
    normalComponents (folder cs) = folder cs := by
  unfold folder
  split
  · exact h
  · rcases List.eq_nil_or_concat' cs with rfl | ⟨front, c, rfl⟩
    · rfl
    · rw [List.dropLast_concat]
      exact normalComponents_of_concat h

/-- The file in a directory that stands for the directory. -/
theorem components_index (p : Path) : components ⟨p.text ++ "/index.ts"⟩ =
    (if p.text = "" then [.root] else p.components) ++ [.name "index.ts"] := by
  have part : (Component.name "index.ts").IsPart := isPart_name (by decide) (by decide)
  have htext : p.text ++ "/index.ts" = p.text ++ "/" ++ "index.ts" := by
    rw [String.append_assoc]
    rfl
  rw [htext, components_add_part p part]

theorem isSettled_candidates {stem : Path} (h : stem.IsNormal) :
    ∀ p ∈ candidates stem, p.IsSettled := by
  have ended : ∀ ending : String, '/' ∉ ending.toList → 3 ≤ ending.toList.length →
      IsSettled ⟨stem.text ++ ending⟩ := by
    intro ending hslash hlength
    obtain ⟨s, hs, -⟩ := components_add_ending h ending hslash hlength
    unfold IsSettled
    rw [hs, normalComponents_concat_name, normalComponents_folder h.isSettled]
  have index : IsSettled ⟨stem.text ++ "/index.ts"⟩ := by
    unfold IsSettled
    rw [components_index, normalComponents_concat_name]
    split
    · rfl
    · rw [h.isSettled]
  intro p hp
  simp only [candidates, moduleEndings, List.map_cons, List.map_nil, List.mem_cons,
    List.not_mem_nil, or_false] at hp
  rcases hp with rfl | rfl | rfl | rfl
  · simpa using h.isSettled
  · exact ended ".ts" (by decide) (by decide)
  · exact ended ".d.ts" (by decide) (by decide)
  · exact index

/-- A candidate that lies below a directory is followed by others that do so too. -/
theorem below_of_earlier (dir : Path) {stem : Path} (h : stem.IsNormal) :
    (candidates stem).Pairwise fun p q => dir.Below p → dir.Below q := by
  obtain ⟨s, hscript, -⟩ := components_add_ending h ".ts" (by decide) (by decide)
  obtain ⟨t, hdeclaration, -⟩ := components_add_ending h ".d.ts" (by decide) (by decide)
  have hindex := components_index stem
  have hprefix : dir.components <+: folder stem.components →
      dir.components <+: if stem.text = "" then [.root] else stem.components := by
    intro hfolder
    split
    next hempty =>
      have hstem : stem = ⟨""⟩ := congrArg Path.mk hempty
      rw [hstem, components_empty] at hfolder
      rw [List.prefix_nil.mp hfolder]
      exact List.nil_prefix
    · refine hfolder.trans ?_
      unfold folder
      split
      · exact List.prefix_rfl
      · exact List.dropLast_prefix _
  have hself : dir.Below stem → dir.components <+: folder stem.components := by
    intro hbelow
    unfold folder
    split
    · obtain ⟨c, rest, hrest⟩ := hbelow
      exact ⟨c :: rest, hrest.symm⟩
    · rcases List.eq_nil_or_concat' stem.components with hnil | ⟨front, c, hfront⟩
      · obtain ⟨c, rest, hrest⟩ := hbelow
        simp [hnil] at hrest
      · rw [hfront, List.dropLast_concat]
        exact (below_concat_iff hfront).mp hbelow
  simp only [candidates, moduleEndings, List.map_cons, List.map_nil, List.pairwise_cons,
    List.mem_cons, List.not_mem_nil, or_false, forall_eq_or_imp, forall_eq, String.append_empty,
    IsEmpty.forall_iff, implies_true, List.Pairwise.nil, and_true, below_concat_iff hscript,
    below_concat_iff hdeclaration, below_concat_iff hindex]
  exact ⟨⟨hself, hself, fun h => hprefix (hself h)⟩, ⟨id, hprefix⟩, hprefix⟩

/-- Normal forms of candidates lie below a directory where the candidates do. -/
theorem below_normalize_of_earlier (dir : Path) {stem : Path} (normal : stem.IsNormal) :
    (candidates stem).Pairwise fun p q => dir.Below p.normalize → dir.Below q.normalize := by
  refine (below_of_earlier dir normal).imp_of_mem fun {p q} hp hq later hbelow => ?_
  have hsame := (isSettled_candidates normal p hp).normalize_same
  have hsame' := (isSettled_candidates normal q hq).normalize_same
  exact (later (hbelow.congr hsame)).congr hsame'.symm

/-- A settled path that is a normal path joined with a part is normal. -/
theorem isNormal_of_join {p front : Path} {c : Component} (part : c.IsPart) (settled : p.IsSettled)
    (normal : front = ofComponents front.components) (hp : p = front.join ⟨c.text⟩) : p.IsNormal := by
  have hcs : p.components = front.components ++ [c] := hp ▸ components_join_part front part
  show ofComponents (normalComponents p.components) = p
  rw [settled, hcs, ofComponents, List.foldl_append]
  show (ofComponents front.components).join ⟨c.text⟩ = p
  rw [← normal, ← hp]

/-- A candidate is written in the normal way, but for the one with two slashes in front. -/
theorem isNormal_candidates {stem : Path} (h : stem.IsNormal) :
    ∀ p ∈ candidates stem, p.IsNormal ∨ p = ⟨"//index.ts"⟩ := by
  have settled := isSettled_candidates h
  simp only [candidates, moduleEndings, List.map_cons, List.map_nil, List.mem_cons,
    List.not_mem_nil, or_false, forall_eq_or_imp, forall_eq] at settled ⊢
  obtain ⟨-, script, declaration, index⟩ := settled
  rcases h.cases with rfl | rfl | ⟨front, c, hc, hcs, hstem⟩
  · decide +kernel
  · decide +kernel
  · have hfront : ofComponents front = ofComponents (ofComponents front).components := by
      have joined := components_join_part (ofComponents front) hc
      rw [← hstem, hcs] at joined
      rw [← (List.append_singleton_inj.mp joined).1]
    have ended : ∀ ending : String, '/' ∉ ending.toList → 3 ≤ ending.toList.length →
        IsSettled ⟨stem.text ++ ending⟩ → IsNormal ⟨stem.text ++ ending⟩ := by
      intro ending hslash hlength settled
      have hmore : (Component.name (c.text ++ ending)).IsPart :=
        isPart_name (by simp [hc.2, hslash]) (by simp; omega)
      have habs : isAbsolute ⟨c.text ++ ending⟩ = false :=
        isAbsolute_of_isPart (c := .name (c.text ++ ending)) hmore
      have htext := text_join_append (ofComponents front) (isAbsolute_of_isPart hc) habs
      rw [← hstem] at htext
      exact isNormal_of_join hmore settled hfront (congrArg Path.mk htext)
    refine ⟨.inl ?_, .inl (ended ".ts" (by decide) (by decide) script),
      .inl (ended ".d.ts" (by decide) (by decide) declaration), .inl ?_⟩
    · simpa using h
    · -- no slash stands at the end of the stem, so one is put in between
      have part : (Component.name "index.ts").IsPart := isPart_name (by decide) (by decide)
      refine isNormal_of_join part index h.eq_ofComponents ?_
      have hne := text_ne_nil_of_isPart hc
      obtain ⟨lead, hlead⟩ : ∃ lead, stem.text.toList = lead ++ c.text.toList := by
        rw [hstem, join, isAbsolute_of_isPart hc]
        simp only [Bool.false_eq_true, if_false]
        split
        · exact ⟨(ofComponents front).text.toList, by simp⟩
        · exact ⟨(ofComponents front).text.toList ++ ['/'], by simp⟩
      have hend := not_endsWith_slash hlead hne hc.2
      have hempty : stem.text ≠ "" := by
        intro hempty
        rw [hempty] at hlead
        exact hne (List.append_eq_nil_iff.mp hlead.symm).2
      rw [join, isAbsolute_of_isPart part]
      simp [hend, hempty, String.append_assoc, Component.text]

/-! ### Resolved files -/

theorem isNormal_moduleStem (h : Host) (specifier : String) (containing : Path) :
    (h.moduleStem specifier containing).IsNormal :=
  isNormal_normalize _

theorem resolve?_eq_find? (h : Host) (specifier : String) (containing : Path) :
    h.resolve? specifier containing =
      (candidates (h.moduleStem specifier containing)).find? h.cache.isFile := rfl

theorem isSettled_of_resolve? {h : Host} {specifier : String} {containing r : Path}
    (hr : h.resolve? specifier containing = some r) : r.IsSettled :=
  isSettled_candidates (h.isNormal_moduleStem specifier containing) r
    (List.mem_of_find?_eq_some hr)

/-- What a specifier is resolved to is written in the normal way, but for one path. -/
theorem isNormal_of_resolve? {h : Host} {specifier : String} {containing r : Path}
    (hr : h.resolve? specifier containing = some r) : r.IsNormal ∨ r = ⟨"//index.ts"⟩ :=
  isNormal_candidates (h.isNormal_moduleStem specifier containing) r (List.mem_of_find?_eq_some hr)

/-- Only a file is what a specifier is resolved to. -/
theorem isFile_of_resolve? {h : Host} {specifier : String} {containing r : Path}
    (hr : h.resolve? specifier containing = some r) : h.cache.isFile r = true := by
  rw [resolve?_eq_find?] at hr
  exact List.find?_some hr

theorem exists_resolve?_of_mem_importTargets {h : Host} {f : SourceFile} {r : Path}
    (hr : r ∈ h.importTargets f) : ∃ specifier, h.resolve? specifier f.path = some r := by
  obtain ⟨i, -, hi⟩ := List.mem_filterMap.mp hr
  exact ⟨i.specifier, hi⟩

theorem isSettled_of_mem_importTargets {h : Host} {f : SourceFile} {r : Path}
    (hr : r ∈ h.importTargets f) : r.IsSettled := by
  obtain ⟨specifier, resolved⟩ := exists_resolve?_of_mem_importTargets hr
  exact isSettled_of_resolve? resolved

/-! ### More files -/

/-- The host has the files of another one, and resolves to the same file what that one resolves. -/
structure Includes (h g : Host) : Prop where
  source_some : ∀ {p : Path} {f : SourceFile}, g.source p = .ok (some f) → h.source p = .ok (some f)
  resolve?_some : ∀ {specifier : String} {containing r : Path},
    g.resolve? specifier containing = some r → h.resolve? specifier containing = some r
  virtual_subset : g.virtualModules ⊆ h.virtualModules

/-- In addition, the host fails to read what the other one fails to read. -/
structure Extends (h g : Host) : Prop extends h.Includes g where
  source_error : ∀ {p : Path} {e : ReadError}, g.source p = .error e → h.source p = .error e

theorem Includes.importTargets_subset {h g : Host} (more : h.Includes g) (f : SourceFile) :
    g.importTargets f ⊆ h.importTargets f := by
  intro r hr
  obtain ⟨i, hi, hir⟩ := List.mem_filterMap.mp hr
  exact List.mem_filterMap.mpr ⟨i, hi, more.resolve?_some hir⟩

/-- What is found first is still found first among more finds, if nothing that was found comes after
a new one. -/
theorem find?_of_pairwise {α : Type} {p q : α → Bool} {l : List α}
    (later : l.Pairwise fun a b => q a = true → p b = true → p a = true)
    (old : ∀ a, p a = true → q a = true) {a : α} (h : l.find? p = some a) :
    l.find? q = some a := by
  induction l with
  | nil => cases h
  | cons b l ih =>
    obtain ⟨hb, hl⟩ := List.pairwise_cons.mp later
    rw [List.find?_cons] at h ⊢
    cases hp : p b with
    | true =>
      rw [hp] at h
      cases h
      rw [old _ hp]
    | false =>
      rw [hp] at h
      have hqb : q b = false := by
        by_contra hq
        have := hb a (List.mem_of_find?_eq_some h) (by simpa using hq) (List.find?_some h)
        simp [hp] at this
      rw [hqb]
      exact ih hl h

/-- What one host resolves another one resolves to the same file, if it has that file, and if of two
candidates the other one has no new one in front of an old one. -/
theorem resolve?_of_pairwise {h g : Host} (base : h.base = g.base)
    (old : ∀ p, g.cache.isFile p = true → h.cache.isFile p = true)
    (later : ∀ stem : Path, stem.IsNormal → (candidates stem).Pairwise fun p q =>
      h.cache.isFile p = true → g.cache.isFile q = true → g.cache.isFile p = true)
    {specifier : String} {containing r : Path} (hr : g.resolve? specifier containing = some r) :
    h.resolve? specifier containing = some r := by
  have stem_eq : h.moduleStem specifier containing = g.moduleStem specifier containing := by
    simp only [moduleStem, base]
  rw [resolve?_eq_find?] at hr ⊢
  rw [stem_eq]
  exact find?_of_pairwise (later _ (g.isNormal_moduleStem specifier containing)) old hr

/-- What is found first stays so where other things have changed only in places of some kind, if
what comes after such a place is of that kind as well, and the find is not. -/
theorem find?_of_elsewhere {α : Type} {p q : α → Bool} {D : α → Prop} {l : List α}
    (later : l.Pairwise fun a b => D a → D b) (same : ∀ a, ¬ D a → q a = p a) {a : α}
    (h : l.find? p = some a) (elsewhere : ¬ D a) : l.find? q = some a := by
  induction l with
  | nil => cases h
  | cons b l ih =>
    obtain ⟨hb, hl⟩ := List.pairwise_cons.mp later
    rw [List.find?_cons] at h ⊢
    cases hp : p b with
    | true =>
      rw [hp] at h
      cases h
      rw [same _ elsewhere, hp]
    | false =>
      rw [hp] at h
      have hnot : ¬ D b := fun hD => elsewhere (hb a (List.mem_of_find?_eq_some h) hD)
      rw [same b hnot, hp]
      exact ih hl h

/-- A specifier that stands for a file outside a directory stands for it whatever happens to the
files below the directory. -/
theorem resolve?_of_elsewhere {h g : Host} {dir : Path} (base : h.base = g.base)
    (same : ∀ p : Path, ¬ dir.Below p.normalize → h.cache.isFile p = g.cache.isFile p)
    {specifier : String} {containing r : Path} (hr : g.resolve? specifier containing = some r)
    (elsewhere : ¬ dir.Below r.normalize) : h.resolve? specifier containing = some r := by
  have stem_eq : h.moduleStem specifier containing = g.moduleStem specifier containing := by
    simp only [moduleStem, base]
  rw [resolve?_eq_find?] at hr ⊢
  rw [stem_eq]
  have normal := g.isNormal_moduleStem specifier containing
  exact find?_of_elsewhere (below_normalize_of_earlier dir normal) same hr elsewhere

/-! ### More files below a directory -/

/-- The host has the files of another one, and more of them at most below a directory that the other
one has nothing in. -/
structure ExtendsBelow (h : Host) (dir : Path) (g : Host) : Prop where
  base_eq : h.base = g.base
  serve_eq : ∀ p : Path, ¬ dir.Below p.normalize → h.cache.serve p = g.cache.serve p
  isFile_eq : ∀ p : Path, ¬ dir.Below p.normalize → h.cache.isFile p = g.cache.isFile p
  serve_below : ∀ p : Path, dir.Below p.normalize → g.cache.serve p = .error (.notFound p.normalize)
  isFile_below : ∀ p : Path, dir.Below p.normalize → g.cache.isFile p = false
  virtual_subset : g.virtualModules ⊆ h.virtualModules

variable {h g : Host} {dir : Path}

theorem ExtendsBelow.source_of_there (ext : h.ExtendsBelow dir g) {p : Path}
    (there : g.source p ≠ .ok none) : h.source p = g.source p := by
  have hp : ¬ dir.Below p.normalize := by
    intro hp
    apply there
    simp [source, SourceCache.source, ext.serve_below p hp, Except.map, orMissing,
      ReadError.isNotFound]
  simp only [source, SourceCache.source, ext.serve_eq p hp]

theorem ExtendsBelow.extends (ext : h.ExtendsBelow dir g) : h.Extends g where
  source_some := fun hp => (ext.source_of_there (by rw [hp]; nofun)).trans hp
  source_error := fun hp => (ext.source_of_there (by rw [hp]; nofun)).trans hp
  virtual_subset := ext.virtual_subset
  resolve?_some := by
    have elsewhere : ∀ p, g.cache.isFile p = true → ¬ dir.Below p.normalize := by
      intro p hp hbelow
      simp [ext.isFile_below p hbelow] at hp
    intro specifier containing r
    refine resolve?_of_pairwise ext.base_eq (fun p hp => ?_) fun stem normal => ?_
    · exact (ext.isFile_eq p (elsewhere p hp)).trans hp
    · refine (below_normalize_of_earlier dir normal).imp fun {p q} later hp hq => ?_
      have hnot : ¬ dir.Below p.normalize := fun hbelow => elsewhere q hq (later hbelow)
      exact (ext.isFile_eq p hnot).symm.trans hp

end Precompile.Host
