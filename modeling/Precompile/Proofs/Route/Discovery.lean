import Precompile.Proofs.Scanning.Reachable
import Precompile.Route.Discovery

/-!
The files that routes and imports lead to.

Over the program of a host, the walk visits exactly the files that can be reached through readable
files (`mem_reach_iff`). A host with more files below a directory visits all that the other one
visits (`Visits.mono`).
-/

namespace Precompile.Route

open Precompile.Path (Reached Explores IsSettled)

/-- The file at a path, if the host can read it. -/
def readable? (h : Host) (p : Path) : Option SourceFile :=
  match h.source p with
  | .ok found => found
  | .error _ => none

theorem readable?_eq_some_iff {h : Host} {p : Path} {f : SourceFile} :
    readable? h p = some f ↔ h.source p = .ok (some f) := by
  unfold readable?
  cases h.source p <;> simp

/-- The walk visits a readable file and goes on from there. -/
def visit (h : Host) (p : Path) : Except Empty (Option SourceFile) := .ok (readable? h p)

/-- The file is visited by the walk from a start. -/
def Visits (h : Host) (start : List Path) (f : SourceFile) : Prop :=
  ∃ p, Reached (visit h) (successors h) start p ∧ h.source p = .ok (some f)

/-- The files of a program are those that the host has at their paths. -/
def Faithful (P : Program) (h : Host) : Prop :=
  ∀ p f, P.file? p = some f → h.source p = .ok (some f)

theorem faithful_of_createProgram {roots : List Path} {options : CompilerOptions}
    {previous : Option Program} {h : Host} {P : Program}
    (hP : (Scanning.createProgram roots options previous h).1 = .ok P) : Faithful P h :=
  fun _ _ hf => Scanning.source_of_file? hP hf

theorem fileAt?_eq {P : Program} {h : Host} (faithful : Faithful P h) :
    fileAt? P h = readable? h := by
  funext p
  unfold fileAt?
  split
  next f hf => exact (readable?_eq_some_iff.mpr (faithful p f hf)).symm
  next => rfl

/-! ### Resolved routes -/

theorem mem_resolved_iff {m : RouteMap} {r : Path} :
    r ∈ m.resolved.map Prod.snd ↔ ∃ key, m.get? key = some (some r) := by
  simp only [RouteMap.resolved, List.mem_map, List.mem_filterMap, OrderedMap.get?_eq_some_iff]
  constructor
  · rintro ⟨_, ⟨⟨key, path⟩, hmem, hpath⟩, rfl⟩
    obtain ⟨q, rfl, rfl⟩ := Option.map_eq_some_iff.mp hpath
    exact ⟨key, key, hmem, rfl⟩
  · rintro ⟨_, key, hmem, rfl⟩
    exact ⟨(key, r), ⟨(key, some r), hmem, rfl⟩, rfl⟩

/-- A file that a route leads to is one that a specifier stands for. -/
theorem exists_resolve?_of_get? {h : Host} {f : SourceFile} {key : String} {r : Path}
    (hkey : (ofFile h f).get? key = some (some r)) :
    ∃ specifier, h.resolve? specifier f.path = some r := by
  obtain ⟨q, hmem, -⟩ := OrderedMap.get?_eq_some_iff.mp hkey
  -- so it is for every route that is entered, whichever of them decides over the key
  have resolved := OrderedMap.forall_mem_insertAll (m := .empty)
    (Q := fun _ (v : Option Path) => ∀ r, v = some r →
      ∃ specifier, h.resolve? specifier f.path = some r) (fun _ hv _ => hv)
    (fun e he => nomatch he) (fun e he => ?_) _ hmem
  · exact resolved r rfl
  · obtain ⟨s, -, rfl⟩ := List.mem_map.mp he
    exact fun r hr => ⟨s.reference.module, hr⟩

/-- What a file leads to is what specifiers in it stand for. -/
theorem exists_resolve?_of_mem_successors {h : Host} {f : SourceFile} {q : Path}
    (hq : q ∈ successors h f) : ∃ specifier, h.resolve? specifier f.path = some q := by
  rcases List.mem_append.mp hq with hq | hq
  · obtain ⟨key, hkey⟩ := mem_resolved_iff.mp hq
    exact exists_resolve?_of_get? hkey
  · exact Host.exists_resolve?_of_mem_importTargets hq

theorem isSettled_of_mem_successors {h : Host} {f : SourceFile} {q : Path}
    (hq : q ∈ successors h f) : q.IsSettled := by
  obtain ⟨specifier, hr⟩ := exists_resolve?_of_mem_successors hq
  exact Host.isSettled_of_resolve? hr

/-! ### The walk -/

variable {P : Program} {h : Host} {start : List Path}

theorem visit_same (h : Host) {p q : Path} (same : p.Same q) : visit h p = visit h q := by
  simp only [visit, readable?, h.source_same same]

/-- The budget of the walk leaves room for all files of the program and of the host. -/
theorem explores_fileAt? (P : Program) (h : Host) {start : List Path}
    (starts : ∀ p ∈ start, P.contains p = true ∨ p.IsSettled) :
    Explores (ε := Empty) (fun p => .ok (fileAt? P h p)) (successors h) start .empty
      ⟨reach P h start, none⟩ := by
  have leads : ∀ p f, (P.contains p = true ∨ p.IsSettled) →
      (.ok (fileAt? P h p) : Except Empty _) = .ok (some f) →
      ∀ q ∈ successors h f, P.contains q = true ∨ q.IsSettled :=
    fun _ _ _ _ q hq => .inr (isSettled_of_mem_successors hq)
  have explores := Path.explores_explore leads (P.files.size + h.cache.extent) start .empty
    starts ?_
  · have hreach : reach P h start = (Path.explore (ε := Empty) (fun p => .ok (fileAt? P h p))
        (successors h) (P.files.size + h.cache.extent) start .empty).found := rfl
    rw [hreach]
    generalize Path.explore _ (successors h) _ start .empty = explored at explores ⊢
    obtain ⟨found, failure⟩ := explored
    cases failure with
    | none => exact explores
    | some e => exact e.elim
  · intro ks apart hks
    -- what is not a file of the program is one of the host, counted under its normal path
    have inside : (ks.filter P.files.contains).length ≤ P.files.size :=
      P.files.length_le_size _ (apart.filter _) fun p hp => List.of_mem_filter hp
    have outside := h.cache.length_le_extent
      ((ks.filter fun p => !P.files.contains p).map Path.normalize) ?_ ?_
    · have parts := List.length_eq_length_filter_add P.files.contains (l := ks)
      rw [List.length_map] at outside
      omega
    · have settled : ∀ p ∈ ks.filter fun p => !P.files.contains p, p.IsSettled := by
        intro p hp
        obtain ⟨hmem, absent⟩ := List.mem_filter.mp hp
        have outside : P.contains p = false := (Bool.not_eq_true' _).mp absent
        exact (hks p hmem).1.resolve_left (by simp [outside])
      refine List.pairwise_map.mpr ((apart.filter _).imp_of_mem fun {p q} hp hq hne hsame => hne ?_)
      exact (settled p hp).normalize_same.symm.trans (hsame.trans (settled q hq).normalize_same)
    · intro p hp
      obtain ⟨k, hk, rfl⟩ := List.mem_map.mp hp
      obtain ⟨hmem, absent⟩ := List.mem_filter.mp hk
      obtain ⟨-, -, f, hf⟩ := hks k hmem
      have hsource : h.source k = .ok (some f) := by
        have hfile : P.file? k = none := by
          have := OrderedMap.get?_eq_none_iff.mpr ((Bool.not_eq_true' _).mp absent)
          simpa [OrderedMap.get?, Program.file?] using this
        have hread : fileAt? P h k = some f := Except.ok.inj hf
        rw [fileAt?, hfile] at hread
        exact readable?_eq_some_iff.mp hread
      have hserve := (Host.source_eq_some_iff.mp hsource).2
      refine ⟨Path.isNormal_normalize k, f.content, ?_⟩
      simpa only [SourceCache.serve, Path.normalize_normalize] using hserve

/-- Over the program of a host, the walk goes through readable files. -/
theorem explores_reach (faithful : Faithful P h) (settled : ∀ p ∈ start, p.IsSettled) :
    Explores (visit h) (successors h) start .empty ⟨reach P h start, none⟩ := by
  have explores := explores_fileAt? P h fun p hp => .inr (settled p hp)
  rwa [fileAt?_eq faithful] at explores

/-- Over the program of a host, the walk visits what can be reached through readable files. -/
theorem mem_reach_iff (faithful : Faithful P h) (settled : ∀ p ∈ start, p.IsSettled)
    {f : SourceFile} : f ∈ reach P h start ↔ Visits h start f := by
  have explores := explores_reach faithful settled
  constructor
  · intro hf
    obtain ⟨p, hp, hvisit⟩ := explores.reached_of_found (fun q hq => .start hq) f hf
    exact ⟨p, hp, readable?_eq_some_iff.mp (Except.ok.inj hvisit)⟩
  · rintro ⟨p, hp, hsource⟩
    have hvisit : visit h p = .ok (some f) := congrArg Except.ok (readable?_eq_some_iff.mpr hsource)
    rcases explores.found_of_reached (fun _ _ same => visit_same h same) rfl hp with
      hnone | ⟨b, hb, hfound⟩
    · cases hnone.symm.trans hvisit
    · cases hfound.symm.trans hvisit
      exact hb

/-! ### Without what was retained -/

theorem successors_unread (sound : h.cache.Sound []) : successors h.unread = successors h := by
  funext f
  simp only [successors, ofFile, Host.resolve?_unread sound, Host.importTargets_unread sound]

theorem visits_unread (sound : h.cache.Sound []) {f : SourceFile} :
    Visits h.unread start f ↔ Visits h start f := by
  have hsource : h.unread.source = h.source := funext fun p => Host.source_unread sound p
  have hvisit : visit h.unread = visit h := by
    funext p
    simp only [visit, readable?, hsource]
  simp only [Visits, hvisit, hsource, successors_unread sound]

/-! ### More files -/

variable {g : Host}

theorem successors_subset (more : h.Includes g) (f : SourceFile) :
    successors g f ⊆ successors h f := by
  intro r hr
  rcases List.mem_append.mp hr with hr | hr
  · refine List.mem_append_left _ (mem_resolved_iff.mpr ?_)
    obtain ⟨key, hkey⟩ := mem_resolved_iff.mp hr
    refine ⟨key, ?_⟩
    -- the same route decides over the key in both, so only its target is to be compared
    exact OrderedMap.get?_insertAll_related (m := .empty) (n := .empty)
      (R := fun v w => ∀ r, v = some (some r) → w = some (some r))
      (fun s : Scanned => s.reference.storageKey)
      (fun s => g.resolve? s.reference.module f.path)
      (fun s => h.resolve? s.reference.module f.path) (scan f.tokens) (fun _ _ hnone => nomatch hnone)
      (fun s _ r hr => congrArg some (more.resolve?_some (Option.some.inj hr))) key r hkey
  · exact List.mem_append_right _ (more.importTargets_subset f hr)

theorem Visits.mono (more : h.Includes g) {start' : List Path} (sub : start ⊆ start')
    {f : SourceFile} (hf : Visits g start f) : Visits h start' f := by
  obtain ⟨p, hp, hsource⟩ := hf
  refine ⟨p, ?_, more.source_some hsource⟩
  clear hsource
  induction hp with
  | start hp => exact .start (sub hp)
  | @next p q b _ hvisit hq ih =>
    have hsource := more.source_some (readable?_eq_some_iff.mp (Except.ok.inj hvisit))
    exact .next ih (congrArg Except.ok (readable?_eq_some_iff.mpr hsource))
      (successors_subset more b hq)

end Precompile.Route
