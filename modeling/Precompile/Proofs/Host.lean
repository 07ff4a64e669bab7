import Precompile.Host.Basic
import Precompile.Proofs.Sources.Cache

/-!
What a host answers about files and modules.

All answers are about what its cache serves, so a host with a sound cache answers as it would if
nothing had been retained.
-/

namespace Precompile.Host

/-- The host as it would be if its cache had retained nothing that it read, and nothing had been
handed on. -/
def unread (h : Host) : Host := ⟨h.cache.unread, h.base, []⟩

/-- The spelling of a path does not matter. -/
theorem source_same (h : Host) {p q : Path} (same : p.Same q) : h.source p = h.source q := by
  have hnormal := Path.Same.normalize_eq same
  simp only [source, SourceCache.source, SourceCache.serve, hnormal]

theorem source_normalize (h : Host) (p : Path) : h.source p.normalize = h.source p := by
  simp only [source, SourceCache.source, SourceCache.serve, Path.normalize_normalize]

theorem source_eq_some_iff {h : Host} {p : Path} {f : SourceFile} :
    h.source p = .ok (some f) ↔ f.path = p.normalize ∧ h.cache.serve p = .ok f.content := by
  unfold source SourceCache.source
  cases hserve : h.cache.serve p with
  | error e =>
    simp only [Except.map, orMissing]
    split <;> simp
  | ok content =>
    simp only [Except.map, orMissing, Except.ok.injEq, Option.some.injEq]
    constructor
    · rintro rfl
      exact ⟨rfl, rfl⟩
    · rintro ⟨hpath, rfl⟩
      rw [← hpath]

theorem read_eq_some_iff {h : Host} {p : Path} {content : String} :
    h.read p = .ok (some content) ↔ h.cache.serve p = .ok content := by
  unfold read
  cases h.cache.serve p with
  | error e =>
    simp only [orMissing]
    split <;> simp
  | ok served => simp [orMissing]

/-! ### Reading on the way -/

theorem source_retainAll (h : Host) (ps : List Path) : (h.retainAll ps).source = h.source := by
  induction ps generalizing h with
  | nil => rfl
  | cons p ps ih =>
    refine (ih (h.mapCache (·.retain p))).trans (funext fun q => ?_)
    simp only [source, SourceCache.source, mapCache, SourceCache.serve_retain]

theorem resolve?_retainAll (h : Host) (ps : List Path) : (h.retainAll ps).resolve? = h.resolve? := by
  induction ps generalizing h with
  | nil => rfl
  | cons p ps ih =>
    refine (ih (h.mapCache (·.retain p))).trans (funext fun specifier => funext fun containing => ?_)
    have files : (h.cache.retain p).isFile = h.cache.isFile :=
      funext fun q => h.cache.isFile_retain p q
    simp only [resolve?, moduleStem, mapCache, files]

theorem importTargets_retainAll (h : Host) (ps : List Path) :
    (h.retainAll ps).importTargets = h.importTargets := by
  funext f
  simp only [importTargets, resolve?_retainAll]

/-! ### Without what was retained -/

variable {h : Host}

theorem source_unread (sound : h.cache.Sound []) (p : Path) : h.unread.source p = h.source p := by
  simp only [source, SourceCache.source, unread, SourceCache.serve_unread sound]

theorem resolve?_unread (sound : h.cache.Sound []) (specifier : String) (containing : Path) :
    h.unread.resolve? specifier containing = h.resolve? specifier containing := by
  have files : h.unread.cache.isFile = h.cache.isFile :=
    funext fun p => SourceCache.isFile_unread sound p
  simp only [resolve?, moduleStem, files, show h.unread.base = h.base from rfl]

theorem importTargets_unread (sound : h.cache.Sound []) (f : SourceFile) :
    h.unread.importTargets f = h.importTargets f := by
  simp only [importTargets, resolve?_unread sound]

theorem virtualModules_unread (h : Host) : h.unread.virtualModules = h.virtualModules := by
  simp only [virtualModules, unread, SourceCache.writtenFiles_unread]

/-! ### Using a host -/

/-- What may be done with a host on the way from one state to another: files are read, written,
invalidated and retired. -/
inductive Uses (h : Host) : Host → Prop where
  | refl : Uses h h
  | read {h' : Host} (p : Path) : Uses h h' → Uses h (h'.mapCache (·.retain p))
  | write {h' : Host} (p : Path) (content : String) (emit : Bool) :
      Uses h h' → Uses h (h'.mapCache (·.write p content emit))
  | invalidate {h' : Host} (p : Path) : Uses h h' → Uses h (h'.mapCache (·.invalidate p))
  | retire {h' : Host} (dir : Path) (keep : List Path) :
      Uses h h' → Uses h (h'.mapCache (·.retire dir keep))

theorem Uses.trans {h h' h'' : Host} (first : Uses h h') (second : Uses h' h'') : Uses h h'' := by
  induction second with
  | refl => exact first
  | read p _ ih => exact ih.read p
  | write p content emit _ ih => exact ih.write p content emit
  | invalidate p _ ih => exact ih.invalidate p
  | retire dir keep _ ih => exact ih.retire dir keep

/-- What is kept by one read is kept by any number of them. -/
theorem retainAll_induction {Q : Host → Prop} (read : ∀ h p, Q h → Q (h.mapCache (·.retain p)))
    (ps : List Path) {h : Host} (start : Q h) : Q (h.retainAll ps) := by
  induction ps generalizing h with
  | nil => exact start
  | cons p ps ih => exact ih (read h p start)

theorem uses_retainAll (h : Host) (ps : List Path) : h.Uses (h.retainAll ps) :=
  retainAll_induction (fun _ p use => use.read p) ps .refl

/-- What holds of a cache and is kept by each elementary step is kept by every use of the host. -/
theorem Uses.cache_induction {Q : SourceCache → Prop} {h h' : Host} (use : h.Uses h')
    (retain : ∀ c p, Q c → Q (c.retain p))
    (write : ∀ c p content emit, Q c → Q (c.write p content emit))
    (drop : ∀ c p, Q c → Q (c.drop p)) (start : Q h.cache) : Q h'.cache := by
  induction use with
  | refl => exact start
  | read p _ ih => exact retain _ p ih
  | write p content emit _ ih => exact write _ p content emit ih
  | invalidate p _ ih => exact drop _ p.normalize ih
  | retire dir keep _ ih =>
    apply List.foldlRecOn _ _ ih
    intro c hc p _
    exact drop c p hc

theorem Uses.base_eq {h h' : Host} (use : h.Uses h') : h'.base = h.base := by
  induction use with
  | refl => rfl
  | read _ _ ih => exact ih
  | write _ _ _ _ ih => exact ih
  | invalidate _ _ ih => exact ih
  | retire _ _ _ ih => exact ih

theorem Uses.published_eq {h h' : Host} (use : h.Uses h') : h'.published = h.published := by
  induction use with
  | refl => rfl
  | read _ _ ih => exact ih
  | write _ _ _ _ ih => exact ih
  | invalidate _ _ ih => exact ih
  | retire _ _ _ ih => exact ih

theorem Uses.sound {edited : List Path} {h h' : Host} (use : h.Uses h')
    (sound : h.cache.Sound edited) : h'.cache.Sound edited :=
  use.cache_induction (fun _ p hc => hc.retain p) (fun _ p content emit hc => hc.write p content emit)
    (fun _ p hc => hc.drop p) sound

theorem Uses.files_eq {h h' : Host} (use : h.Uses h') : h'.cache.files = h.cache.files := by
  refine use.cache_induction (Q := fun c => c.files = h.cache.files) (fun c p hc => ?_)
    (fun _ _ _ _ hc => hc) (fun _ _ hc => hc) rfl
  exact (SourceCache.files_retain c p).trans hc

/-- A host that differs from another one in nothing but what its cache holds. -/
structure Over (h g : Host) : Prop where
  base_eq : h.base = g.base
  published_eq : h.published = g.published
  files_eq : h.cache.files = g.cache.files

theorem Over.symm {h g : Host} (above : h.Over g) : g.Over h :=
  ⟨above.base_eq.symm, above.published_eq.symm, above.files_eq.symm⟩

theorem Over.trans {h g k : Host} (first : h.Over g) (second : g.Over k) : h.Over k where
  base_eq := first.base_eq.trans second.base_eq
  published_eq := first.published_eq.trans second.published_eq
  files_eq := first.files_eq.trans second.files_eq

theorem over_of_uses {h h' : Host} (use : h.Uses h') : h'.Over h :=
  ⟨use.base_eq, use.published_eq, use.files_eq⟩

/-- Such hosts are told apart by what their caches hold. -/
theorem Over.eq_of_data {h g : Host} (above : h.Over g) (data : h.cache.data = g.cache.data) :
    h = g := by
  have cache : h.cache = g.cache := SourceCache.eq_of_data above.files_eq data
  obtain ⟨_, _, _⟩ := h
  cases cache
  cases above.base_eq
  cases above.published_eq
  rfl

/-- No change is forgotten by using a host. -/
theorem Uses.changed {h h' : Host} (use : h.Uses h') {p : Path}
    (changed : h.cache.changed.contains p = true) : h'.cache.changed.contains p = true := by
  refine use.cache_induction (Q := fun c => c.changed.contains p = true) (fun c q hc => ?_)
    (fun c q _ _ hc => ?_) (fun c q hc => ?_) changed
  · rwa [SourceCache.changed_retain]
  · exact OrderedSet.contains_insert_of_contains hc q.normalize
  · exact OrderedSet.contains_insert_of_contains hc q

/-- The revision never falls, and as long as it stays the same nothing was written or dropped. -/
theorem Uses.revision {h h' : Host} (use : h.Uses h') :
    h.cache.revision ≤ h'.cache.revision ∧
      (h'.cache.revision = h.cache.revision → h'.cache.unread = h.cache.unread) := by
  refine use.cache_induction (Q := fun c => h.cache.revision ≤ c.revision ∧
    (c.revision = h.cache.revision → c.unread = h.cache.unread)) (fun c p hc => ?_)
    (fun c p content emit hc => ?_) (fun c p hc => ?_) ⟨Nat.le_refl _, fun _ => rfl⟩
  · rwa [SourceCache.revision_retain, SourceCache.unread_retain]
  · have moved : (c.write p content emit).revision = c.revision + 1 := rfl
    exact ⟨by omega, fun same => by omega⟩
  · have moved : (c.drop p).revision = c.revision + 1 := rfl
    exact ⟨by omega, fun same => by omega⟩

theorem unread_retainAll (h : Host) (ps : List Path) : (h.retainAll ps).unread = h.unread := by
  simp only [unread, retainAll, mapCache, SourceCache.unread_retainAll]

theorem retainAll_retainAll (h : Host) (ps qs : List Path) :
    (h.retainAll ps).retainAll qs = h.retainAll (ps ++ qs) := by
  simp only [retainAll, mapCache, SourceCache.retainAll, List.foldl_append]

theorem read_retainAll (h : Host) (ps : List Path) : (h.retainAll ps).read = h.read := by
  refine retainAll_induction (Q := fun g => g.read = h.read) (fun g p same => ?_) ps rfl
  rw [← same]
  funext q
  simp only [read, mapCache, SourceCache.serve_retain]

theorem revision_retainAll (h : Host) (ps : List Path) :
    (h.retainAll ps).cache.revision = h.cache.revision :=
  retainAll_induction (Q := fun g => g.cache.revision = h.cache.revision)
    (fun g p same => (g.cache.revision_retain p).trans same) ps rfl

theorem changed_retainAll (h : Host) (ps : List Path) :
    (h.retainAll ps).cache.changed = h.cache.changed :=
  retainAll_induction (Q := fun g => g.cache.changed = h.cache.changed)
    (fun g p same => (g.cache.changed_retain p).trans same) ps rfl

theorem writtenFiles_retainAll (h : Host) (ps : List Path) :
    (h.retainAll ps).cache.writtenFiles = h.cache.writtenFiles :=
  SourceCache.writtenFiles_of_unread_eq (SourceCache.unread_retainAll h.cache ps)

theorem virtualModules_retainAll (h : Host) (ps : List Path) :
    (h.retainAll ps).virtualModules = h.virtualModules := by
  simp only [virtualModules, writtenFiles_retainAll]

end Precompile.Host
