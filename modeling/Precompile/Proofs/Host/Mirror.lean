import Precompile.Proofs.Host.Handover
import Precompile.Proofs.Path.Sorted
import Precompile.Proofs.Sources.History

/-!
# What a registry has

A registry that nothing but handing on changes has the modules that were handed on last and no
others (`Host.Tracked`). This is what makes withdrawing right: handing on again turns it into the
modules held in memory then (`Host.Tracked.registry_populate`). Which these are can be told from
what was asked of the host alone (`MirrorCall.written?`).
-/

namespace Precompile

/-! ### Entries under normal keys -/

theorem PathMap.HasNormalKeys.mem_entries_iff {α : Type} {m : PathMap α} (normal : HasNormalKeys m)
    {p : Path} {v : α} : (p, v) ∈ m.entries ↔ p.IsNormal ∧ m.get? p = some v := by
  constructor
  · intro hmem
    exact ⟨normal p (OrderedMap.mem_keys.mpr ⟨v, hmem⟩),
      OrderedMap.get?_eq_some_iff.mpr ⟨p, hmem, rfl⟩⟩
  · rintro ⟨hp, found⟩
    obtain ⟨q, hmem, hkey⟩ := OrderedMap.get?_eq_some_iff.mp found
    have hq : q.IsNormal := normal q (OrderedMap.mem_keys.mpr ⟨v, hmem⟩)
    rwa [hq.eq_of_same hp hkey] at hmem

theorem OrderedMap.contains_foldl_erase {κ ρ α : Type} [LT ρ] [DecidableEq ρ] [StrictLinear ρ]
    {key : κ → ρ} (m : OrderedMap key α) (ks : List κ) (k : κ) :
    (ks.foldl (fun (m : OrderedMap key α) q => m.erase q) m).contains k = true ↔
      m.contains k = true ∧ ∀ q ∈ ks, key q ≠ key k := by
  induction ks generalizing m with
  | nil => simp
  | cons q ks ih =>
    rw [List.foldl_cons, ih, contains_erase]
    simp only [Bool.and_eq_true, Bool.not_eq_true', decide_eq_false_iff_not, List.forall_mem_cons]
    tauto

namespace Host

variable {h : Host} {r : Registry} {p : Path}

/-! ### The modules held in memory -/

/-- The modules held in memory, by their paths. -/
def modules (h : Host) : Registry where
  entries := h.virtualModules.map fun f => (f.path, f.content)
  sorted := by
    refine List.pairwise_map.mpr (List.Pairwise.filter _ ?_)
    refine List.Pairwise.filterMap _ ?_ h.cache.entries.sorted
    -- a written file keeps the path that its entry is held under
    have path : ∀ (a : Path × CacheEntry) (f : WrittenFile),
        (match a.2.origin with
          | .disk => none
          | .written emit => some (WrittenFile.mk a.1 a.2.content emit)) = some f →
        f.path = a.1 := by
      rintro ⟨q, content, origin⟩ f hf
      cases origin <;> cases hf
      rfl
    intro a b hlt f hf g hg
    rw [path a f hf, path b g hg]
    exact hlt

theorem mem_entries_modules {content : String} : (p, content) ∈ h.modules.entries ↔
    (p, ⟨content, .written false⟩) ∈ h.cache.entries.entries := by
  show (p, content) ∈ h.virtualModules.map _ ↔ _
  rw [List.mem_map]
  constructor
  · rintro ⟨⟨q, text, emit⟩, hf, heq⟩
    obtain ⟨written, virtual⟩ := List.mem_filter.mp hf
    have hemit : emit = false := by simpa using virtual
    cases heq
    rw [hemit] at written
    exact SourceCache.mem_writtenFiles_iff.mp written
  · intro hmem
    exact ⟨⟨p, content, false⟩,
      List.mem_filter.mpr ⟨SourceCache.mem_writtenFiles_iff.mpr hmem, rfl⟩, rfl⟩

theorem hasNormalKeys_modules (normal : PathMap.HasNormalKeys h.cache.entries) :
    PathMap.HasNormalKeys h.modules := by
  intro q hq
  obtain ⟨content, hmem⟩ := OrderedMap.mem_keys.mp hq
  exact normal q (OrderedMap.mem_keys.mpr ⟨_, mem_entries_modules.mp hmem⟩)

theorem contains_modules : h.modules.contains p = true ↔
    p.isAmong (h.virtualModules.map WrittenFile.path) = true := by
  rw [OrderedMap.contains_iff, Path.isAmong_iff]
  simp only [modules, List.mem_map]
  constructor
  · rintro ⟨_, ⟨f, hf, rfl⟩, same⟩
    exact ⟨f.path, ⟨f, hf, rfl⟩, same⟩
  · rintro ⟨_, ⟨f, hf, rfl⟩, same⟩
    exact ⟨_, ⟨f, hf, rfl⟩, same⟩

/-! ### Handing on to a registry that is tracked -/

/-- The registry has what was handed on last, under normal paths, and nothing else. -/
structure Tracked (h : Host) (r : Registry) : Prop where
  normal : PathMap.HasNormalKeys r
  contains_iff : ∀ p, r.contains p = true ↔ p.isAmong h.published = true

theorem tracked_ofFiles (files : FileSystem) (base : Path) : (ofFiles files base).Tracked .empty where
  normal := nofun
  contains_iff _ := Iff.rfl

/-- Tracking is about what was handed on, not about what the host serves. -/
theorem Tracked.congr {h' : Host} (tracked : h.Tracked r) (same : h'.published = h.published) :
    h'.Tracked r where
  normal := tracked.normal
  contains_iff := by
    rw [same]
    exact tracked.contains_iff

/-- What a registry has after handing on: the modules held in memory, and whatever it had that was
not handed on before. -/
theorem contains_populate (h : Host) (r : Registry) (p : Path) :
    (h.populate r).registry.contains p = true ↔
      h.modules.contains p = true ∨ r.contains p = true ∧ p.isAmong h.published = false := by
  have inserted : (h.virtualModules.foldl (fun (r : Registry) f => r.insert f.path f.content)
      r).contains p = true ↔ r.contains p = true ∨ h.modules.contains p = true := by
    have folded := OrderedMap.contains_insertAll r h.modules.entries p
    rw [OrderedMap.insertAll, modules, List.foldl_map] at folded
    rw [folded, OrderedMap.contains_iff (m := h.modules)]
    rfl
  unfold populate
  rw [OrderedMap.contains_foldl_erase, inserted]
  simp only [List.mem_filter, Bool.not_eq_true', and_imp]
  constructor
  · rintro ⟨there | there, kept⟩
    · by_cases held : h.modules.contains p = true
      · exact .inl held
      · refine .inr ⟨there, Bool.eq_false_iff.mpr fun among => ?_⟩
        -- handed on before and not held any more, so withdrawn
        obtain ⟨q, hq, same⟩ := Path.isAmong_iff.mp among
        refine kept q hq (Bool.eq_false_iff.mpr fun still => held ?_) same
        rw [← contains_modules, OrderedMap.contains_congr _ same] at still
        exact still
    · exact .inl there
  · rintro (held | ⟨there, apart⟩)
    · refine ⟨.inr held, fun q _ gone same => ?_⟩
      rw [← OrderedMap.contains_congr _ same, contains_modules, gone] at held
      cases held
    · refine ⟨.inl there, fun q hq _ same => ?_⟩
      rw [Path.isAmong_iff.mpr ⟨q, hq, same⟩] at apart
      cases apart

theorem hasNormalKeys_populate (normal : PathMap.HasNormalKeys h.cache.entries)
    (tracked : h.Tracked r) : PathMap.HasNormalKeys (h.populate r).registry := by
  refine List.foldlRecOn (motive := PathMap.HasNormalKeys) _ _ ?_ fun r hr p _ => hr.erase p
  refine List.foldlRecOn (motive := PathMap.HasNormalKeys) _ _ tracked.normal ?_
  intro r hr f hf
  have held := SourceCache.mem_writtenFiles_iff.mp (List.mem_of_mem_filter hf)
  exact hr.insert (normal f.path (OrderedMap.mem_keys.mpr ⟨_, held⟩)) f.content

/-- Handing on makes the registry the modules held in memory. -/
theorem Tracked.registry_populate (tracked : h.Tracked r)
    (normal : PathMap.HasNormalKeys h.cache.entries) : (h.populate r).registry = h.modules := by
  have keys := hasNormalKeys_populate normal tracked
  have keys' := hasNormalKeys_modules normal
  refine OrderedMap.ext_get? (fun hp hq same => hp.eq_of_same hq same)
    (fun e he => keys e.1 (OrderedMap.mem_keys.mpr ⟨e.2, he⟩))
    (fun e he => keys' e.1 (OrderedMap.mem_keys.mpr ⟨e.2, he⟩)) fun p => ?_
  cases found : h.modules.get? p with
  | some content =>
    obtain ⟨q, hmem, same⟩ := OrderedMap.get?_eq_some_iff.mp found
    obtain ⟨f, hf, heq⟩ := List.mem_map.mp hmem
    cases heq
    have registered := (handedOn_populate h r).registered f hf
    exact (OrderedMap.get?_congr _ same).symm.trans registered
  | none =>
    rw [OrderedMap.get?_eq_none_iff] at found ⊢
    refine Bool.eq_false_iff.mpr fun there => ?_
    rcases (contains_populate h r p).mp there with held | ⟨old, apart⟩
    · cases found.symm.trans held
    · cases apart.symm.trans ((tracked.contains_iff p).mp old)

theorem Tracked.populate (tracked : h.Tracked r)
    (normal : PathMap.HasNormalKeys h.cache.entries) :
    (h.populate r).host.Tracked (h.populate r).registry where
  normal := hasNormalKeys_populate normal tracked
  contains_iff p := by
    rw [tracked.registry_populate normal]
    exact contains_modules

theorem size_modules (h : Host) : h.modules.size = h.virtualModules.length := List.length_map _

end Host

/-! ### Any sequence of calls -/

/-- What is asked of a host: something of its cache, or to hand its modules on. -/
inductive MirrorCall where
  | cache (call : CacheCall)
  | populate

/-- What is written at a path after a call, with whether it is output of the build, by what was
written there before. -/
def MirrorCall.written (p : Path) (before : Option (String × Bool)) :
    MirrorCall → Option (String × Bool)
  | .cache (.write q content emit) =>
    if q.normalize = p.normalize then some (content, emit) else before
  | .cache (.invalidate q) => if q.normalize = p.normalize then none else before
  | .cache (.retire dir keep) =>
    if dir.normalize.Below p.normalize ∧ p.normalize.isAmong keep = false then none else before
  | _ => before

/-- What is written at a path after calls to a new host. -/
def MirrorCall.written? (p : Path) (calls : List MirrorCall) : Option (String × Bool) :=
  calls.foldl (MirrorCall.written p) none

namespace SourceCache

/-- The cache after a call. -/
def after (c : SourceCache) : CacheCall → SourceCache
  | .write p content emit => c.write p content emit
  | .invalidate p => c.invalidate p
  | .read p | .source p => c.retain p
  | .enableCaching => c.enableCaching
  | .retire dir keep => c.retire dir keep
  | .drain => c.clearChanged
  | .edit files => { c with files }

variable {c : SourceCache}

theorem hasNormalKeys_after (normal : PathMap.HasNormalKeys c.entries) (call : CacheCall) :
    PathMap.HasNormalKeys (c.after call).entries := by
  cases call with
  | write p content emit => exact normal.insert (Path.isNormal_normalize p) _
  | invalidate p => exact normal.erase p.normalize
  | read p => exact normal_retain normal p
  | source p => exact normal_retain normal p
  | enableCaching => exact normal
  | retire dir keep => exact normal_dropAll normal _
  | drain => exact normal
  | edit files => exact normal

/-- The texts that are held because they were written. -/
def HasWritten (c : SourceCache) (written? : Path → Option (String × Bool)) : Prop :=
  ∀ p, c.unread.entries.get? p.normalize = (written? p).map fun w => ⟨w.1, .written w.2⟩

theorem hasWritten_ofFiles (files : FileSystem) : HasWritten (.ofFiles files) fun _ => none :=
  fun _ => rfl

theorem HasWritten.get?_eq_some_iff {written? : Path → Option (String × Bool)}
    (held : c.HasWritten written?) {p : Path} {content : String} {emit : Bool} :
    c.entries.get? p.normalize = some ⟨content, .written emit⟩ ↔
      written? p = some (content, emit) := by
  have there := held p
  rw [get?_unread] at there
  constructor
  · intro found
    rw [found] at there
    obtain ⟨⟨text, output⟩, hw, heq⟩ := Option.map_eq_some_iff.mp there.symm
    cases heq
    exact hw
  · intro hw
    rw [hw] at there
    exact (Option.filter_eq_some_iff.mp there).1

theorem HasWritten.retire {written? : Path → Option (String × Bool)} (held : c.HasWritten written?)
    (dir : Path) (keep : List Path) :
    (c.retire dir keep).HasWritten fun p =>
      MirrorCall.written p (written? p) (.cache (.retire dir keep)) := by
  intro p
  have same : c.retire dir keep = c.retire dir.normalize keep := by
    simp only [SourceCache.retire, stale, Path.normalize_normalize]
  have kept : (∀ k ∈ keep, ¬ k.Same p.normalize) ↔ p.normalize.isAmong keep = false := by
    rw [Bool.eq_false_iff, ne_eq, Path.isAmong_iff]
    simp
  rw [same, get?_unread_retire c (Path.isNormal_normalize dir), held p]
  simp only [kept, MirrorCall.written]
  split <;> rfl

theorem HasWritten.after {written? : Path → Option (String × Bool)} (held : c.HasWritten written?)
    (call : CacheCall) :
    (c.after call).HasWritten fun p => MirrorCall.written p (written? p) (.cache call) := by
  cases call with
  | write q content emit =>
    intro p
    rw [SourceCache.after, get?_unread_write, held p]
    simp only [Path.same_normalize_iff, MirrorCall.written]
    split <;> rfl
  | invalidate q =>
    intro p
    have dropped := get?_unread_dropAll c [q.normalize] p.normalize
    simp only [List.mem_singleton, exists_eq_left, Path.same_normalize_iff] at dropped
    refine dropped.trans ?_
    rw [held p]
    simp only [MirrorCall.written]
    split <;> rfl
  | read q =>
    intro p
    rw [SourceCache.after, unread_retain]
    exact held p
  | source q =>
    intro p
    rw [SourceCache.after, unread_retain]
    exact held p
  | enableCaching => exact held
  | retire dir keep => exact held.retire dir keep
  | drain => exact held
  | edit files => exact held

end SourceCache

/-- A host and the registry that its modules are handed on to. -/
structure Mirror where
  host : Host
  registry : Registry

namespace Mirror

/-- A new host beside an empty registry. -/
def ofFiles (files : FileSystem) (base : Path) : Mirror := ⟨.ofFiles files base, .empty⟩

def handOn (m : Mirror) : Host.Handover := m.host.populate m.registry

def next (m : Mirror) : MirrorCall → Mirror
  | .cache call => { m with host := m.host.mapCache (·.after call) }
  | .populate => ⟨m.handOn.host, m.handOn.registry⟩

/-- What is there after calls to a new host. -/
def run (files : FileSystem) (base : Path) (calls : List MirrorCall) : Mirror :=
  calls.foldl next (ofFiles files base)

/-- What is so after every call: the registry is tracked, and the host holds what was written. -/
structure Follows (m : Mirror) (written? : Path → Option (String × Bool)) : Prop where
  tracked : m.host.Tracked m.registry
  normal : PathMap.HasNormalKeys m.host.cache.entries
  held : m.host.cache.HasWritten written?

theorem Follows.next {m : Mirror} {written? : Path → Option (String × Bool)}
    (follows : m.Follows written?) (call : MirrorCall) :
    (m.next call).Follows fun p => MirrorCall.written p (written? p) call := by
  cases call with
  | cache call =>
    exact ⟨follows.tracked.congr rfl, SourceCache.hasNormalKeys_after follows.normal call,
      follows.held.after call⟩
  | populate => exact ⟨follows.tracked.populate follows.normal, follows.normal, follows.held⟩

theorem follows_run (files : FileSystem) (base : Path) (calls : List MirrorCall) :
    (run files base calls).Follows (MirrorCall.written? · calls) := by
  have step : ∀ (calls : List MirrorCall) (m : Mirror) written?, m.Follows written? →
      (calls.foldl Mirror.next m).Follows fun p =>
        calls.foldl (MirrorCall.written p) (written? p) := by
    intro calls
    induction calls with
    | nil => exact fun _ _ follows => follows
    | cons call calls ih => exact fun m written? follows => ih _ _ (follows.next call)
  exact step calls _ _ ⟨Host.tracked_ofFiles files base, nofun, SourceCache.hasWritten_ofFiles files⟩

/-- What a registry has that modules were handed on to: those held in memory, each with its text, and
as many as were counted. -/
structure Mirrors (written? : Path → Option (String × Bool)) (handed : Host.Handover) : Prop where
  entries_eq : handed.registry.entries =
    handed.host.virtualModules.map fun f => (f.path, f.content)
  mem_entries_iff : ∀ p content, (p, content) ∈ handed.registry.entries ↔
    p.IsNormal ∧ written? p = some (content, false)
  count_eq : handed.count = handed.registry.size

/-- Whatever was asked of a new host, handing its modules on leaves in the registry exactly what is
written then and is not output of the build. -/
theorem mirrors_handOn_run (files : FileSystem) (base : Path) (calls : List MirrorCall) :
    Mirrors (MirrorCall.written? · calls) (run files base calls).handOn := by
  have follows := follows_run files base calls
  have registry_eq := follows.tracked.registry_populate follows.normal
  constructor
  · exact congrArg OrderedMap.entries registry_eq
  · intro p content
    show (p, content) ∈ ((run files base calls).host.populate _).registry.entries ↔ _
    rw [registry_eq, Host.mem_entries_modules, follows.normal.mem_entries_iff]
    refine and_congr_right fun hp => ?_
    rw [← follows.held.get?_eq_some_iff, show p.normalize = p from hp]
  · show _ = ((run files base calls).host.populate _).registry.size
    rw [registry_eq, Host.size_modules]
    rfl

end Mirror

end Precompile
