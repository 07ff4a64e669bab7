import Precompile.Proofs.Sources.Cache
import Precompile.Sources.Parsed

/-!
# What a cache answers, by its history

A history lists what was asked of a cache and what became of the files beside it, the latest first.
It determines every answer (`ParseCache.refines_run`): a path is served as it was last written, or
else as it was first read since it was last dropped, or else as the files have it. The cache
reflects its history (`SourceCache.Reflects`), and each stored parse is that of a held text
(`ParseCache.Backed`).
-/

namespace Precompile

/-- What is asked of a cache, and what happens to the files beside it. -/
inductive CacheCall where
  | write (p : Path) (content : String) (emit : Bool)
  | invalidate (p : Path)
  | read (p : Path)
  | source (p : Path)
  | enableCaching
  | retire (dir : Path) (keep : List Path)
  | drain
  | edit (files : FileSystem)

/-- What has happened. Invalidated and retired paths were dropped; a source was read as well. -/
inductive CacheEvent where
  | write (p : Path) (content : String) (emit : Bool)
  | drop (ps : List Path)
  | read (p : Path) (answer : Except ReadError String)
  | enableCaching
  | drain
  | edit (files : FileSystem)

/-- What has happened so far, the latest first. -/
abbrev CacheHistory := List CacheEvent

namespace CacheHistory

/-! ### What a history tells -/

/-- The last write to a path, unless the path was dropped after it. -/
def lastWrite? (p : Path) : CacheHistory → Option (String × Bool)
  | [] => none
  | .write q content emit :: h =>
    if q.normalize = p.normalize then some (content, emit) else lastWrite? p h
  | .drop ps :: h => if p.normalize ∈ ps then none else lastWrite? p h
  | _ :: h => lastWrite? p h

def isCaching : CacheHistory → Bool
  | [] => false
  | .enableCaching :: _ => true
  | _ :: h => isCaching h

/-- The text of the first read of a path while caching was on since the path was last dropped. -/
def firstRead? (p : Path) : CacheHistory → Option String
  | [] => none
  | .drop ps :: h => if p.normalize ∈ ps then none else firstRead? p h
  | .read q (.ok content) :: h =>
    (firstRead? p h).or
      (if q.normalize = p.normalize ∧ isCaching h = true then some content else none)
  | _ :: h => firstRead? p h

/-- The files there are now. -/
def files (start : FileSystem) : CacheHistory → FileSystem
  | [] => start
  | .edit files :: _ => files
  | _ :: h => files start h

/-- How a path is served. -/
def served (start : FileSystem) (h : CacheHistory) (p : Path) : Except ReadError String :=
  match h.lastWrite? p with
  | some (content, _) => .ok content
  | none =>
    match h.firstRead? p with
    | some content => .ok content
    | none => (h.files start).read p.normalize

/-- The paths that were written and dropped since changes were last taken away. -/
def moved : CacheHistory → List Path
  | [] => []
  | .write p _ _ :: h => p.normalize :: moved h
  | .drop ps :: h => ps ++ moved h
  | .drain :: _ => []
  | _ :: h => moved h

/-- How many paths were written and dropped. -/
def moves : CacheHistory → Nat
  | [] => 0
  | .write _ _ _ :: h => moves h + 1
  | .drop ps :: h => moves h + ps.length
  | _ :: h => moves h

end CacheHistory

namespace ParseCache

/-- What a call comes to, and the cache after it. -/
def react (c : ParseCache) : CacheCall → CacheEvent × ParseCache
  | .write p content emit => (.write p content emit, c.write p content emit)
  | .invalidate p => (.drop [p.normalize], c.invalidate p)
  | .read p => (.read p (c.read p).1, (c.read p).2)
  | .source p => (.read p ((c.source p).1.map (·.file.content)), (c.source p).2)
  | .enableCaching => (.enableCaching, c.enableCaching)
  | .retire dir keep => (.drop (c.retire dir keep).1, (c.retire dir keep).2)
  | .drain => (.drain, c.drain.2)
  | .edit files => (.edit files, c.edit files)

/-- The history and the cache after a call. -/
def next (s : CacheHistory × ParseCache) (call : CacheCall) : CacheHistory × ParseCache :=
  ((s.2.react call).1 :: s.1, (s.2.react call).2)

/-- The history and the cache after calls to a new cache. -/
def run (files : FileSystem) (calls : List CacheCall) : CacheHistory × ParseCache :=
  calls.foldl next ([], .ofFiles files)

end ParseCache

/-! ### Maps with normal keys -/

/-- All keys of a map are normal. -/
def PathMap.HasNormalKeys {α : Type} (m : PathMap α) : Prop := ∀ p ∈ m.keys, p.IsNormal

namespace PathMap.HasNormalKeys

variable {α : Type} {m : PathMap α} {p q : Path}

theorem insert (h : HasNormalKeys m) (hp : p.IsNormal) (v : α) : HasNormalKeys (m.insert p v) :=
  fun q hq => (OrderedMap.mem_keys_of_insert hq).elim (fun heq => heq ▸ hp) (h q)

theorem erase (h : HasNormalKeys m) (p : Path) : HasNormalKeys (m.erase p) :=
  fun q hq => h q (OrderedMap.mem_keys_of_erase hq)

theorem mem_keys_iff (h : HasNormalKeys m) : p ∈ m.keys ↔ p.IsNormal ∧ m.contains p = true := by
  constructor
  · intro hp
    obtain ⟨v, hmem⟩ := OrderedMap.mem_keys.mp hp
    exact ⟨h p hp, OrderedMap.contains_iff.mpr ⟨(p, v), hmem, rfl⟩⟩
  · rintro ⟨hnormal, hp⟩
    obtain ⟨q, hq, hkey⟩ := OrderedMap.exists_mem_keys hp
    rwa [(h q hq).eq_of_same hnormal hkey] at hq

theorem mem_keys_insert (h : HasNormalKeys m) (hp : p.IsNormal) (v : α) :
    q ∈ (m.insert p v).keys ↔ q = p ∨ q ∈ m.keys := by
  rw [(h.insert hp v).mem_keys_iff, h.mem_keys_iff, OrderedMap.contains_insert, Bool.or_eq_true,
    decide_eq_true_eq]
  constructor
  · rintro ⟨hq, hsame | hold⟩
    · exact .inl (hq.eq_of_same hp hsame.symm)
    · exact .inr ⟨hq, hold⟩
  · rintro (rfl | ⟨hq, hold⟩)
    · exact ⟨hp, .inl rfl⟩
    · exact ⟨hq, .inr hold⟩

end PathMap.HasNormalKeys

namespace SourceCache

variable {start : FileSystem} {h : CacheHistory} {c : SourceCache} {p q : Path}

/-! ### What is held after a call -/

theorem normal_dropAll (normal : PathMap.HasNormalKeys c.entries) (ps : List Path) :
    PathMap.HasNormalKeys (ps.foldl drop c).entries := by
  apply List.foldlRecOn (motive := fun c => PathMap.HasNormalKeys c.entries) ps drop normal
  intro c normal p _
  exact normal.erase p

theorem marked_dropAll (marked : PathMap.HasNormalKeys c.changed) {ps : List Path}
    (normal : ∀ p ∈ ps, p.IsNormal) : PathMap.HasNormalKeys (ps.foldl drop c).changed := by
  apply List.foldlRecOn (motive := fun c => PathMap.HasNormalKeys c.changed) ps drop marked
  intro c marked p hp
  exact marked.insert (normal p hp) ()

/-- Every path that is dropped is noted as changed. -/
theorem mem_changedPaths_dropAll (marked : PathMap.HasNormalKeys c.changed) {ps : List Path}
    (normal : ∀ p ∈ ps, p.IsNormal) :
    q ∈ (ps.foldl drop c).changedPaths ↔ q ∈ ps ∨ q ∈ c.changedPaths := by
  rw [changedPaths, changedPaths, (marked_dropAll marked normal).mem_keys_iff, marked.mem_keys_iff,
    contains_changed_dropAll]
  constructor
  · rintro ⟨hq, dropped | before⟩
    · exact .inl ((hq.exists_same_iff normal).mp dropped)
    · exact .inr ⟨hq, before⟩
  · rintro (dropped | ⟨hq, before⟩)
    · exact ⟨normal q dropped, .inl ⟨q, dropped, rfl⟩⟩
    · exact ⟨hq, .inr before⟩

theorem normal_retain (normal : PathMap.HasNormalKeys c.entries) (p : Path) :
    PathMap.HasNormalKeys (c.retain p).entries := by
  unfold retain
  split
  · split
    · exact normal.insert (Path.isNormal_normalize p) _
    · exact normal
  · exact normal

/-! ### Reflecting a history -/

end SourceCache

/-- What is held at a path after a history. -/
def CacheHistory.held? (h : CacheHistory) (p : Path) : Option CacheEntry :=
  match h.lastWrite? p with
  | some (content, emit) => some ⟨content, .written emit⟩
  | none => (h.firstRead? p).map fun content => ⟨content, .disk⟩

theorem CacheHistory.firstRead?_read (h : CacheHistory) (p : Path)
    (answer : Except ReadError String) (q : Path) :
    CacheHistory.firstRead? q (.read p answer :: h) = (h.firstRead? q).or
      (if p.normalize = q.normalize ∧ h.isCaching = true then answer.toOption else none) := by
  cases answer with
  | ok content => rfl
  | error e => simp [CacheHistory.firstRead?, Except.toOption]

namespace SourceCache

/-- A cache that is as its history tells. -/
structure Reflects (start : FileSystem) (h : CacheHistory) (c : SourceCache) : Prop where
  files : c.files = h.files start
  caching : c.caching = h.isCaching
  held : ∀ p, c.entries.get? p.normalize = h.held? p
  normal : PathMap.HasNormalKeys c.entries
  marked : PathMap.HasNormalKeys c.changed
  changed : ∀ p, p ∈ c.changedPaths ↔ p ∈ h.moved
  revision : c.revision = h.moves

namespace Reflects

theorem ofFiles (start : FileSystem) : Reflects start [] (.ofFiles start) where
  files := rfl
  caching := rfl
  held := fun _ => rfl
  normal := nofun
  marked := nofun
  changed := fun _ => Iff.rfl
  revision := rfl

theorem serve_eq (r : Reflects start h c) (p : Path) : c.serve p = h.served start p := by
  unfold serve CacheHistory.served
  rw [r.held, CacheHistory.held?, r.files]
  cases h.lastWrite? p with
  | some write => rfl
  | none => cases h.firstRead? p <;> rfl

theorem write (r : Reflects start h c) (p : Path) (content : String) (emit : Bool) :
    Reflects start (.write p content emit :: h) (c.write p content emit) where
  files := r.files
  caching := r.caching
  held := by
    intro q
    rw [get?_write, CacheHistory.held?, CacheHistory.lastWrite?]
    simp only [Path.same_normalize_iff]
    by_cases hq : p.normalize = q.normalize
    · simp only [if_pos hq]
    · simp only [if_neg hq]
      exact r.held q
  normal := r.normal.insert (Path.isNormal_normalize p) _
  marked := r.marked.insert (Path.isNormal_normalize p) _
  changed := by
    intro q
    have keys := r.marked.mem_keys_insert (q := q) (Path.isNormal_normalize p) ()
    rw [CacheHistory.moved, List.mem_cons, ← r.changed]
    exact keys
  revision := congrArg (· + 1) r.revision

theorem dropAll (r : Reflects start h c) {ps : List Path} (normal : ∀ p ∈ ps, p.IsNormal) :
    Reflects start (.drop ps :: h) (ps.foldl drop c) where
  files := (c.dropAll_frame ps).1.trans r.files
  caching := (c.dropAll_frame ps).2.1.trans r.caching
  held := by
    intro q
    simp only [get?_dropAll, (Path.isNormal_normalize q).exists_same_iff normal,
      CacheHistory.held?, CacheHistory.lastWrite?, CacheHistory.firstRead?]
    by_cases hq : q.normalize ∈ ps
    · simp only [if_pos hq, Option.map_none]
    · simp only [if_neg hq]
      exact r.held q
  normal := normal_dropAll r.normal ps
  marked := marked_dropAll r.marked normal
  changed := by
    intro q
    rw [mem_changedPaths_dropAll r.marked normal, r.changed, CacheHistory.moved, List.mem_append]
  revision := by
    rw [(c.dropAll_frame ps).2.2, r.revision, CacheHistory.moves]

/-- Reading retains a text only where none is held, and it is the first one that is read there. -/
theorem read (r : Reflects start h c) (p : Path) :
    Reflects start (.read p (c.serve p) :: h) (c.retain p) where
  files := (files_retain c p).trans r.files
  caching := (caching_retain c p).trans r.caching
  held := by
    intro q
    have hheld := r.held q
    have hread := h.firstRead?_read p (c.serve p) q
    unfold CacheHistory.held? at hheld ⊢
    rw [hread]
    show _ = match h.lastWrite? q with
      | some (content, emit) => some _
      | none => _
    cases hentry : c.entries.get? q.normalize with
    | some e =>
      rw [get?_retain_of_some hentry p]
      cases hwrite : h.lastWrite? q with
      | some write =>
        rw [hwrite, hentry] at hheld
        exact hheld
      | none =>
        rw [hwrite, hentry] at hheld
        obtain ⟨content, hfirst, rfl⟩ := Option.map_eq_some_iff.mp hheld.symm
        simp [hfirst]
    | none =>
      rw [get?_retain_of_none hentry p]
      cases hwrite : h.lastWrite? q with
      | some write => simp [hwrite, hentry] at hheld
      | none =>
        rw [hwrite, hentry] at hheld
        rw [Option.map_eq_none_iff.mp hheld.symm, Option.none_or, ← r.caching]
        by_cases hboth : p.normalize = q.normalize ∧ c.caching = true
        · -- nothing is held at this path, so it is served as the files have it
          have hserve : c.serve p = c.files.read q.normalize := by
            unfold serve
            rw [hboth.1, hentry]
          rw [if_pos hboth, if_pos hboth, hserve]
        · rw [if_neg hboth, if_neg hboth]
          rfl
  normal := normal_retain r.normal p
  marked := by
    rw [changed_retain]
    exact r.marked
  changed := by
    intro q
    rw [changedPaths, changed_retain]
    exact r.changed q
  revision := (revision_retain c p).trans r.revision

theorem enableCaching (r : Reflects start h c) :
    Reflects start (.enableCaching :: h) c.enableCaching where
  files := r.files
  caching := rfl
  held := r.held
  normal := r.normal
  marked := r.marked
  changed := r.changed
  revision := r.revision

theorem drain (r : Reflects start h c) : Reflects start (.drain :: h) c.clearChanged where
  files := r.files
  caching := r.caching
  held := r.held
  normal := r.normal
  marked := nofun
  changed := fun _ => Iff.rfl
  revision := r.revision

theorem edit (r : Reflects start h c) (files : FileSystem) :
    Reflects start (.edit files :: h) { c with files } where
  files := rfl
  caching := r.caching
  held := r.held
  normal := r.normal
  marked := r.marked
  changed := r.changed
  revision := r.revision

theorem isWritten_iff (r : Reflects start h c) (p : Path) :
    ((c.entries.get? p.normalize).filter CacheEntry.isWritten).isSome = true ↔
      (h.lastWrite? p).isSome = true := by
  rw [r.held, CacheHistory.held?]
  cases h.lastWrite? p with
  | some write => simp [Option.filter, CacheEntry.isWritten]
  | none => cases h.firstRead? p <;> simp [Option.filter, CacheEntry.isWritten]

/-- What is retired was written last, lies strictly below the directory and is not to be kept. -/
theorem mem_stale_iff (r : Reflects start h c) {dir : Path} {keep : List Path} :
    p ∈ c.stale dir keep ↔ p.IsNormal ∧ (h.lastWrite? p).isSome = true ∧
      dir.normalize.Below p ∧ p.isAmong keep = false := by
  have normal : PathMap.HasNormalKeys c.unread.entries := by
    intro q hq
    obtain ⟨e, hmem⟩ := OrderedMap.mem_keys.mp hq
    have hold : (q, e) ∈ c.entries.entries := List.mem_of_mem_filter hmem
    exact r.normal q (OrderedMap.mem_keys.mpr ⟨e, hold⟩)
  rw [stale, List.mem_filter, mem_writtenBelow, normal.mem_keys_iff,
    OrderedMap.contains_eq_isSome_get?, get?_unread, Bool.not_eq_true', and_assoc, and_assoc]
  refine and_congr_right fun hp => and_congr_left fun _ => ?_
  rw [← r.isWritten_iff, show p.normalize = p from hp]

theorem isNormal_of_mem_stale (r : Reflects start h c) {dir : Path} {keep : List Path} :
    ∀ p ∈ c.stale dir keep, p.IsNormal := fun _ hp => (r.mem_stale_iff.mp hp).1

end Reflects

end SourceCache

namespace ParseCache

variable {start : FileSystem} {h : CacheHistory} {c : ParseCache}

/-! ### Stored parses -/

/-- Each stored parse is that of a text that is held. -/
def Backed (c : ParseCache) : Prop :=
  ∀ (p : Path) (parsed : ParsedFile), c.parses.get? p.normalize = some parsed →
    ∃ e, c.cache.entries.get? p.normalize = some e ∧ parsed = .parse p.normalize e.content

theorem backed_ofFiles (files : FileSystem) : Backed (.ofFiles files) := nofun

/-- A source is what the text that is served is parsed to, whether a parse is stored or not. -/
theorem Backed.source_eq (backed : Backed c) (p : Path) :
    (c.source p).1 = (c.cache.serve p).map (ParsedFile.parse p.normalize) := by
  unfold source
  cases hparse : c.parses.get? p.normalize with
  | some parsed =>
    obtain ⟨e, held, rfl⟩ := backed p parsed hparse
    simp [SourceCache.serve, held, Except.map]
  | none =>
    simp only [read]
    cases c.cache.serve p <;> rfl

/-- The file of a source is the one that a cache without parses has. -/
theorem Backed.file_source (backed : Backed c) (p : Path) :
    (c.source p).1.map ParsedFile.file = c.cache.source p := by
  rw [backed.source_eq, SourceCache.source]
  cases c.cache.serve p <;> rfl

theorem cache_store (c : ParseCache) (p : Path) (parsed : ParsedFile) :
    (c.store p parsed).cache = c.cache := by
  unfold store
  split <;> rfl

/-- Asking for a source retains what reading would retain. -/
theorem Backed.cache_source (backed : Backed c) (p : Path) :
    (c.source p).2.cache = c.cache.retain p := by
  unfold source
  cases hparse : c.parses.get? p.normalize with
  | some parsed =>
    obtain ⟨e, held, -⟩ := backed p parsed hparse
    exact (SourceCache.retain_of_some held).symm
  | none =>
    simp only [read]
    cases c.cache.serve p with
    | error e => rfl
    | ok content => exact cache_store _ _ _

theorem Backed.write (backed : Backed c) (p : Path) (content : String) (emit : Bool) :
    Backed (c.write p content emit) := by
  intro q parsed hq
  have hparses : (c.parses.erase p.normalize).get? q.normalize = some parsed := hq
  rw [OrderedMap.get?_erase] at hparses
  split at hparses
  · cases hparses
  next apart =>
    obtain ⟨e, held, hparsed⟩ := backed q parsed hparses
    refine ⟨e, ?_, hparsed⟩
    show (c.cache.write p content emit).entries.get? q.normalize = some e
    rw [SourceCache.get?_write, if_neg (show ¬ p.normalize.Same q.normalize from apart), held]

theorem Backed.drop (backed : Backed c) (p : Path) : Backed (c.drop p) := by
  intro q parsed hq
  have hparses : (c.parses.erase p).get? q.normalize = some parsed := hq
  rw [OrderedMap.get?_erase] at hparses
  split at hparses
  · cases hparses
  next apart =>
    obtain ⟨e, held, hparsed⟩ := backed q parsed hparses
    refine ⟨e, ?_, hparsed⟩
    show (c.cache.entries.erase p).get? q.normalize = some e
    rw [OrderedMap.get?_erase, if_neg apart, held]

theorem Backed.dropAll (backed : Backed c) (ps : List Path) :
    Backed (ps.foldl ParseCache.drop c) ∧
      (ps.foldl ParseCache.drop c).cache = ps.foldl SourceCache.drop c.cache := by
  induction ps generalizing c with
  | nil => exact ⟨backed, rfl⟩
  | cons p ps ih => exact ih (backed.drop p)

theorem Backed.read (backed : Backed c) (p : Path) : Backed (c.read p).2 := by
  intro q parsed hq
  obtain ⟨e, held, hparsed⟩ := backed q parsed hq
  exact ⟨e, SourceCache.get?_retain_of_some held p, hparsed⟩

/-- A parse is stored beside the text that it is the parse of. -/
theorem Backed.store (backed : Backed c) {p : Path} {content : String}
    (served : c.cache.serve p = .ok content) :
    Backed (c.store p.normalize (.parse p.normalize content)) := by
  unfold ParseCache.store
  split
  next hstores =>
    intro q parsed hq
    have hparses : (c.parses.insert p.normalize (.parse p.normalize content)).get? q.normalize =
      some parsed := hq
    rw [OrderedMap.get?_insert] at hparses
    split at hparses
    next hsame =>
      have hpq := Path.same_normalize_iff.mp hsame
      rw [Bool.and_eq_true, OrderedMap.contains_eq_isSome_get?] at hstores
      obtain ⟨e, held⟩ := Option.isSome_iff_exists.mp hstores.2
      rw [SourceCache.serve, held] at served
      cases served
      cases hparses
      exact ⟨e, hpq ▸ held, by rw [hpq]⟩
    next => exact backed q parsed hparses
  next => exact backed

theorem Backed.source (backed : Backed c) (p : Path) : Backed (c.source p).2 := by
  unfold ParseCache.source
  cases hparse : c.parses.get? p.normalize with
  | some parsed => exact backed
  | none =>
    have after := backed.read p
    have served : (c.read p).2.cache.serve p = (c.read p).1 := c.cache.serve_retain p p
    simp only
    split
    next e _ hread =>
      rw [hread] at after
      exact after
    next content _ hread =>
      rw [hread] at after served
      exact after.store served

/-! ### Any sequence of calls -/

/-- A cache as its history tells, with the parses of what it holds. -/
structure Follows (start : FileSystem) (s : CacheHistory × ParseCache) : Prop where
  reflects : s.2.cache.Reflects start s.1
  backed : s.2.Backed

theorem Follows.next {s : CacheHistory × ParseCache} (follows : Follows start s)
    (call : CacheCall) : Follows start (next s call) := by
  obtain ⟨h, c⟩ := s
  obtain ⟨reflects, backed⟩ := follows
  cases call with
  | write p content emit =>
    exact ⟨reflects.write p content emit, backed.write p content emit⟩
  | invalidate p =>
    refine ⟨?_, backed.drop p.normalize⟩
    exact reflects.dropAll (by simpa using Path.isNormal_normalize p)
  | read p => exact ⟨reflects.read p, backed.read p⟩
  | source p =>
    refine ⟨?_, backed.source p⟩
    have answer : (c.source p).1.map (·.file.content) = c.cache.serve p := by
      rw [backed.source_eq]
      cases c.cache.serve p <;> rfl
    show (c.source p).2.cache.Reflects start (.read p ((c.source p).1.map _) :: h)
    rw [answer, backed.cache_source]
    exact reflects.read p
  | enableCaching => exact ⟨reflects.enableCaching, backed⟩
  | retire dir keep =>
    obtain ⟨backed', hcache⟩ := backed.dropAll (c.cache.stale dir keep)
    refine ⟨?_, backed'⟩
    show (List.foldl ParseCache.drop c _).cache.Reflects start _
    rw [hcache]
    exact reflects.dropAll reflects.isNormal_of_mem_stale
  | drain => exact ⟨reflects.drain, backed⟩
  | edit files => exact ⟨reflects.edit files, backed⟩

theorem follows_run (files : FileSystem) (calls : List CacheCall) :
    Follows files (run files calls) := by
  have step : ∀ (calls : List CacheCall) s, Follows files s →
      Follows files (calls.foldl next s) := by
    intro calls
    induction calls with
    | nil => exact fun _ follows => follows
    | cons call calls ih => exact fun s follows => ih _ (follows.next call)
  exact step calls _ ⟨.ofFiles files, backed_ofFiles files⟩

/-- The cache answers as its history tells, in whatever spelling it is asked. -/
structure Refines (start : FileSystem) (h : CacheHistory) (c : ParseCache) : Prop where
  read : ∀ p q, q.normalize = p.normalize → (c.read q).1 = h.served start p
  source : ∀ p q, q.normalize = p.normalize →
    (c.source q).1 = (h.served start p).map (ParsedFile.parse p.normalize)
  sorted : c.cache.changedPaths.Pairwise fun p q => p.components < q.components
  changed : ∀ p, p ∈ c.cache.changedPaths ↔ p ∈ h.moved
  revision : c.cache.revision = h.moves
  retired : ∀ dir keep p, p ∈ (c.retire dir keep).1 ↔ p.IsNormal ∧
    (h.lastWrite? p).isSome = true ∧ dir.normalize.Below p ∧ p.isAmong keep = false
  -- Reading and the start of caching change nothing that is told of.
  quiet : ∀ c', (∃ p, c' = (c.read p).2 ∨ c' = (c.source p).2) ∨ c' = c.enableCaching →
    c'.cache.changed = c.cache.changed ∧ c'.cache.revision = c.cache.revision

/-- Whatever is asked of a new cache, and whatever becomes of the files meanwhile, it refines its
history. -/
theorem refines_run (files : FileSystem) (calls : List CacheCall) :
    Refines files (run files calls).1 (run files calls).2 := by
  obtain ⟨reflects, backed⟩ := follows_run files calls
  have served : ∀ p q, q.normalize = p.normalize →
      (run files calls).2.cache.serve q = (run files calls).1.served files p := by
    intro p q same
    rw [← reflects.serve_eq p]
    simp only [SourceCache.serve, same]
  constructor
  · exact served
  · intro p q same
    rw [backed.source_eq, served p q same, same]
  · exact List.pairwise_map.mpr (run files calls).2.cache.changed.sorted
  · exact reflects.changed
  · exact reflects.revision
  · exact fun dir keep p => reflects.mem_stale_iff
  · rintro c' (⟨p, rfl | rfl⟩ | rfl)
    · exact ⟨SourceCache.changed_retain _ p, SourceCache.revision_retain _ p⟩
    · rw [backed.cache_source]
      exact ⟨SourceCache.changed_retain _ p, SourceCache.revision_retain _ p⟩
    · exact ⟨rfl, rfl⟩

end ParseCache

end Precompile
