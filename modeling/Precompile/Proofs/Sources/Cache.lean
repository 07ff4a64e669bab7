import Precompile.Proofs.Files
import Precompile.Proofs.Path.Below
import Precompile.Sources.Cache

/-!
What a cache serves, and when it serves what the file system has.

A cache is sound when each text that it retained is still what the file system has, unless its path
was edited since (`SourceCache.Sound`). Such a cache serves what it would serve if it had retained
nothing (`SourceCache.serve_unread`).
-/

namespace Precompile.SourceCache

/-- The cache as it would be if it had retained nothing that it read. -/
def unread (c : SourceCache) : SourceCache :=
  { ofFiles c.files with entries := c.entries.filter fun _ e => e.isWritten }

/-- What a cache holds next to its files, as data that can be compared. -/
def data (c : SourceCache) : PathMap CacheEntry × PathSet × Bool × Nat :=
  (c.entries, c.changed, c.caching, c.revision)

theorem eq_of_data {c d : SourceCache} (files : c.files = d.files) (data : c.data = d.data) :
    c = d := by
  cases c
  cases d
  simp_all [SourceCache.data]

/-- Texts are held under normal paths, and those that were read are still those of the file system,
but for some edited paths. -/
structure Sound (edited : List Path) (c : SourceCache) : Prop where
  normal : ∀ a ∈ c.entries.entries, a.1.IsNormal
  current : ∀ a ∈ c.entries.entries, a.2.isWritten = false →
    a.1 ∈ edited.map Path.normalize ∨ c.files.read a.1 = .ok a.2.content

/-! ### Keeping a cache sound -/

theorem sound_ofFiles (files : FileSystem) : Sound [] (ofFiles files) where
  normal := by simp [ofFiles, OrderedMap.empty]
  current := by simp [ofFiles, OrderedMap.empty]

variable {edited : List Path} {c : SourceCache}

theorem Sound.congr {c' : SourceCache} (h : Sound edited c) (files : c'.files = c.files)
    (entries : c'.entries = c.entries) : Sound edited c' where
  normal := entries ▸ h.normal
  current := by rw [files, entries]; exact h.current

theorem Sound.enableCaching (h : Sound edited c) : Sound edited c.enableCaching := h.congr rfl rfl

theorem Sound.clearChanged (h : Sound edited c) : Sound edited c.clearChanged := h.congr rfl rfl

theorem Sound.filter (h : Sound edited c) (p : Path → CacheEntry → Bool) :
    Sound edited { c with entries := c.entries.filter p } where
  normal := fun a ha => h.normal a (List.mem_of_mem_filter ha)
  current := fun a ha => h.current a (List.mem_of_mem_filter ha)

theorem Sound.insert (h : Sound edited c) (p : Path) (e : CacheEntry)
    (current : e.isWritten = false → c.files.read p.normalize = .ok e.content) :
    Sound edited { c with entries := c.entries.insert p.normalize e } := by
  -- an entry keeps the spelling of its key, which is the normal path already
  have split : ∀ a ∈ (c.entries.insert p.normalize e).entries,
      a ∈ c.entries.entries ∨ a = (p.normalize, e) := by
    intro a ha
    rcases OrderedMap.mem_insertEntry ha with ha | ha | ⟨b, hb, hkey, ha⟩
    · exact .inl ha
    · exact .inr ha
    · have hb' : b.1 = p.normalize := (h.normal b hb).eq_of_same (Path.isNormal_normalize p) hkey
      exact .inr (hb' ▸ ha)
  constructor
  · intro a ha
    rcases split a ha with ha | rfl
    · exact h.normal a ha
    · exact Path.isNormal_normalize p
  · intro a ha hw
    rcases split a ha with ha | rfl
    · exact h.current a ha hw
    · exact .inr (current hw)

theorem Sound.retain (h : Sound edited c) (p : Path) : Sound edited (c.retain p) := by
  unfold SourceCache.retain
  split
  · split
    next content hread => exact h.insert p ⟨content, .disk⟩ fun _ => hread
    · exact h
  · exact h

theorem Sound.retainAll (h : Sound edited c) (ps : List Path) : Sound edited (c.retainAll ps) := by
  unfold SourceCache.retainAll
  induction ps generalizing c with
  | nil => exact h
  | cons p ps ih => exact ih (h.retain p)

theorem Sound.write (h : Sound edited c) (p : Path) (content : String) (emit : Bool) :
    Sound edited (c.write p content emit) :=
  (h.insert p ⟨content, .written emit⟩ fun hw => by cases hw).congr rfl rfl

theorem Sound.drop (h : Sound edited c) (p : Path) : Sound edited (c.drop p) :=
  (h.filter fun q _ => !decide (q.components = p.components)).congr rfl rfl

theorem Sound.retire (h : Sound edited c) (dir : Path) (keep : List Path) :
    Sound edited (c.retire dir keep) := by
  unfold SourceCache.retire
  induction c.stale dir keep generalizing c with
  | nil => exact h
  | cons p ps ih => exact ih (h.drop p)

/-- An edited path that is invalidated need not be counted any more. -/
theorem Sound.invalidate (h : Sound edited c) (p : Path) :
    Sound (edited.filter fun q => q.normalize ≠ p.normalize) (c.invalidate p) where
  normal := (h.drop p.normalize).normal
  current := by
    intro a ha hw
    obtain ⟨ha, hkey⟩ := List.mem_filter.mp ha
    rcases h.current a ha hw with hedited | hread
    · obtain ⟨q, hq, heq⟩ := List.mem_map.mp hedited
      -- had it been an edit of this path, the entry would have been dropped
      have hne : q.normalize ≠ p.normalize := by
        intro hsame
        simp [← heq, hsame] at hkey
      exact .inl (List.mem_map.mpr ⟨q, List.mem_filter.mpr ⟨hq, decide_eq_true hne⟩, heq⟩)
    · exact .inr hread

/-- Once every edited path was invalidated, none has to be counted. -/
theorem Sound.invalidate_all (ps : List Path) (h : Sound edited c)
    (all : ∀ q ∈ edited, ∃ p ∈ ps, p.normalize = q.normalize) :
    Sound [] (ps.foldl SourceCache.invalidate c) := by
  induction ps generalizing edited c with
  | nil =>
    have hnone : edited = [] := List.eq_nil_iff_forall_not_mem.mpr fun q hq => by
      obtain ⟨p, hp, -⟩ := all q hq
      cases hp
    subst hnone
    exact h
  | cons p ps ih =>
    refine ih (h.invalidate p) fun q hq => ?_
    obtain ⟨hq, hne⟩ := List.mem_filter.mp hq
    obtain ⟨r, hr, heq⟩ := all q hq
    rcases List.mem_cons.mp hr with rfl | hr
    · exact absurd heq.symm (of_decide_eq_true hne)
    · exact ⟨r, hr, heq⟩

/-- After an edit the path has to be counted. -/
theorem Sound.edit {p : Path} {files : FileSystem} (h : Sound edited c)
    (edit : FileSystem.EditedAt p c.files files) :
    Sound (p :: edited) { c with files } where
  normal := h.normal
  current := by
    intro a ha hw
    rcases h.current a ha hw with hedited | hread
    · exact .inl (List.mem_cons_of_mem _ hedited)
    -- the edit touches one path only, which is counted from now on
    · by_cases heq : a.1 = p.normalize
      · exact .inl (heq ▸ List.mem_cons_self)
      · exact .inr (edit a.1 _ (h.normal a ha) heq hread)

/-! ### What holds of all entries -/

section Entries

variable {Q : CacheEntry → Prop}

theorem forall_mem_insert (h : ∀ a ∈ c.entries.entries, Q a.2) (p : Path) {e : CacheEntry}
    (he : Q e) : ∀ a ∈ (c.entries.insert p e).entries, Q a.2 := by
  intro a ha
  rcases OrderedMap.mem_insertEntry ha with ha | rfl | ⟨b, -, -, rfl⟩
  · exact h a ha
  · exact he
  · exact he

/-- What holds of all that is held and of all that can be read is kept by reading. -/
theorem forall_mem_retainAll (h : ∀ a ∈ c.entries.entries, Q a.2)
    (disk : ∀ content, Q ⟨content, .disk⟩) (ps : List Path) :
    ∀ a ∈ (c.retainAll ps).entries.entries, Q a.2 := by
  unfold SourceCache.retainAll
  induction ps generalizing c with
  | nil => exact h
  | cons p ps ih =>
    refine ih ?_
    unfold SourceCache.retain
    split
    · split
      · exact forall_mem_insert h p.normalize (disk _)
      · exact h
    · exact h

/-- Invalidating is dropping at normal paths. -/
theorem foldl_invalidate (c : SourceCache) (ps : List Path) :
    ps.foldl SourceCache.invalidate c = (ps.map Path.normalize).foldl drop c := by
  rw [List.foldl_map]
  rfl

theorem forall_mem_dropAll (h : ∀ a ∈ c.entries.entries, Q a.2) (ps : List Path) :
    ∀ a ∈ (ps.foldl drop c).entries.entries, Q a.2 := by
  induction ps generalizing c with
  | nil => exact h
  | cons p ps ih => exact ih fun a ha => h a (List.mem_of_mem_filter ha)

end Entries

/-! ### Nothing written -/

/-- All that is held was read. -/
def Unwritten (c : SourceCache) : Prop := ∀ a ∈ c.entries.entries, a.2.isWritten = false

theorem Unwritten.retainAll (h : Unwritten c) (ps : List Path) : Unwritten (c.retainAll ps) :=
  forall_mem_retainAll (Q := fun e => e.isWritten = false) h (fun _ => rfl) ps

theorem Unwritten.invalidate_all (h : Unwritten c) (ps : List Path) :
    Unwritten (ps.foldl SourceCache.invalidate c) := by
  rw [foldl_invalidate]
  exact forall_mem_dropAll (Q := fun e => e.isWritten = false) h _

/-- Where nothing was written, only the file system counts. -/
theorem Unwritten.unread_eq (h : Unwritten c) : c.unread = ofFiles c.files := by
  have hnone : (c.entries.filter fun _ e => e.isWritten) = .empty := by
    refine OrderedMap.ext (List.filter_eq_nil_iff.mpr fun a ha => ?_)
    simp [h a ha]
  unfold unread
  rw [hnone]
  rfl

/-! ### Nothing for output -/

/-- No written file is output of the build. -/
def Virtual (c : SourceCache) : Prop := ∀ a ∈ c.entries.entries, a.2.origin ≠ .written true

theorem Virtual.retainAll (h : Virtual c) (ps : List Path) : Virtual (c.retainAll ps) :=
  forall_mem_retainAll (Q := fun e => e.origin ≠ .written true) h (fun _ => nofun) ps

theorem Virtual.retain (h : Virtual c) (p : Path) : Virtual (c.retain p) := h.retainAll [p]

theorem Virtual.write (h : Virtual c) (p : Path) (content : String) :
    Virtual (c.write p content false) :=
  forall_mem_insert (Q := fun e => e.origin ≠ .written true) h p.normalize nofun

theorem Virtual.invalidate_all (h : Virtual c) (ps : List Path) :
    Virtual (ps.foldl SourceCache.invalidate c) := by
  rw [foldl_invalidate]
  exact forall_mem_dropAll (Q := fun e => e.origin ≠ .written true) h _

theorem Virtual.retire (h : Virtual c) (dir : Path) (keep : List Path) :
    Virtual (c.retire dir keep) :=
  forall_mem_dropAll (Q := fun e => e.origin ≠ .written true) h _

/-! ### What reading leaves as it is -/

/-- Reading does no more than retain a text. -/
theorem retain_eq (c : SourceCache) (p : Path) :
    ∃ entries, c.retain p = { c with entries } := by
  unfold SourceCache.retain
  split
  · split
    · exact ⟨_, rfl⟩
    · exact ⟨_, rfl⟩
  · exact ⟨_, rfl⟩

@[simp] theorem files_retain (c : SourceCache) (p : Path) : (c.retain p).files = c.files := by
  obtain ⟨entries, h⟩ := c.retain_eq p
  rw [h]

@[simp] theorem files_retainAll (c : SourceCache) (ps : List Path) :
    (c.retainAll ps).files = c.files := by
  unfold retainAll
  induction ps generalizing c with
  | nil => rfl
  | cons q ps ih => rw [List.foldl_cons, ih, files_retain]

@[simp] theorem changed_retain (c : SourceCache) (p : Path) :
    (c.retain p).changed = c.changed := by
  obtain ⟨entries, h⟩ := c.retain_eq p
  rw [h]

@[simp] theorem revision_retain (c : SourceCache) (p : Path) :
    (c.retain p).revision = c.revision := by
  obtain ⟨entries, h⟩ := c.retain_eq p
  rw [h]

@[simp] theorem caching_retain (c : SourceCache) (p : Path) : (c.retain p).caching = c.caching := by
  obtain ⟨entries, h⟩ := c.retain_eq p
  rw [h]

/-! ### What is held after a step -/

variable {p : Path}

theorem get?_write (c : SourceCache) (p : Path) (content : String) (emit : Bool) (q : Path) :
    (c.write p content emit).entries.get? q =
      if p.normalize.Same q then some ⟨content, .written emit⟩ else c.entries.get? q :=
  c.entries.get?_insert p.normalize _ q

/-- Nothing is held any more where something was dropped, and nothing else has changed. -/
theorem get?_dropAll (c : SourceCache) (ps : List Path) (q : Path) :
    (ps.foldl drop c).entries.get? q =
      if ∃ p ∈ ps, p.Same q then none else c.entries.get? q := by
  induction ps generalizing c with
  | nil => simp
  | cons p ps ih =>
    have hdrop : (c.drop p).entries.get? q = if p.Same q then none else c.entries.get? q :=
      c.entries.get?_erase p q
    rw [List.foldl_cons, ih, hdrop]
    by_cases hp : p.Same q
    · simp [hp]
    · simp [hp]

/-- Whatever is dropped is noted as changed. -/
theorem contains_changed_dropAll (c : SourceCache) (ps : List Path) (q : Path) :
    (ps.foldl drop c).changed.contains q = true ↔
      (∃ p ∈ ps, p.Same q) ∨ c.changed.contains q = true := by
  induction ps generalizing c with
  | nil => simp
  | cons p ps ih =>
    have hdrop : (c.drop p).changed.contains q = (decide (p.Same q) || c.changed.contains q) :=
      OrderedSet.contains_insert c.changed p q
    rw [List.foldl_cons, ih, hdrop, Bool.or_eq_true, decide_eq_true_eq, List.exists_mem_cons_iff]
    exact or_left_comm.trans or_assoc.symm

/-- What dropping leaves alone, and what it counts. -/
theorem dropAll_frame (c : SourceCache) (ps : List Path) :
    (ps.foldl drop c).files = c.files ∧ (ps.foldl drop c).caching = c.caching ∧
      (ps.foldl drop c).revision = c.revision + ps.length := by
  induction ps generalizing c with
  | nil => exact ⟨rfl, rfl, rfl⟩
  | cons p ps ih =>
    obtain ⟨files, caching, revision⟩ := ih (c.drop p)
    refine ⟨files, caching, ?_⟩
    rw [List.foldl_cons, revision, List.length_cons]
    show c.revision + 1 + ps.length = _
    omega

theorem retain_of_some {e : CacheEntry} (held : c.entries.get? p.normalize = some e) :
    c.retain p = c := by
  unfold SourceCache.retain
  rw [OrderedMap.contains_of_get? held]
  simp

/-- A text that is held stays as it is when paths are read. -/
theorem get?_retain_of_some {e : CacheEntry} (held : c.entries.get? p.normalize = some e)
    (q : Path) : (c.retain q).entries.get? p.normalize = some e := by
  unfold SourceCache.retain
  split
  next hcaching =>
    split
    · rw [OrderedMap.get?_insert, if_neg, held]
      intro hsame
      -- at this very path nothing would be retained
      rw [Path.same_normalize_iff.mp hsame] at hcaching
      simp [OrderedMap.contains_of_get? held] at hcaching
    · exact held
  next => exact held

/-- A text that is not held is retained if it can be read and caching is on. -/
theorem get?_retain_of_none (missing : c.entries.get? p.normalize = none) (q : Path) :
    (c.retain q).entries.get? p.normalize =
      if q.normalize = p.normalize ∧ c.caching = true then
        (c.files.read p.normalize).toOption.map fun content => ⟨content, .disk⟩
      else none := by
  by_cases hsame : q.normalize = p.normalize
  · have absent : c.entries.contains p.normalize = false := OrderedMap.get?_eq_none_iff.mp missing
    unfold SourceCache.retain
    rw [hsame, absent]
    cases hcaching : c.caching with
    | false => simpa using missing
    | true =>
      cases c.files.read p.normalize with
      | error e => simpa [Except.toOption] using missing
      | ok content => simp [Except.toOption]
  · rw [if_neg fun both => hsame both.1]
    unfold SourceCache.retain
    split
    · have apart : q.normalize.components ≠ p.normalize.components :=
        fun h => hsame (Path.same_normalize_iff.mp h)
      split
      · rw [OrderedMap.get?_insert, if_neg apart, missing]
      · exact missing
    · exact missing

/-- What is served is not changed by reading. -/
theorem serve_retain (c : SourceCache) (q p : Path) : (c.retain q).serve p = c.serve p := by
  unfold serve
  cases hentry : c.entries.get? p.normalize with
  | some e => rw [get?_retain_of_some hentry]
  | none =>
    -- what is retained is what the files have at the path
    rw [get?_retain_of_none hentry, files_retain]
    by_cases hread : q.normalize = p.normalize ∧ c.caching = true
    · rw [if_pos hread]
      cases c.files.read p.normalize <;> rfl
    · rw [if_neg hread]

theorem serve_retainAll (c : SourceCache) (ps : List Path) (p : Path) :
    (c.retainAll ps).serve p = c.serve p := by
  unfold retainAll
  induction ps generalizing c with
  | nil => rfl
  | cons q ps ih => rw [List.foldl_cons, ih, serve_retain]

/-- What is served is a file. -/
theorem isFile_of_serve {c : SourceCache} {p : Path} {content : String}
    (hserve : c.serve p = .ok content) : c.isFile p = true := by
  unfold serve at hserve
  unfold isFile
  rw [OrderedMap.contains_eq_isSome_get?]
  cases held : c.entries.get? p.normalize with
  | some e => rfl
  | none =>
    rw [held] at hserve
    simpa using FileSystem.isFile_of_read hserve

/-- Only what is a file is retained. -/
theorem isFile_retain (c : SourceCache) (q p : Path) : (c.retain q).isFile p = c.isFile p := by
  unfold SourceCache.retain
  split
  · split
    next content hread =>
      unfold isFile
      rw [OrderedMap.contains_insert]
      by_cases hsame : q.normalize.components = p.normalize.components
      · have hq : q.normalize = p.normalize :=
          (Path.isNormal_normalize q).eq_of_same (Path.isNormal_normalize p) hsame
        have hfile := FileSystem.isFile_of_read hread
        simp [← hq, hfile]
      · rw [decide_eq_false hsame, Bool.false_or]
    next => rfl
  · rfl

/-! ### What is served -/

theorem mem_of_get? (h : Sound edited c) {p : Path} {e : CacheEntry}
    (he : c.entries.get? p.normalize = some e) : (p.normalize, e) ∈ c.entries.entries := by
  obtain ⟨q, hq, hkey⟩ := OrderedMap.get?_eq_some_iff.mp he
  rwa [← (h.normal _ hq).eq_of_same (Path.isNormal_normalize p) hkey]

theorem get?_unread (c : SourceCache) (p : Path) :
    c.unread.entries.get? p = (c.entries.get? p).filter CacheEntry.isWritten :=
  OrderedMap.get?_filter c.entries (fun _ e => e.isWritten) p fun _ _ _ => rfl

/-- Reading does not write. -/
@[simp] theorem unread_retain (c : SourceCache) (p : Path) : (c.retain p).unread = c.unread := by
  have keep : ∀ content, c.entries.contains p.normalize = false →
      ({ c with entries := c.entries.insert p.normalize ⟨content, .disk⟩ } : SourceCache).unread =
        c.unread := by
    intro content absent
    have hfilter := OrderedMap.filter_insert_of_absent (m := c.entries) (v := ⟨content, .disk⟩)
      (p := fun _ (e : CacheEntry) => e.isWritten) rfl absent
    simp only [unread, hfilter]
  unfold SourceCache.retain
  split
  next hcaching =>
    have absent : c.entries.contains p.normalize = false := by
      simp only [Bool.and_eq_true, Bool.not_eq_true'] at hcaching
      exact hcaching.2
    split
    · exact keep _ absent
    · rfl
  · rfl

@[simp] theorem unread_retainAll (c : SourceCache) (ps : List Path) :
    (c.retainAll ps).unread = c.unread := by
  unfold SourceCache.retainAll
  induction ps generalizing c with
  | nil => rfl
  | cons p ps ih => rw [List.foldl_cons, ih, unread_retain]

/-- A written text is found at its path, and elsewhere nothing has changed. -/
theorem get?_unread_write (c : SourceCache) (p : Path) (content : String) (emit : Bool) (q : Path) :
    (c.write p content emit).unread.entries.get? q =
      if p.normalize.Same q then some ⟨content, .written emit⟩ else c.unread.entries.get? q := by
  rw [get?_unread, get?_unread, get?_write]
  split <;> rfl

/-- Nothing that was dropped is found any more, and nothing else has changed. -/
theorem get?_unread_dropAll (c : SourceCache) (ps : List Path) (q : Path) :
    (ps.foldl drop c).unread.entries.get? q =
      if ∃ p ∈ ps, p.Same q then none else c.unread.entries.get? q := by
  rw [get?_unread, get?_unread, get?_dropAll]
  split <;> rfl

theorem mem_writtenBelow {c : SourceCache} {dir p : Path} :
    p ∈ c.writtenBelow dir ↔ p ∈ c.unread.entries.keys ∧ dir.Below p :=
  MemoryFiles.mem_below

theorem mem_stale {c : SourceCache} {dir : Path} (normal : dir.IsNormal) {keep : List Path}
    {p : Path} : p ∈ c.stale dir keep ↔
      p ∈ c.unread.entries.keys ∧ dir.Below p ∧ ∀ k ∈ keep, ¬ k.Same p := by
  have hdir : dir.normalize = dir := normal
  simp [stale, hdir, mem_writtenBelow, Path.isAmong, and_assoc]

/-- What was written below a directory and is not kept is retired, and nothing else has changed. -/
theorem get?_unread_retire (c : SourceCache) {dir : Path} (normal : dir.IsNormal)
    (keep : List Path) (q : Path) :
    (c.retire dir keep).unread.entries.get? q =
      if dir.Below q ∧ ∀ k ∈ keep, ¬ k.Same q then none else c.unread.entries.get? q := by
  unfold retire
  rw [get?_unread_dropAll]
  by_cases hq : dir.Below q ∧ ∀ k ∈ keep, ¬ k.Same q
  · rw [if_pos hq]
    split
    · rfl
    next hnone =>
      by_contra hsome
      obtain ⟨e, he⟩ := Option.ne_none_iff_exists'.mp hsome
      obtain ⟨p, hp, hsame⟩ := OrderedMap.exists_mem_keys (OrderedMap.contains_of_get? he)
      have hsame' : p.Same q := hsame
      refine hnone ⟨p, (mem_stale normal).mpr ⟨hp, hq.1.congr hsame'.symm, fun k hk hkp => ?_⟩, hsame'⟩
      exact hq.2 k hk (hkp.trans hsame')
  · rw [if_neg hq, if_neg]
    rintro ⟨p, hp, hsame⟩
    obtain ⟨-, hbelow, hkeep⟩ := (mem_stale normal).mp hp
    exact hq ⟨hbelow.congr hsame, fun k hk hkq => hkeep k hk (hkq.trans hsame.symm)⟩

theorem mem_writtenFiles_iff {c : SourceCache} {f : WrittenFile} :
    f ∈ c.writtenFiles ↔ (f.path, ⟨f.content, .written f.emit⟩) ∈ c.entries.entries := by
  unfold writtenFiles
  rw [List.mem_filterMap]
  constructor
  · rintro ⟨⟨q, content, origin⟩, he, hf⟩
    cases origin with
    | disk => cases hf
    | written emit =>
      cases hf
      exact he
  · intro he
    exact ⟨_, he, rfl⟩

/-- The paths of the written files are those at which a written text is found. -/
theorem isSome_get?_unread_iff {c : SourceCache} {p : Path} :
    (c.unread.entries.get? p).isSome = true ↔ ∃ f ∈ c.writtenFiles, f.path.Same p := by
  rw [← OrderedMap.contains_eq_isSome_get?, OrderedMap.contains_iff]
  simp only [unread, OrderedMap.filter, List.mem_filter, writtenFiles, List.mem_filterMap]
  constructor
  · rintro ⟨⟨q, e⟩, ⟨hmem, hwritten⟩, hkey⟩
    cases horigin : e.origin with
    | disk => simp [CacheEntry.isWritten, horigin] at hwritten
    | written emit => exact ⟨⟨q, e.content, emit⟩, ⟨(q, e), hmem, by simp [horigin]⟩, hkey⟩
  · rintro ⟨f, ⟨⟨q, e⟩, hmem, hf⟩, hsame⟩
    dsimp only at hf
    cases horigin : e.origin with
    | disk => simp [horigin] at hf
    | written emit =>
      rw [horigin] at hf
      cases hf
      exact ⟨(q, e), ⟨hmem, by simp [CacheEntry.isWritten, horigin]⟩, hsame⟩

@[simp] theorem files_unread (c : SourceCache) : c.unread.files = c.files := rfl

/-- A sound cache serves what it would serve if it had retained nothing. -/
theorem serve_unread (h : Sound [] c) (p : Path) : c.unread.serve p = c.serve p := by
  simp only [serve, get?_unread]
  cases he : c.entries.get? p.normalize with
  | none => rfl
  | some e =>
    cases hw : e.isWritten with
    | true => simp [Option.filter, hw]
    | false =>
      have hread := (h.current _ (mem_of_get? h he) hw).resolve_left (by simp)
      simpa [Option.filter, hw] using hread

theorem isFile_unread (h : Sound [] c) (p : Path) : c.unread.isFile p = c.isFile p := by
  simp only [isFile, OrderedMap.contains_eq_isSome_get?, get?_unread]
  cases he : c.entries.get? p.normalize with
  | none => rfl
  | some e =>
    cases hw : e.isWritten with
    | true => simp [Option.filter, hw]
    | false =>
      have hread := (h.current _ (mem_of_get? h he) hw).resolve_left (by simp)
      simpa [Option.filter, hw] using FileSystem.isFile_of_read hread

theorem writtenFiles_unread (c : SourceCache) : c.unread.writtenFiles = c.writtenFiles := by
  show (c.entries.entries.filter fun a => a.2.isWritten).filterMap _ = c.entries.entries.filterMap _
  induction c.entries.entries with
  | nil => rfl
  | cons a es ih =>
    rw [List.filter_cons]
    cases ho : a.2.origin with
    | disk => simp [CacheEntry.isWritten, ho, ← ih]
    | written emit => simp [CacheEntry.isWritten, ho, ← ih]

theorem writtenFiles_of_unread_eq {c' : SourceCache} (same : c.unread = c'.unread) :
    c.writtenFiles = c'.writtenFiles := by
  rw [← writtenFiles_unread, same, writtenFiles_unread]

/-- The files are those that were written and those of the file system. -/
theorem isFile_iff (h : Sound [] c) {p : Path} : c.isFile p = true ↔
    (∃ w ∈ c.writtenFiles, w.path.Same p.normalize) ∨ c.files.isFile p.normalize = true := by
  rw [← isFile_unread h, isFile, Bool.or_eq_true, files_unread, OrderedMap.contains_eq_isSome_get?,
    isSome_get?_unread_iff]

/-- A cache holds and reads no more different texts than its extent tells. -/
theorem length_le_extent (c : SourceCache) (ps : List Path)
    (apart : ps.Pairwise fun p q => ¬ p.Same q)
    (served : ∀ p ∈ ps, p.IsNormal ∧ ∃ content, c.serve p = .ok content) :
    ps.length ≤ c.extent := by
  have held : (ps.filter c.entries.contains).length ≤ c.entries.size :=
    c.entries.length_le_size _ (apart.filter _) fun p hp => List.of_mem_filter hp
  have read : (ps.filter fun p => !c.entries.contains p).length ≤ c.files.extent := by
    refine c.files.length_le_extent _ (apart.filter _) fun p hp => ?_
    obtain ⟨hp, hnone⟩ := List.mem_filter.mp hp
    obtain ⟨hnormal, content, hserve⟩ := served p hp
    have hget : c.entries.get? p.normalize = none := by
      rw [hnormal, OrderedMap.get?_eq_none_iff]
      simpa using hnone
    rw [serve, hget, hnormal] at hserve
    exact ⟨hnormal, content, hserve⟩
  have parts := List.length_eq_length_filter_add c.entries.contains (l := ps)
  have total := Path.length_le_totalLength c.entries.keys
  simp only [OrderedMap.size, OrderedMap.keys, List.length_map] at held total
  simp only [extent, OrderedMap.keys]
  omega

end Precompile.SourceCache
