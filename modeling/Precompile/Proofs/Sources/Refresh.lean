import Mathlib.Data.List.Induction
import Precompile.Proofs.Sources.Cache
import Precompile.Proofs.Sources.Snapshot

/-!
# Bringing a cache back in step

Snapshots of the same listed paths tell, once the files have changed, what became of each path
(`ChangeSet.Tells`): it was created, modified, deleted or left as it was, and only one of these. A
cache that held texts of the earlier files serves those of the later ones as soon as the dirty paths
were invalidated (`SourceCache.refreshed`).
-/

namespace Precompile

/-! ### What the files answer -/

namespace FileSystem

/-- The text at a path, if it can be read. -/
def textAt? (files : FileSystem) (p : Path) : Option String := (files.read p).toOption

/-- Whoever reads the path is told that there is no file. -/
def Missing (files : FileSystem) (p : Path) : Prop := ∃ q, files.read p = .error (.notFound q)

/-- Paths with one normal form are answered alike. -/
structure AnswersAlike (files : FileSystem) : Prop where
  text : ∀ {p q : Path}, p.normalize = q.normalize → files.textAt? p = files.textAt? q
  missing : ∀ {p q : Path}, p.normalize = q.normalize → (files.Missing p ↔ files.Missing q)

theorem textAt?_eq_some_iff {files : FileSystem} {p : Path} {content : String} :
    files.textAt? p = some content ↔ files.read p = .ok content := by
  unfold textAt?
  cases files.read p <;> simp [Except.toOption]

end FileSystem

/-- Files in memory answer alike if none is held back. -/
theorem MemoryFiles.answersAlike {m : MemoryFiles} (none_held : m.heldBack = .empty) :
    FileSystem.AnswersAlike (.memory m) := by
  have found : ∀ {p content}, m.files.get? p.normalize = some content → m.read p = .ok content := by
    intro p content there
    rw [MemoryFiles.read, none_held, there]
    rfl
  have missing : ∀ {p}, m.files.get? p.normalize = none → m.read p = .error (.notFound p) := by
    intro p gone
    rw [MemoryFiles.read, none_held, gone]
    rfl
  constructor
  · intro p q same
    show (m.read p).toOption = (m.read q).toOption
    cases there : m.files.get? q.normalize with
    | some content => rw [found there, found (same ▸ there)]
    | none => rw [missing there, missing (same ▸ there)]; rfl
  · intro p q same
    show (∃ r, m.read p = .error (.notFound r)) ↔ ∃ r, m.read q = .error (.notFound r)
    cases there : m.files.get? q.normalize with
    | some content => simp [found there, found (same ▸ there)]
    | none => simp [missing there, missing (same ▸ there)]

/-! ### The first spelling of a path -/

namespace Path

variable {ps : List Path} {p q : Path}

/-- The path is listed, and before all other spellings of it. -/
def IsFirstIn (ps : List Path) (p : Path) : Prop :=
  ps.find? (fun q => decide (q.Same p)) = some p

theorem find?_same_congr (same : p.Same q) :
    (ps.find? fun r => decide (r.Same p)) = ps.find? fun r => decide (r.Same q) := by
  have alike : (fun r : Path => decide (r.Same p)) = fun r => decide (r.Same q) :=
    funext fun r => decide_eq_decide.mpr ⟨fun h => h.trans same, fun h => h.trans same.symm⟩
  rw [alike]

theorem IsFirstIn.mem (first : IsFirstIn ps p) : p ∈ ps := List.mem_of_find?_eq_some first

theorem IsFirstIn.eq_of_same (hp : IsFirstIn ps p) (hq : IsFirstIn ps q) (same : p.Same q) :
    p = q := by
  unfold IsFirstIn at hp
  rw [find?_same_congr same] at hp
  exact Option.some.inj (hp.symm.trans hq)

theorem exists_isFirstIn (listed : p ∈ ps) : ∃ q, IsFirstIn ps q ∧ q.Same p := by
  have found : (ps.find? fun q => decide (q.Same p)).isSome = true := by
    rw [List.find?_isSome]
    exact ⟨p, listed, decide_eq_true rfl⟩
  obtain ⟨q, hq⟩ := Option.isSome_iff_exists.mp found
  have same : q.Same p := by simpa using List.find?_some hq
  refine ⟨q, ?_, same⟩
  rwa [find?_same_congr same.symm] at hq

theorem isFirstIn_concat_iff :
    IsFirstIn (ps ++ [q]) p ↔ IsFirstIn ps p ∨ p = q ∧ ∀ r ∈ ps, ¬ r.Same q := by
  unfold IsFirstIn
  rw [List.find?_append]
  cases found : ps.find? (fun r => decide (r.Same p)) with
  | some r =>
    have hr : r ∈ ps ∧ r.Same p :=
      ⟨List.mem_of_find?_eq_some found, by simpa using List.find?_some found⟩
    simp only [Option.some_or]
    refine ⟨.inl, fun h => h.resolve_right ?_⟩
    rintro ⟨rfl, apart⟩
    exact apart r hr.1 hr.2
  | none =>
    have apart : ∀ r ∈ ps, ¬ r.Same p := by simpa using found
    simp only [Option.none_or, reduceCtorEq, false_or]
    constructor
    · intro h
      have hq : p = q := by simpa using (List.mem_of_find?_eq_some h)
      exact ⟨hq, hq ▸ apart⟩
    · rintro ⟨rfl, -⟩
      simp [Same]

end Path

/-! ### Snapshots -/

namespace Snapshot

variable {files : FileSystem} {ps : List Path} {p q : Path}

theorem fingerprint?_eq (files : FileSystem) (p : Path) :
    fingerprint? files p = (files.textAt? p).map Fingerprint.ofText := rfl

theorem capture_concat (files : FileSystem) (ps : List Path) (p : Path) :
    capture files (ps ++ [p]) = add files (capture files ps) p := by
  simp [capture_eq]

/-- A listed path is shown as it can be read, in whatever spelling it is listed. -/
theorem get?_capture_of_alike (alike : files.AnswersAlike) (ps : List Path) (p : Path) :
    (capture files ps).get? p =
      if ∃ q ∈ ps, q.Same p then (files.textAt? p).map .ofText else none := by
  induction ps using List.reverseRecOn with
  | nil => simp [capture]
  | append_singleton ps q ih =>
    have listed : (∃ r ∈ ps ++ [q], r.Same p) ↔ (∃ r ∈ ps, r.Same p) ∨ q.Same p := by
      simp [or_and_right, exists_or]
    rw [capture_concat, if_congr listed rfl rfl]
    by_cases same : q.Same p
    · rw [if_pos (.inr same), ← OrderedMap.get?_congr _ same, get?_add_self,
        OrderedMap.get?_congr _ same, ih, fingerprint?_eq, alike.text same.normalize_eq]
      split <;> simp
    · rw [get?_add_of_ne _ _ same, ih]
      simp [same]

theorem contains_capture_iff (alike : files.AnswersAlike) :
    (capture files ps).contains p = true ↔
      (∃ q ∈ ps, q.Same p) ∧ files.textAt? p ≠ none := by
  rw [OrderedMap.contains_eq_isSome_get?, get?_capture_of_alike alike]
  split <;> simp [*, Option.isSome_iff_ne_none]

/-- What can be read is captured in its first spelling. -/
theorem mem_keys_capture_iff (alike : files.AnswersAlike) :
    p ∈ (capture files ps).keys ↔ Path.IsFirstIn ps p ∧ files.textAt? p ≠ none := by
  induction ps using List.reverseRecOn with
  | nil => simp [capture, OrderedMap.keys, OrderedMap.empty, Path.IsFirstIn]
  | append_singleton ps q ih =>
    rw [capture_concat, Path.isFirstIn_concat_iff]
    cases read : files.read q with
    | error e =>
      have unread : files.textAt? q = none := by rw [FileSystem.textAt?, read]; rfl
      rw [show add files (capture files ps) q = capture files ps by rw [add, read], ih]
      constructor
      · rintro ⟨first, readable⟩
        exact ⟨.inl first, readable⟩
      · rintro ⟨first | ⟨rfl, -⟩, readable⟩
        · exact ⟨first, readable⟩
        · exact absurd unread readable
    | ok content =>
      have readable : files.textAt? q ≠ none := by
        rw [FileSystem.textAt?_eq_some_iff.mpr read]
        exact Option.some_ne_none _
      have new : (capture files ps).contains q = false ↔ ∀ r ∈ ps, ¬ r.Same q := by
        rw [← Bool.not_eq_true, contains_capture_iff alike, and_iff_left readable]
        simp
      rw [show add files (capture files ps) q = (capture files ps).insert q (.ofText content) by
        rw [add, read], OrderedMap.mem_keys_insert_iff, ih, new, or_and_right]
      refine or_congr_right ⟨fun h => ⟨h, h.1 ▸ readable⟩, And.left⟩

end Snapshot

/-! ### What became of the paths -/

namespace ChangeSet

/-- The paths whose texts are not as they were. -/
def changed (changes : ChangeSet) : List Path :=
  changes.created ++ changes.modified ++ changes.deleted

/-- All paths that a comparison names. -/
def paths (changes : ChangeSet) : List Path := changes.changed ++ changes.unchanged

/-- The changes in the other direction. -/
def back (changes : ChangeSet) : ChangeSet where
  created := changes.deleted
  modified := changes.modified
  deleted := changes.created
  unchanged := changes.unchanged

/-- The changes are those from some files to others, as far as snapshots of them reach. -/
structure Tells (changes : ChangeSet) (before after : FileSystem) (older newer : Snapshot) :
    Prop where
  -- Each path in either snapshot is in exactly one of the lists.
  mem_paths_iff : ∀ p, p ∈ changes.paths ↔ p ∈ older.keys ∨ p ∈ newer.keys
  once : changes.paths.Pairwise fun p q => ¬ p.Same q
  -- Each list is about what its name says.
  created : ∀ p ∈ changes.created, before.textAt? p = none ∧ after.textAt? p ≠ none
  modified : ∀ p ∈ changes.modified, ∃ old new, before.textAt? p = some old ∧
    after.textAt? p = some new ∧ old ≠ new
  deleted : ∀ p ∈ changes.deleted, before.textAt? p ≠ none ∧ after.textAt? p = none
  unchanged : ∀ p ∈ changes.unchanged, ∃ text, before.textAt? p = some text ∧
    after.textAt? p = some text
  -- The lists are in strict order.
  sorted_created : changes.created.Pairwise (· < ·)
  sorted_modified : changes.modified.Pairwise (· < ·)
  sorted_deleted : changes.deleted.Pairwise (· < ·)
  sorted_unchanged : changes.unchanged.Pairwise (· < ·)
  -- The dirty paths are those of the first three lists, in strict order.
  sorted_dirty : changes.dirty.Pairwise (· < ·)
  perm_dirty : changes.dirty.Perm changes.changed
  mem_dirty_iff : ∀ p, p ∈ older.keys ∨ p ∈ newer.keys →
    (p ∈ changes.dirty ↔ before.textAt? p ≠ after.textAt? p)

end ChangeSet

namespace Snapshot

variable {F G : FileSystem} {ps : List Path} {p : Path}

theorem pairwise_keys (s : Snapshot) : s.keys.Pairwise (· < ·) := List.pairwise_map.mpr s.sorted

theorem mem_created_iff (before : F.AnswersAlike) (after : G.AnswersAlike) :
    p ∈ ((capture F ps).diff (capture G ps)).created ↔
      Path.IsFirstIn ps p ∧ F.textAt? p = none ∧ G.textAt? p ≠ none := by
  have absent : p ∈ ps → ((capture F ps).contains p = false ↔ F.textAt? p = none) := by
    intro listed
    have found : ∃ q ∈ ps, q.Same p := ⟨p, listed, rfl⟩
    rw [← Bool.not_eq_true, contains_capture_iff before, and_iff_right found, not_not]
  simp only [diff, List.mem_filter, mem_keys_capture_iff after, Bool.not_eq_true']
  constructor
  · rintro ⟨⟨first, readable⟩, new⟩
    exact ⟨first, (absent first.mem).mp new, readable⟩
  · rintro ⟨first, new, readable⟩
    exact ⟨⟨first, readable⟩, (absent first.mem).mpr new⟩

theorem mem_deleted_iff (before : F.AnswersAlike) (after : G.AnswersAlike) :
    p ∈ ((capture F ps).diff (capture G ps)).deleted ↔
      Path.IsFirstIn ps p ∧ F.textAt? p ≠ none ∧ G.textAt? p = none :=
  -- what is deleted one way is created the other way
  (mem_created_iff after before).trans (and_congr_right fun _ => and_comm)

theorem get?_capture_of_first (alike : F.AnswersAlike) (first : Path.IsFirstIn ps p) :
    (capture F ps).get? p = (F.textAt? p).map .ofText := by
  rw [get?_capture_of_alike alike, if_pos ⟨p, first.mem, rfl⟩]

theorem mem_modified_iff (before : F.AnswersAlike) (after : G.AnswersAlike) :
    p ∈ ((capture F ps).diff (capture G ps)).modified ↔ Path.IsFirstIn ps p ∧
      ∃ old new, F.textAt? p = some old ∧ G.textAt? p = some new ∧ old ≠ new := by
  simp only [diff, OrderedMap.mem_keys_filter_iff, mem_keys_capture_iff after, and_assoc]
  refine and_congr_right fun first => ?_
  rw [get?_capture_of_first before first, get?_capture_of_first after first]
  cases F.textAt? p <;> cases G.textAt? p <;> simp

theorem mem_unchanged_iff (before : F.AnswersAlike) (after : G.AnswersAlike) :
    p ∈ ((capture F ps).diff (capture G ps)).unchanged ↔ Path.IsFirstIn ps p ∧
      ∃ text, F.textAt? p = some text ∧ G.textAt? p = some text := by
  simp only [diff, OrderedMap.mem_keys_filter_iff, mem_keys_capture_iff after, and_assoc]
  refine and_congr_right fun first => ?_
  rw [get?_capture_of_first before first, get?_capture_of_first after first]
  cases F.textAt? p <;> cases G.textAt? p <;> simp [eq_comm]

/-- The paths that a comparison names are those of either snapshot. -/
theorem mem_paths_iff (before : F.AnswersAlike) (after : G.AnswersAlike) :
    p ∈ ((capture F ps).diff (capture G ps)).paths ↔
      p ∈ (capture F ps).keys ∨ p ∈ (capture G ps).keys := by
  simp only [ChangeSet.paths, ChangeSet.changed, List.mem_append, mem_created_iff before after,
    mem_modified_iff before after, mem_deleted_iff before after, mem_unchanged_iff before after,
    mem_keys_capture_iff before, mem_keys_capture_iff after, ← and_or_left]
  refine and_congr_right fun _ => ?_
  cases F.textAt? p with
  | none => cases G.textAt? p <;> simp
  | some old =>
    cases G.textAt? p with
    | none => simp
    | some new => by_cases same : old = new <;> simp [same]

theorem isFirstIn_of_mem_paths (before : F.AnswersAlike) (after : G.AnswersAlike)
    (hp : p ∈ ((capture F ps).diff (capture G ps)).paths) : Path.IsFirstIn ps p :=
  ((mem_paths_iff before after).mp hp).elim
    (fun h => ((mem_keys_capture_iff before).mp h).1)
    fun h => ((mem_keys_capture_iff after).mp h).1

theorem sorted_lists (older newer : Snapshot) :
    (older.diff newer).created.Pairwise (· < ·) ∧ (older.diff newer).modified.Pairwise (· < ·) ∧
      (older.diff newer).deleted.Pairwise (· < ·) ∧ (older.diff newer).unchanged.Pairwise (· < ·) :=
  ⟨newer.pairwise_keys.filter _, pairwise_keys _, older.pairwise_keys.filter _, pairwise_keys _⟩

theorem nodup_paths (before : F.AnswersAlike) (after : G.AnswersAlike) (ps : List Path) :
    ((capture F ps).diff (capture G ps)).paths.Nodup := by
  obtain ⟨created, modified, deleted, unchanged⟩ := sorted_lists (capture F ps) (capture G ps)
  simp only [ChangeSet.paths, ChangeSet.changed, List.nodup_append', List.disjoint_append_left]
  refine ⟨⟨⟨Path.nodup_of_sorted created, Path.nodup_of_sorted modified, ?_⟩,
    Path.nodup_of_sorted deleted, ?_, ?_⟩, Path.nodup_of_sorted unchanged, ⟨?_, ?_⟩, ?_⟩
  -- what the two file systems have at a path decides on the list
  all_goals
    intro p hp hq
    simp only [mem_created_iff before after, mem_modified_iff before after,
      mem_deleted_iff before after, mem_unchanged_iff before after] at hp hq
    grind

theorem back_diff (before : F.AnswersAlike) (after : G.AnswersAlike) :
    (capture G ps).diff (capture F ps) = ((capture F ps).diff (capture G ps)).back := by
  obtain ⟨-, modified, -, unchanged⟩ := sorted_lists (capture F ps) (capture G ps)
  obtain ⟨-, modified', -, unchanged'⟩ := sorted_lists (capture G ps) (capture F ps)
  have sameModified : ((capture G ps).diff (capture F ps)).modified =
      ((capture F ps).diff (capture G ps)).modified := by
    refine Path.sorted_eq_of_mem_iff modified' modified fun p => ?_
    rw [mem_modified_iff after before, mem_modified_iff before after]
    grind
  have sameUnchanged : ((capture G ps).diff (capture F ps)).unchanged =
      ((capture F ps).diff (capture G ps)).unchanged := by
    refine Path.sorted_eq_of_mem_iff unchanged' unchanged fun p => ?_
    rw [mem_unchanged_iff after before, mem_unchanged_iff before after]
    grind
  rw [ChangeSet.back, ← sameModified, ← sameUnchanged]
  rfl

theorem mem_changed_iff (before : F.AnswersAlike) (after : G.AnswersAlike) :
    p ∈ ((capture F ps).diff (capture G ps)).changed ↔
      Path.IsFirstIn ps p ∧ F.textAt? p ≠ G.textAt? p := by
  simp only [ChangeSet.changed, List.mem_append, mem_created_iff before after,
    mem_modified_iff before after, mem_deleted_iff before after, ← and_or_left]
  refine and_congr_right fun _ => ?_
  cases F.textAt? p <;> cases G.textAt? p <;> simp

/-- The dirty paths are the changed ones: none of them is another spelling of another. -/
theorem mem_dirty_iff (before : F.AnswersAlike) (after : G.AnswersAlike) :
    p ∈ ((capture F ps).diff (capture G ps)).dirty ↔
      p ∈ ((capture F ps).diff (capture G ps)).changed := by
  refine Path.mem_sortDedup_of_spelled fun q hq r hr same => ?_
  exact ((mem_changed_iff before after).mp hq).1.eq_of_same
    ((mem_changed_iff before after).mp hr).1 same

/-- A listed path is dirty, in whatever spelling, exactly if its text is another one. -/
theorem isAmong_dirty_iff (before : F.AnswersAlike) (after : G.AnswersAlike) (listed : p ∈ ps) :
    p.isAmong ((capture F ps).diff (capture G ps)).dirty = true ↔ F.textAt? p ≠ G.textAt? p := by
  simp only [Path.isAmong_iff, mem_dirty_iff before after, mem_changed_iff before after]
  constructor
  · rintro ⟨q, ⟨-, differ⟩, same⟩
    rwa [← before.text same.normalize_eq, ← after.text same.normalize_eq]
  · intro differ
    obtain ⟨q, first, same⟩ := Path.exists_isFirstIn listed
    rw [← before.text same.normalize_eq, ← after.text same.normalize_eq] at differ
    exact ⟨q, ⟨first, differ⟩, same⟩

theorem tells_diff (before : F.AnswersAlike) (after : G.AnswersAlike) (ps : List Path) :
    ((capture F ps).diff (capture G ps)).Tells F G (capture F ps) (capture G ps) := by
  have nodup := nodup_paths before after ps
  obtain ⟨created, modified, deleted, unchanged⟩ := sorted_lists (capture F ps) (capture G ps)
  exact {
    mem_paths_iff := fun p => mem_paths_iff before after
    once := by
      refine nodup.imp_of_mem fun hp hq hne same => hne ?_
      exact (isFirstIn_of_mem_paths before after hp).eq_of_same
        (isFirstIn_of_mem_paths before after hq) same
    created := fun p hp => ((mem_created_iff before after).mp hp).2
    modified := fun p hp => ((mem_modified_iff before after).mp hp).2
    deleted := fun p hp => ((mem_deleted_iff before after).mp hp).2
    unchanged := fun p hp => ((mem_unchanged_iff before after).mp hp).2
    sorted_created := created
    sorted_modified := modified
    sorted_deleted := deleted
    sorted_unchanged := unchanged
    sorted_dirty := Path.pairwise_sortDedup _
    perm_dirty := (List.perm_ext_iff_of_nodup (Path.nodup_sortDedup _)
      (List.nodup_append'.mp nodup).1).mpr fun p => mem_dirty_iff before after
    mem_dirty_iff := by
      intro p captured
      have first := isFirstIn_of_mem_paths before after ((mem_paths_iff before after).mpr captured)
      rw [mem_dirty_iff before after, mem_changed_iff before after, and_iff_right first] }

end Snapshot

/-! ### What the cache serves afterwards -/

namespace SourceCache

variable {F G : FileSystem} {ps : List Path} {c : SourceCache}

/-- What the cache holds at listed paths is what the files have there. -/
def HoldsTextsOf (c : SourceCache) (files : FileSystem) (ps : List Path) : Prop :=
  ∀ p ∈ ps, ∀ e, c.entries.get? p.normalize = some e → files.read p = .ok e.content

/-- A cache over new files, once the paths were invalidated that snapshots of the old and of the new
files show to be dirty. -/
def refresh (c : SourceCache) (F G : FileSystem) (ps : List Path) : SourceCache :=
  ((Snapshot.capture F ps).diff (Snapshot.capture G ps)).dirty.foldl invalidate { c with files := G }

/-- No old text is served: at each listed path the files themselves answer. -/
theorem serve_refresh (before : F.AnswersAlike) (after : G.AnswersAlike)
    (held : c.HoldsTextsOf F ps) {p : Path} (listed : p ∈ ps) :
    (c.refresh F G ps).serve p = G.read p.normalize := by
  have files : (c.refresh F G ps).files = G := by
    rw [refresh, foldl_invalidate]
    exact (dropAll_frame _ _).1
  have entry : (c.refresh F G ps).entries.get? p.normalize =
      if ∃ q ∈ (((Snapshot.capture F ps).diff (Snapshot.capture G ps)).dirty.map Path.normalize),
        q.Same p.normalize then none else c.entries.get? p.normalize := by
    rw [refresh, foldl_invalidate, get?_dropAll]
  rw [serve, files, entry]
  split
  next e served =>
    split at served
    · cases served
    next kept =>
      -- an entry that was kept is at a path whose text has not changed
      have clean : F.textAt? p = G.textAt? p := by
        by_contra differ
        obtain ⟨q, dirty, same⟩ :=
          Path.isAmong_iff.mp ((Snapshot.isAmong_dirty_iff before after listed).mpr differ)
        refine kept ⟨q.normalize, List.mem_map_of_mem dirty, ?_⟩
        rw [same.normalize_eq]
        rfl
      have text := FileSystem.textAt?_eq_some_iff.mpr (held p listed e served)
      rw [clean, after.text (Path.normalize_normalize p).symm] at text
      exact (FileSystem.textAt?_eq_some_iff.mp text).symm
  next => rfl

/-- After the dirty paths were invalidated the cache is in step with the new files at all listed
paths, whatever else is read through it. -/
theorem refreshed (before : F.AnswersAlike) (after : G.AnswersAlike) (held : c.HoldsTextsOf F ps)
    (reads : List Path) :
    let older := Snapshot.capture F ps
    let newer := Snapshot.capture G ps
    (older.diff newer).Tells F G older newer ∧
      newer.diff older = (older.diff newer).back ∧
      ∀ p ∈ ps,
        (∀ content, G.read p = .ok content →
          ((c.refresh F G ps).retainAll reads).serve p = .ok content) ∧
        (G.Missing p → ∃ q, ((c.refresh F G ps).retainAll reads).serve p = .error (.notFound q)) := by
  refine ⟨Snapshot.tells_diff before after ps, Snapshot.back_diff before after, fun p listed => ?_⟩
  have same := Path.normalize_normalize p
  rw [serve_retainAll, serve_refresh before after held listed]
  constructor
  · intro content read
    rw [← FileSystem.textAt?_eq_some_iff] at read ⊢
    rwa [after.text same]
  · intro missing
    exact (after.missing same).mpr missing

/-- A sound cache into which nothing was written holds what its files have. -/
theorem Sound.holdsTextsOf (sound : Sound [] c) (unwritten : Unwritten c)
    (alike : F.AnswersAlike) (backed : c.files = F) (ps : List Path) : c.HoldsTextsOf F ps := by
  subst backed
  intro p _ e held
  have there := mem_of_get? sound held
  have read := (sound.current _ there (unwritten _ there)).resolve_left (by simp)
  rw [← FileSystem.textAt?_eq_some_iff] at read ⊢
  rwa [alike.text (Path.normalize_normalize p).symm]

/-- One file each that is created, modified, deleted and left alone, some of them listed in several
spellings. All were read before the change. -/
theorem refreshed_four :
    let before : MemoryFiles := ((MemoryFiles.empty.insert ⟨"/k"⟩ "k").insert ⟨"/m"⟩ "m").insert
      ⟨"/d"⟩ "d"
    let after : MemoryFiles := ((MemoryFiles.empty.insert ⟨"/k"⟩ "k").insert ⟨"/m"⟩ "n").insert
      ⟨"/c"⟩ "c"
    let ps : List Path := [⟨"/k"⟩, ⟨"/./k"⟩, ⟨"/m/x/.."⟩, ⟨"/m"⟩, ⟨"/d"⟩, ⟨"/c"⟩]
    let c := ((ofFiles (.memory before)).enableCaching).retainAll ps
    let changes := (Snapshot.capture (.memory before) ps).diff (.capture (.memory after) ps)
    let fresh := (c.refresh (.memory before) (.memory after) ps).retainAll [⟨"/k"⟩]
    FileSystem.AnswersAlike (.memory before) ∧ FileSystem.AnswersAlike (.memory after) ∧
      c.HoldsTextsOf (.memory before) ps ∧
      changes = ⟨[⟨"/c"⟩], [⟨"/m"⟩, ⟨"/m/x/.."⟩], [⟨"/d"⟩], [⟨"/k"⟩]⟩ ∧
      c.serve ⟨"/m"⟩ = .ok "m" ∧ fresh.serve ⟨"/m"⟩ = .ok "n" ∧
      ∃ q, fresh.serve ⟨"/d"⟩ = .error (.notFound q) := by
  intro before after ps c changes fresh
  have alike : FileSystem.AnswersAlike (.memory before) := MemoryFiles.answersAlike rfl
  have alike' : FileSystem.AnswersAlike (.memory after) := MemoryFiles.answersAlike rfl
  have held : c.HoldsTextsOf (.memory before) ps := by
    have sound : Sound [] c := ((sound_ofFiles (.memory before)).enableCaching).retainAll ps
    have unwritten : Unwritten c :=
      Unwritten.retainAll (c := (ofFiles (.memory before)).enableCaching)
        (fun _ none_held => absurd none_held List.not_mem_nil) ps
    exact sound.holdsTextsOf unwritten alike (files_retainAll _ ps) ps
  have inStep := (refreshed alike alike' held [⟨"/k"⟩]).2.2
  refine ⟨alike, alike', held, by decide +kernel, by decide +kernel, ?_, ?_⟩
  · exact (inStep ⟨"/m"⟩ (by decide)).1 "n" (by decide +kernel)
  · exact (inStep ⟨"/d"⟩ (by decide)).2 ⟨⟨"/d"⟩, by decide +kernel⟩

end SourceCache

end Precompile
