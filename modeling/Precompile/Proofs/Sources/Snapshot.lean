import Precompile.Proofs.Path.Sorted
import Precompile.Sources.Fingerprint

/-!
# What snapshots show

A snapshot shows what each of the listed files held when it was taken, and a comparison lists every
path at which two snapshots differ.
-/

namespace Precompile.Snapshot

variable {files : FileSystem} {p : Path}

/-- The fingerprint of a file, if it can be read. -/
def fingerprint? (files : FileSystem) (p : Path) : Option Fingerprint :=
  (files.read p).toOption.map Fingerprint.ofText

theorem fingerprint?_eq_some_iff {content : String} :
    fingerprint? files p = some (.ofText content) ↔ files.read p = .ok content := by
  unfold fingerprint?
  cases files.read p <;> simp [Except.toOption]

/-- The snapshot with one more file, if that can be read. -/
def add (files : FileSystem) (s : Snapshot) (p : Path) : Snapshot :=
  match files.read p with
  | .ok content => s.insert p (.ofText content)
  | .error _ => s

theorem capture_eq (files : FileSystem) (ps : List Path) :
    capture files ps = ps.foldl (add files) .empty := rfl

theorem get?_add_self (files : FileSystem) (s : Snapshot) (p : Path) :
    (add files s p).get? p = (fingerprint? files p).or (s.get? p) := by
  unfold add fingerprint?
  cases files.read p <;> simp [Except.toOption]

theorem get?_add_of_ne (files : FileSystem) (s : Snapshot) {q : Path} (apart : ¬ q.Same p) :
    (add files s q).get? p = s.get? p := by
  have hkey : q.components ≠ p.components := apart
  unfold add
  split
  · rw [OrderedMap.get?_insert, if_neg hkey]
  · rfl

/-- What a snapshot shows counts only as long as the path is not looked at again. -/
theorem get?_foldl_add (files : FileSystem) {ps : List Path} (once : ∀ q ∈ ps, q.Same p → q = p)
    (s : Snapshot) : (ps.foldl (add files) s).get? p =
      if p ∈ ps then (fingerprint? files p).or (s.get? p) else s.get? p := by
  induction ps generalizing s with
  | nil => simp
  | cons q ps ih =>
    rw [List.foldl_cons, ih fun r hr => once r (List.mem_cons_of_mem _ hr)]
    by_cases hq : q = p
    · rw [hq, get?_add_self, if_pos List.mem_cons_self]
      cases fingerprint? files p <;> simp
    · rw [get?_add_of_ne files s fun same => hq (once q List.mem_cons_self same)]
      simp [List.mem_cons, Ne.symm hq]

/-- A listed path that has no other spelling in the list is shown as it was read. -/
theorem get?_capture {ps : List Path} (listed : p ∈ ps) (once : ∀ q ∈ ps, q.Same p → q = p) :
    (capture files ps).get? p = fingerprint? files p := by
  rw [capture_eq, get?_foldl_add files once, if_pos listed]
  simp

/-- A path at which the snapshots differ is among the dirty ones. -/
theorem isAmong_dirty {older newer : Snapshot} (differ : older.get? p ≠ newer.get? p) :
    p.isAmong (older.diff newer).dirty = true := by
  refine Path.isAmong_sortDedup.mpr ?_
  cases hnew : newer.get? p with
  | none =>
    obtain ⟨f, hold⟩ := Option.ne_none_iff_exists'.mp (hnew ▸ differ)
    obtain ⟨q, hq, hsame⟩ := OrderedMap.exists_mem_keys (OrderedMap.contains_of_get? hold)
    have gone : newer.contains q = false := by
      rw [newer.contains_congr hsame]
      exact OrderedMap.get?_eq_none_iff.mp hnew
    exact ⟨q, List.mem_append_right _ (List.mem_filter.mpr ⟨hq, by simp [gone]⟩), hsame⟩
  | some f =>
    cases hold : older.get? p with
    | none =>
      obtain ⟨q, hq, hsame⟩ := OrderedMap.exists_mem_keys (OrderedMap.contains_of_get? hnew)
      have absent : older.contains q = false := by
        rw [older.contains_congr hsame]
        exact OrderedMap.get?_eq_none_iff.mp hold
      exact ⟨q, List.mem_append_left _ (List.mem_append_left _
        (List.mem_filter.mpr ⟨hq, by simp [absent]⟩)), hsame⟩
    | some g =>
      obtain ⟨q, hmem, hsame⟩ := OrderedMap.get?_eq_some_iff.mp hnew
      have hne : g ≠ f := by
        intro h
        exact differ (by rw [hold, hnew, h])
      refine ⟨q, List.mem_append_left _ (List.mem_append_right _ ?_), hsame⟩
      refine OrderedMap.mem_keys.mpr ⟨f, List.mem_filter.mpr ⟨hmem, ?_⟩⟩
      simp only [older.get?_congr hsame, hold]
      exact decide_eq_true hne

/-- Without changes the snapshots show the same everywhere. -/
theorem get?_eq_of_isEmpty {older newer : Snapshot} (quiet : (older.diff newer).isEmpty = true)
    (p : Path) : older.get? p = newer.get? p := by
  by_contra differ
  have dirty := isAmong_dirty differ
  simp only [ChangeSet.isEmpty, Bool.and_eq_true, List.isEmpty_iff] at quiet
  obtain ⟨⟨created, modified⟩, deleted⟩ := quiet
  rw [ChangeSet.dirty, created, modified, deleted] at dirty
  cases dirty

end Precompile.Snapshot
