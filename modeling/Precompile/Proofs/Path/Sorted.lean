import Precompile.Path.Map
import Precompile.Proofs.OrderedMap
import Precompile.Proofs.Path.Normal

/-!
Sorted paths.

A sorted list has the members of the list it was made from, each once and in its first spelling. Of
normal paths there is no other spelling, so nothing is lost (`mem_sortDedup_iff`).
-/

namespace Precompile.Path

variable {p : Path} {ps : List Path}

theorem isAmong_iff : p.isAmong ps = true ↔ ∃ q ∈ ps, q.Same p := by
  simp [isAmong]

theorem mem_keys_insertAll {s : PathSet} (h : p ∈ (OrderedSet.insertAll s ps).keys) :
    p ∈ s.keys ∨ p ∈ ps := by
  induction ps generalizing s with
  | nil => exact .inl h
  | cons q ps ih =>
    rcases ih (s := OrderedSet.insert s q) h with h | h
    · rcases OrderedMap.mem_keys_of_insert h with rfl | old
      · exact .inr List.mem_cons_self
      · exact .inl old
    · exact .inr (List.mem_cons_of_mem _ h)

theorem mem_of_mem_sortDedup (h : p ∈ sortDedup ps) : p ∈ ps :=
  (mem_keys_insertAll h).resolve_left (by simp [OrderedMap.keys, OrderedMap.empty])

/-- The members of a sorted list stand for all spellings. -/
theorem isAmong_sortDedup : p.isAmong (sortDedup ps) = true ↔ ∃ q ∈ ps, q.Same p := by
  have among : p.isAmong (sortDedup ps) = true ↔
      OrderedMap.contains (OrderedSet.ofList ps : PathSet) p = true := by
    rw [OrderedMap.contains_iff]
    simp only [isAmong, sortDedup, OrderedMap.keys, List.any_map, List.any_eq_true,
      Function.comp, decide_eq_true_eq]
    rfl
  rw [among, OrderedSet.ofList, OrderedSet.contains_insertAll]
  simp
  rfl

/-- Nothing is lost of paths that come in one spelling each. -/
theorem mem_sortDedup_of_spelled (spelled : ∀ p ∈ ps, ∀ q ∈ ps, p.Same q → p = q) :
    p ∈ sortDedup ps ↔ p ∈ ps := by
  refine ⟨mem_of_mem_sortDedup, fun hp => ?_⟩
  obtain ⟨q, hq, same⟩ := isAmong_iff.mp (isAmong_sortDedup.mpr ⟨p, hp, rfl⟩)
  exact spelled q (mem_of_mem_sortDedup hq) p hp same ▸ hq

theorem mem_sortDedup_iff (normal : ∀ p ∈ ps, p.IsNormal) : p ∈ sortDedup ps ↔ p ∈ ps :=
  mem_sortDedup_of_spelled fun p hp q hq same => (normal p hp).eq_of_same (normal q hq) same

theorem pairwise_sortDedup (ps : List Path) : (sortDedup ps).Pairwise (· < ·) :=
  List.pairwise_map.mpr (OrderedSet.ofList ps : PathSet).sorted

theorem nodup_of_sorted (sorted : ps.Pairwise (· < ·)) : ps.Nodup := by
  refine sorted.imp ?_
  rintro p _ hlt rfl
  exact List.lt_irrefl p.components hlt

theorem nodup_sortDedup (ps : List Path) : (sortDedup ps).Nodup :=
  nodup_of_sorted (pairwise_sortDedup ps)

/-- Lists in strict order that have the same members are the same. -/
theorem sorted_eq_of_mem_iff {qs : List Path} (hps : ps.Pairwise (· < ·))
    (hqs : qs.Pairwise (· < ·)) (mem : ∀ p, p ∈ ps ↔ p ∈ qs) : ps = qs := by
  have irrefl : Std.Irrefl fun p q : Path => p < q := ⟨fun p => List.lt_irrefl p.components⟩
  have antisymm : Std.Antisymm fun p q : Path => p < q :=
    ⟨fun _ _ hab hba => absurd (List.lt_trans hab hba) (List.lt_irrefl _)⟩
  exact List.Pairwise.eq_of_mem_iff hps hqs mem

end Precompile.Path
