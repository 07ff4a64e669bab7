import Mathlib.Algebra.BigOperators.Group.Finset.Basic
import Precompile.Proofs.OrderedMap
import Precompile.Route.Discovery
import Precompile.Route.Factory

/-!
What is found in route maps.

Where maps are merged the later one wins, key by key, and one conflict is told for each key that
leads to a file before and to another file afterwards.
-/

namespace Precompile

namespace RouteMap

/-- What is found at a key leads from one file to another one. -/
def moved : Option (Option Path) → Option (Option Path) → Bool
  | some (some p), some (some q) => !decide (p.Same q)
  | _, _ => false

@[simp] theorem moved_none_left (v : Option (Option Path)) : moved none v = false := rfl

@[simp] theorem moved_none_right (v : Option (Option Path)) : moved v none = false := by
  rcases v with _ | _ | p <;> rfl

theorem isSome_conflict? (key : String) (previous : Option (Option Path)) (current : Option Path) :
    (conflict? key previous current).isSome = moved previous (some current) := by
  rcases previous with _ | _ | p <;> rcases current with _ | q <;> try rfl
  unfold conflict? moved
  by_cases hsame : p.Same q <;> simp [hsame]

theorem get?_merge (table found : RouteMap) (key : String) :
    (table.merge found).get? key = (found.get? key).or (table.get? key) :=
  OrderedMap.get?_insertAll_entries table found key

theorem mem_keys_iff {m : RouteMap} {key : String} : key ∈ m.keys ↔ ∃ v, m.get? key = some v := by
  constructor
  · intro hkey
    obtain ⟨v, hv⟩ := OrderedMap.mem_keys.mp hkey
    exact ⟨v, OrderedMap.get?_eq_some_iff.mpr ⟨key, hv, rfl⟩⟩
  · rintro ⟨v, hv⟩
    obtain ⟨q, hq, rfl⟩ := OrderedMap.get?_eq_some_iff.mp hv
    exact OrderedMap.mem_keys.mpr ⟨v, hq⟩

theorem nodup_keys (m : RouteMap) : m.keys.Nodup := by
  apply List.pairwise_map.mpr
  apply m.sorted.imp
  intro a b hlt heq
  rw [heq] at hlt
  exact String.lt_irrefl _ hlt

/-- One conflict is told for each key whose file moves. -/
theorem length_conflicts (table found : RouteMap) {keys : Finset String}
    (all : ∀ key ∈ found.keys, key ∈ keys) :
    (table.conflicts found).length =
      ∑ key ∈ keys, (moved (table.get? key) (found.get? key)).toNat := by
  have told : ∀ es : List (String × Option Path), (∀ e ∈ es, e ∈ found.entries) →
      (es.filterMap fun e => conflict? e.1 (table.get? e.1) e.2).length =
        ((es.map Prod.fst).map fun key => (moved (table.get? key) (found.get? key)).toNat).sum := by
    intro es
    induction es with
    | nil => intro _; rfl
    | cons e es ih =>
      intro mem
      have hfound : found.get? e.1 = some e.2 :=
        OrderedMap.get?_eq_some_iff.mpr ⟨e.1, mem e List.mem_cons_self, rfl⟩
      have rest := ih fun f hf => mem f (List.mem_cons_of_mem e hf)
      have hsome := isSome_conflict? e.1 (table.get? e.1) e.2
      rw [List.filterMap_cons, List.map_cons, List.map_cons, List.sum_cons, hfound, ← rest, ← hsome]
      cases hconflict : conflict? e.1 (table.get? e.1) e.2 with
      | none => simp
      | some conflict => simp [Nat.add_comm]
  have within : found.keys.toFinset ⊆ keys := fun key hkey => all key (List.mem_toFinset.mp hkey)
  calc (table.conflicts found).length
    _ = (found.keys.map fun key => (moved (table.get? key) (found.get? key)).toNat).sum :=
        told found.entries fun _ he => he
    _ = ∑ key ∈ found.keys.toFinset, (moved (table.get? key) (found.get? key)).toNat :=
        (List.sum_toFinset _ found.nodup_keys).symm
    _ = ∑ key ∈ keys, (moved (table.get? key) (found.get? key)).toNat := by
        apply Finset.sum_subset within
        intro key _ hkey
        -- nothing was found at the other keys
        have hnone : found.get? key = none := by
          apply Option.eq_none_iff_forall_ne_some.mpr
          intro v hv
          exact hkey (List.mem_toFinset.mpr (mem_keys_iff.mpr ⟨v, hv⟩))
        simp [hnone]

/-- What a table says already does not change it, and nothing moves. -/
theorem merge_eq_self {table found : RouteMap}
    (told : ∀ key v, found.get? key = some v → table.get? key = some v) :
    table.merge found = table ∧ table.conflicts found = [] := by
  constructor
  · apply OrderedMap.ext_get? (Q := fun _ => True) (fun _ _ same => same) (fun _ _ => trivial)
      fun _ _ => trivial
    intro key
    rw [get?_merge]
    cases hfound : found.get? key with
    | none => rfl
    | some v => exact (told key v hfound).symm
  · apply List.filterMap_eq_nil_iff.mpr
    intro ⟨key, v⟩ he
    have hfound : found.get? key = some v := OrderedMap.get?_eq_some_iff.mpr ⟨key, he, rfl⟩
    show conflict? key (table.get? key) v = none
    rw [told key v hfound]
    cases v with
    | none => rfl
    | some p => exact if_pos rfl

end RouteMap

/-- What is published is what was found, marked and led to the factories if any are generated. -/
theorem FactoryPlan.get?_apply_eq_some_iff {plan : FactoryPlan} {m : RouteMap} {key : String}
    {v : Option Path} : (plan.apply m).get? key = some v ↔
      if plan.skip then m.get? key = some v
      else ∃ k found, m.get? k = some found ∧ k ++ mark = key ∧ found.map plan.factoryPath = v := by
  unfold apply
  cases plan.skip with
  | true => exact Iff.rfl
  | false =>
    simp only [Bool.false_eq_true, if_false]
    let listed := m.entries.map fun e => (e.1 ++ mark, e.2.map plan.factoryPath)
    let published : RouteMap := .ofList listed
    show published.get? key = some v ↔ _
    have only : ∀ {key v}, published.get? key = some v →
        ∃ k found, m.get? k = some found ∧ k ++ mark = key ∧ found.map plan.factoryPath = v := by
      intro key v h
      obtain ⟨q, hq, rfl⟩ := OrderedMap.get?_eq_some_iff.mp h
      have spelled : ∀ e ∈ published.entries, (e.1, e.2) ∈ listed := by
        refine OrderedMap.forall_mem_insertAll (Q := fun key v => (key, v) ∈ listed)
          (fun {k k' v v'} _ h' same => ?_) (fun e he => absurd he List.not_mem_nil) fun e he => he
        exact (show k = k' from same) ▸ h'
      obtain ⟨e, he, heq⟩ := List.mem_map.mp (spelled _ hq)
      cases heq
      exact ⟨e.1, e.2, OrderedMap.get?_eq_some_iff.mpr ⟨e.1, he, rfl⟩, rfl, rfl⟩
    constructor
    · exact only
    · rintro ⟨k, found, hk, rfl, rfl⟩
      obtain ⟨q, hq, rfl⟩ := OrderedMap.get?_eq_some_iff.mp hk
      have there : published.contains (q ++ mark) = true :=
        (OrderedMap.contains_insertAll _ listed (q ++ mark)).mpr
          (.inr ⟨_, List.mem_map_of_mem hq, rfl⟩)
      rw [OrderedMap.contains_eq_isSome_get?] at there
      obtain ⟨v, hv⟩ := Option.isSome_iff_exists.mp there
      -- a marked key tells the key it comes from
      obtain ⟨k, found', hk', hkey, rfl⟩ := only hv
      have same : k = q := by simpa using hkey
      rw [same, hk] at hk'
      cases hk'
      exact hv

/-- Of the routes of several files, those of the last file that has the key count. -/
theorem Route.get?_ofFiles (h : Host) (fs : List SourceFile) (key : String) :
    (ofFiles h fs).get? key = (fs.filterMap fun f => (ofFile h f).get? key).getLast? := by
  have from_table : ∀ m : RouteMap,
      (fs.foldl (fun (m : RouteMap) f => m.insertAll (ofFile h f).entries) m).get? key =
        (fs.filterMap fun f => (ofFile h f).get? key).getLast?.or (m.get? key) := by
    induction fs with
    | nil => intro m; rfl
    | cons f fs ih =>
      intro m
      rw [List.foldl_cons, ih, OrderedMap.get?_insertAll_entries, List.filterMap_cons]
      cases (ofFile h f).get? key with
      | none => rfl
      | some v => simp [List.getLast?_cons]
  have from_empty := from_table .empty
  rwa [OrderedMap.get?_empty, Option.or_none] at from_empty

/-- What is published of the routes of several files is what is published of one of them. -/
theorem Route.exists_get?_apply_ofFiles {plan : FactoryPlan} {h : Host} {fs : List SourceFile}
    {key : String} {v : Option Path} (hv : (plan.apply (ofFiles h fs)).get? key = some v) :
    ∃ f ∈ fs, (plan.apply (ofFile h f)).get? key = some v := by
  have one : ∀ {k found}, (ofFiles h fs).get? k = some found →
      ∃ f ∈ fs, (ofFile h f).get? k = some found := by
    intro k found hk
    rw [get?_ofFiles] at hk
    exact List.mem_filterMap.mp (List.mem_of_getLast? hk)
  simp only [FactoryPlan.get?_apply_eq_some_iff] at hv ⊢
  split at hv
  next skip =>
    obtain ⟨f, hf, found⟩ := one hv
    exact ⟨f, hf, by rwa [if_pos skip]⟩
  next generates =>
    obtain ⟨k, found, hk, hkey, hv⟩ := hv
    obtain ⟨f, hf, hk⟩ := one hk
    exact ⟨f, hf, by rw [if_neg generates]; exact ⟨k, found, hk, hkey, hv⟩⟩

end Precompile
