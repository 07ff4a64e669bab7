import Precompile.Proofs.Host

/-!
Handing modules on.

A registry that the modules held in memory were handed on to has all of them
(`Host.handedOn_populate`). As long as they stay the same, handing them on again changes nothing
(`Host.HandedOn.populate_eq`).
-/

namespace Precompile.Host

variable {h : Host} {r : Registry}

/-- A registry has the modules held in memory, and these are the ones that were handed on last. -/
structure HandedOn (h : Host) (r : Registry) : Prop where
  published_eq : h.published = h.virtualModules.map WrittenFile.path
  registered : ∀ f ∈ h.virtualModules, r.get? f.path = some f.content

/-- There is one text for each module. -/
theorem content_eq_of_same {f g : WrittenFile} (hf : f ∈ h.virtualModules)
    (hg : g ∈ h.virtualModules) (same : f.path.Same g.path) : f.content = g.content := by
  have held := SourceCache.mem_writtenFiles_iff.mp (List.mem_of_mem_filter hf)
  have held' := SourceCache.mem_writtenFiles_iff.mp (List.mem_of_mem_filter hg)
  have entry := OrderedMap.eq_of_key_eq held held' same
  exact congrArg (fun e => e.2.content) entry

/-- Handing on registers all modules held in memory. -/
theorem handedOn_populate (h : Host) (r : Registry) :
    (h.populate r).host.HandedOn (h.populate r).registry where
  published_eq := rfl
  registered := by
    intro f hf
    have hf : f ∈ h.virtualModules := hf
    have inserted : (h.virtualModules.foldl (fun (r : Registry) f => r.insert f.path f.content)
        r).get? f.path = some f.content := by
      have agree : ∀ e ∈ h.virtualModules.map fun f => (f.path, f.content),
          e.1.Same f.path → e.2 = f.content := by
        intro e he same
        obtain ⟨g, hg, rfl⟩ := List.mem_map.mp he
        exact content_eq_of_same hg hf same
      have inserted : (f.path, f.content) ∈ h.virtualModules.map fun f => (f.path, f.content) :=
        List.mem_map.mpr ⟨f, hf, rfl⟩
      have found := OrderedMap.get?_insertAll_of_agree (m := r) (.inr inserted) agree
      rwa [OrderedMap.insertAll, List.foldl_map] at found
    rw [← inserted]
    refine OrderedMap.get?_foldl_erase _ fun p hp same => ?_
    have gone := List.of_mem_filter hp
    have among : p.isAmong (h.virtualModules.map (·.path)) = true :=
      List.any_eq_true.mpr ⟨f.path, List.mem_map_of_mem hf, decide_eq_true same.symm⟩
    simp [among] at gone

/-- Handing on again changes nothing. -/
theorem HandedOn.populate_eq (handed : h.HandedOn r) :
    h.populate r = ⟨r, h.virtualModules.length, h⟩ := by
  have registered : h.virtualModules.foldl (fun (r : Registry) f => r.insert f.path f.content) r =
      r := by
    have known := handed.registered
    generalize h.virtualModules = fs at known ⊢
    induction fs with
    | nil => rfl
    | cons f fs ih =>
      obtain ⟨first, known⟩ := List.forall_mem_cons.mp known
      rw [List.foldl_cons, OrderedMap.insert_of_get? first, ih known]
  have none : h.published.filter (fun p => !p.isAmong (h.virtualModules.map (·.path))) = [] := by
    refine List.filter_eq_nil_iff.mpr fun p hp => ?_
    rw [handed.published_eq] at hp
    have among : p.isAmong (h.virtualModules.map (·.path)) = true :=
      List.any_eq_true.mpr ⟨p, hp, decide_eq_true rfl⟩
    simp [among]
  have same : { h with published := h.virtualModules.map (·.path) } = h := by
    rw [← handed.published_eq]
  unfold populate
  dsimp only
  rw [registered, none, same]
  rfl

/-- What is read does not count. -/
theorem HandedOn.retainAll (handed : h.HandedOn r) (ps : List Path) :
    (h.retainAll ps).HandedOn r where
  published_eq := by
    rw [virtualModules_retainAll]
    exact handed.published_eq
  registered := by
    rw [virtualModules_retainAll]
    exact handed.registered

end Precompile.Host
