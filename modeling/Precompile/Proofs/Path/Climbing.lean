import Mathlib.Data.List.Infix
import Precompile.Proofs.Path.Names

/-!
Paths that climb out of a directory.

How a path is seen from a directory is told by their names (`seenFrom`): the climbs out of what the
directory does not share with the path, and the names from there. That is what a relative path is
written as (`IsAt.toList_relativeTo`). Joined with a directory, climbs take away its last names, and
none where none is left (`IsAt.normalize_join`). So what leads from a directory to a path leads back
to it, and climbs only out of what the two do not share (`relativeTo_leads_back`).
-/

namespace Precompile.Path

variable {p q d : Path} {names own front : List String} {parts : List Component}

/-- The number of climbs out of the first names, and the names from there, up to the second ones. -/
def seenFrom : List String → List String → Nat × List String
  | d :: ds, s :: ss => if d = s then seenFrom ds ss else (ds.length + 1, s :: ss)
  | ds, ss => (ds.length, ss)

/-- Climbs, and names behind them. -/
def climb (climbs : Nat) (names : List String) : List Component :=
  List.replicate climbs .up ++ names.map .name

/-! ### Names -/

theorem seenFrom_append (names own : List String) : seenFrom names (names ++ own) = (0, own) := by
  induction names with
  | nil => cases own <;> simp [seenFrom]
  | cons s names ih => simp [seenFrom, ih]

/-- Without its names that are climbed out of, a directory leads to what is seen. -/
theorem take_append_seenFrom (ds ss : List String) :
    (seenFrom ds ss).1 ≤ ds.length ∧
      ds.take (ds.length - (seenFrom ds ss).1) ++ (seenFrom ds ss).2 = ss := by
  fun_induction seenFrom ds ss with
  | case1 ds s ss ih =>
    obtain ⟨within, hss⟩ := ih
    refine ⟨by simp; omega, ?_⟩
    rw [List.length_cons, Nat.succ_sub within, List.take_succ_cons, List.cons_append, hss]
  | case2 d ds s ss _ => simp
  | case3 ds ss => simp

/-- Two lists begin with what they have in common. -/
theorem take_commonPrefix (as bs : List Component) :
    as.take (commonPrefix as bs) = bs.take (commonPrefix as bs) := by
  fun_induction commonPrefix as bs with
  | case1 as _ bs ih => rw [List.take_succ_cons, List.take_succ_cons, ih]
  | case2 => rfl
  | case3 => rfl

/-- They have no longer beginning in common. -/
theorem prefix_take_commonPrefix {as bs cs : List Component} (left : cs <+: as)
    (right : cs <+: bs) : cs <+: as.take (commonPrefix as bs) := by
  fun_induction commonPrefix as bs generalizing cs with
  | case1 as _ bs ih =>
    cases cs with
    | nil => exact List.nil_prefix
    | cons c cs =>
      obtain ⟨first, rest⟩ := List.cons_prefix_cons.mp left
      rw [List.take_succ_cons]
      exact List.cons_prefix_cons.mpr ⟨first, ih rest (List.cons_prefix_cons.mp right).2⟩
  | case2 a as b bs hne =>
    cases cs with
    | nil => exact List.nil_prefix
    | cons c cs =>
      have first := (List.cons_prefix_cons.mp left).1
      exact absurd (first.symm.trans (List.cons_prefix_cons.mp right).1) hne
  | case3 as bs apart =>
    cases cs with
    | nil => exact List.nil_prefix
    | cons c cs =>
      obtain ⟨as', rfl⟩ := left
      obtain ⟨bs', rfl⟩ := right
      exact (apart c (cs ++ as') c (cs ++ bs') rfl rfl).elim

/-- Nothing but climbs leads to what a directory lies in. -/
theorem seenFrom_eq_nil_iff (ds ss : List String) : (seenFrom ds ss).2 = [] ↔ ss <+: ds := by
  fun_induction seenFrom ds ss with
  | case1 ds s ss ih => simpa using ih
  | case2 d ds s ss hne => simp [Ne.symm hne]
  | case3 ds ss apart =>
    -- one of the two has no names left
    rcases ds with _ | ⟨d, ds⟩
    · simp
    · rcases ss with _ | ⟨s, ss⟩
      · simp
      · exact (apart d ds s ss rfl rfl).elim

theorem mem_of_mem_seenFrom {ds ss : List String} {s : String} (h : s ∈ (seenFrom ds ss).2) :
    s ∈ ss := by
  rw [← (take_append_seenFrom ds ss).2]
  exact List.mem_append_right _ h

theorem climb_seenFrom (ds ss : List String) :
    List.replicate (ds.length - commonPrefix (ss.map .name) (ds.map .name)) .up ++
      (ss.map Component.name).drop (commonPrefix (ss.map .name) (ds.map .name)) =
      climb (seenFrom ds ss).1 (seenFrom ds ss).2 := by
  fun_induction seenFrom ds ss with
  | case1 ds s ss ih => simpa [commonPrefix] using ih
  | case2 d ds s ss hne => simp [commonPrefix, climb, Ne.symm hne]
  | case3 ds ss apart =>
    -- one of the two has no names left
    rcases ds with _ | ⟨d, ds⟩
    · simp [commonPrefix, climb]
    · rcases ss with _ | ⟨s, ss⟩
      · simp [commonPrefix, climb]
      · exact (apart d ds s ss rfl rfl).elim

/-! ### Parts -/

theorem isPart_up : Component.up.IsPart := by
  constructor <;> simp [Component.text, componentOf, isBlank]

theorem isPart_of_mem_climb (climbs : Nat) (h : ∀ s ∈ own, (Component.name s).IsPart) :
    ∀ c ∈ climb climbs own, c.IsPart := by
  intro c hc
  rcases List.mem_append.mp hc with hc | hc
  · rw [List.eq_of_mem_replicate hc]
    exact isPart_up
  · obtain ⟨s, hs, rfl⟩ := List.mem_map.mp hc
    exact h s hs

/-! ### Climbing -/

theorem normalComponents_append (cs ds : List Component) :
    normalComponents (cs ++ ds) =
      (ds.foldl pushComponent (normalComponents cs).reverse).reverse := by
  simp [normalComponents]

theorem pushComponent_up_concat (names : List String) (s : String) :
    pushComponent (.root :: (names ++ [s]).map .name).reverse .up =
      (.root :: names.map .name).reverse := by
  simp [pushComponent]

/-- Each climb takes away a name; at the root there is none left. -/
theorem normalComponents_climb (names own : List String) (climbs : Nat) :
    normalComponents (.root :: names.map .name ++ climb climbs own) =
      .root :: (names.take (names.length - climbs) ++ own).map .name := by
  have up : normalComponents (.root :: names.map .name ++ List.replicate climbs .up) =
      .root :: (names.take (names.length - climbs)).map .name := by
    induction climbs with
    | zero => simpa [normalComponents, pushComponent] using normalComponents_append_names [.root] names
    | succ climbs ih =>
      rw [List.replicate_succ', ← List.append_assoc, normalComponents_append, ih, List.foldl_cons,
        List.foldl_nil]
      -- either a name is left to be taken away, or the root is all that is left
      rcases Nat.lt_or_ge climbs names.length with more | none
      · obtain ⟨n, hn⟩ : ∃ n, names.length - climbs = n + 1 := ⟨names.length - climbs - 1, by omega⟩
        have inside : n < names.length := by omega
        rw [hn, List.take_succ_eq_append_getElem inside, pushComponent_up_concat,
          List.reverse_reverse, Nat.sub_succ, hn, Nat.pred_succ]
      · simp [Nat.sub_eq_zero_of_le none, Nat.sub_eq_zero_of_le (Nat.le_succ_of_le none),
          pushComponent]
  rw [climb, ← List.append_assoc, normalComponents_append_names, up]
  simp

theorem isAt_normalize (h : normalComponents p.components = .root :: names.map .name) :
    p.normalize.IsAt names :=
  ⟨isNormal_normalize p, (components_normalize p).trans h⟩

namespace IsAt

theorem startsWith_iff {base : List String} (hd : d.IsAt base) (hp : p.IsAt names) :
    p.startsWith d = true ↔ base <+: names := by
  rw [startsWith, List.isPrefixOf_iff_prefix, hd.components_eq, hp.components_eq,
    List.cons_prefix_cons,
    List.prefix_map_iff_of_injective fun _ _ => Component.name.inj]
  simp

theorem isPart_of_mem_seenFrom (hp : p.IsAt names) (base : List String) :
    ∀ c ∈ climb (seenFrom base names).1 (seenFrom base names).2, c.IsPart :=
  isPart_of_mem_climb _ fun _ hs => hp.isPart (mem_of_mem_seenFrom hs)

/-- A relative path is written as climbs and names. -/
theorem toList_relativeTo {base : List String} (hd : d.IsAt base) (hp : p.IsAt names) :
    (p.relativeTo d).text.toList = joinSlash
      ((climb (seenFrom base names).1 (seenFrom base names).2).map fun c => c.text.toList) := by
  by_cases below : base <+: names
  · obtain ⟨own, rfl⟩ := below
    rw [seenFrom_append]
    have spelled : (climb 0 own).map (fun c => c.text.toList) = own.map String.toList := by
      simp [climb, Component.text]
    rw [spelled]
    by_cases hown : own = []
    · have same : p = d := hp.path_eq (by simpa [hown] using hd)
      simp [same, hown, relativeTo, hd.stripPrefix?_self, joinSlash]
    · exact Path.toList_relativeTo hp.normal hd.components_eq hp.components_eq hown
  · have outside : p.stripPrefix? d = none := by
      rw [← hd.startsWith_iff hp] at below
      rw [stripPrefix?, if_neg below]
    have seen : p.relativeTo d =
        ofComponents (climb (seenFrom base names).1 (seenFrom base names).2) := by
      rw [relativeTo, outside]
      simp only [hd.components_eq, hp.components_eq, commonPrefix, if_true, List.length_cons,
        List.length_map, Nat.add_sub_add_right, List.drop_succ_cons, climb_seenFrom]
    rw [seen]
    exact Path.toList_ofComponents (hp.isPart_of_mem_seenFrom base)

/-- A relative path is made of climbs and names. -/
theorem relativeTo_eq {base : List String} (hd : d.IsAt base) (hp : p.IsAt names) :
    p.relativeTo d = ofComponents (climb (seenFrom base names).1 (seenFrom base names).2) := by
  apply eq_of_toList
  rw [hd.toList_relativeTo hp, Path.toList_ofComponents (hp.isPart_of_mem_seenFrom base)]

theorem components_relativeTo {base : List String} (hd : d.IsAt base) (hp : p.IsAt names) :
    (p.relativeTo d).components = climb (seenFrom base names).1 (seenFrom base names).2 := by
  rw [hd.relativeTo_eq hp]
  exact components_ofComponents ⟨_, hp.isPart_of_mem_seenFrom base, .inl rfl⟩

example : relativeTo ⟨"/a/c/e"⟩ ⟨"/a/b/d"⟩ = ⟨"../../c/e"⟩ := by
  decide +kernel

theorem isAbsolute_relativeTo {base : List String} (hd : d.IsAt base) (hp : p.IsAt names) :
    (p.relativeTo d).isAbsolute = false := by
  rw [Bool.eq_false_iff]
  intro absolute
  -- behind a root there would have to be one among the climbs and names
  obtain ⟨rest, rooted⟩ := isAbsolute_iff.mp absolute
  rw [hd.components_relativeTo hp] at rooted
  have root : .root ∈ climb (seenFrom base names).1 (seenFrom base names).2 := by
    rw [rooted]
    exact List.mem_cons_self
  simp [climb] at root

/-- The climbs are for what the directory does not share with the path, whose own components follow. -/
theorem climb_eq {base : List String} (hd : d.IsAt base) (hp : p.IsAt names) :
    climb (seenFrom base names).1 (seenFrom base names).2 =
      List.replicate (d.components.drop (commonPrefix p.components d.components)).length .up ++
        p.components.drop (commonPrefix p.components d.components) := by
  have seen := climb_seenFrom base names
  rw [hd.components_eq, hp.components_eq, List.length_drop]
  simp only [commonPrefix, if_true, List.length_cons, List.length_map, Nat.add_sub_add_right,
    List.drop_succ_cons]
  exact seen.symm

/-- Joining with nothing changes nothing but the spelling. -/
theorem normalize_join_empty (hd : d.IsAt names) : (d.join ⟨""⟩).normalize = d := by
  obtain ⟨body, text⟩ := exists_toList_of_isAbsolute hd.absolute
  have nonempty : d.text ≠ "" := fun empty => by simp [empty] at text
  have same : (d.join ⟨""⟩).Same d := by
    have joined := components_join_of_relative (q := ⟨""⟩) nonempty (by decide)
    have nothing : (splitSlash "".toList).filterMap componentOf = [] := by decide
    rw [nothing, List.append_nil] at joined
    exact joined
  rw [same.normalize_eq]
  exact hd.normal

/-- Climbs and names that are joined with a directory. -/
theorem normalize_join {climbs : Nat} (hd : d.IsAt names) (nonempty : climb climbs own ≠ [])
    (parts : ∀ s ∈ own, (Component.name s).IsPart)
    (hq : q.text.toList = joinSlash ((climb climbs own).map fun c => c.text.toList)) :
    (d.join q).normalize.IsAt (names.take (names.length - climbs) ++ own) := by
  have hparts := isPart_of_mem_climb climbs parts
  apply isAt_normalize
  rw [components_join d (lead_parts nonempty hparts hq), components_of_parts nonempty hparts hq,
    hd.components_eq, normalComponents_climb]

end IsAt

/-- What leads from a directory to a path leads back to the path. -/
theorem IsAt.normalize_join_relativeTo {base : List String} (hd : d.IsAt base) (hp : p.IsAt names) :
    (d.join (p.relativeTo d)).normalize = p := by
  have text := hd.toList_relativeTo hp
  have way := (take_append_seenFrom base names).2
  -- nothing is left exactly if the path is the directory itself
  by_cases nonempty : climb (seenFrom base names).1 (seenFrom base names).2 = []
  · have empty : p.relativeTo d = ⟨""⟩ := eq_of_toList (by rw [text, nonempty]; rfl)
    obtain ⟨none, nil⟩ := List.append_eq_nil_iff.mp nonempty
    rw [List.replicate_eq_nil_iff] at none
    rw [none, List.map_eq_nil_iff.mp nil, Nat.sub_zero, List.take_length, List.append_nil] at way
    rw [empty, hd.normalize_join_empty]
    exact (way ▸ hd).path_eq hp
  · have joined := hd.normalize_join nonempty (fun s hs => hp.isPart (mem_of_mem_seenFrom hs)) text
    rw [way] at joined
    exact joined.path_eq hp

/-- There are no climbs exactly if all of the directory is shared. -/
theorem up_notMem_iff {ds ps common above own : List Component} (hds : ds = common ++ above)
    (hps : ps = common ++ own) (longest : ∀ cs, cs <+: ds → cs <+: ps → cs <+: common)
    (down : .up ∉ own) : .up ∉ List.replicate above.length .up ++ own ↔ ds <+: ps := by
  constructor
  · intro level
    have none : above = [] := by
      cases above with
      | nil => rfl
      | cons c above => simp [List.replicate_succ] at level
    rw [hds, hps, none, List.append_nil]
    exact List.prefix_append common own
  · intro inside
    have shared := (longest ds (List.prefix_refl ds) inside).length_le
    have none : above.length = 0 := by
      rw [hds, List.length_append] at shared
      omega
    rw [none]
    exact down

/-- A path as it is seen from a directory leads back to it. It climbs out of those components of the
directory that are not shared, no more being shared than what both begin with, and goes on with those
of the path; so it climbs nowhere exactly if the path is the directory or below it. -/
theorem relativeTo_leads_back (hp : p.IsNormal) (absolute : p.isAbsolute = true) (hd : d.IsNormal)
    (absolute' : d.isAbsolute = true) :
    (d.join (p.relativeTo d)).normalize = p ∧
      (p.relativeTo d).isAbsolute = false ∧
      (∃ common above own, d.components = common ++ above ∧ p.components = common ++ own ∧
        (∀ cs, cs <+: d.components → cs <+: p.components → cs <+: common) ∧
        p.relativeTo d = ofComponents (List.replicate above.length .up ++ own) ∧
        (p.relativeTo d).components = List.replicate above.length .up ++ own) ∧
      (.up ∉ (p.relativeTo d).components ↔ d.components <+: p.components) := by
  obtain ⟨names, hp⟩ := hp.exists_isAt absolute
  obtain ⟨base, hd⟩ := hd.exists_isAt absolute'
  have seen := hd.relativeTo_eq hp
  have components := hd.components_relativeTo hp
  rw [hd.climb_eq hp] at seen components
  have shared := take_commonPrefix p.components d.components
  have longest : ∀ cs, cs <+: d.components → cs <+: p.components →
      cs <+: p.components.take (commonPrefix p.components d.components) :=
    fun cs left right => prefix_take_commonPrefix right left
  generalize commonPrefix p.components d.components = n at seen components shared longest
  have hp' : p.components = p.components.take n ++ p.components.drop n := by
    rw [List.take_append_drop]
  have hd' : d.components = p.components.take n ++ d.components.drop n := by
    rw [shared, List.take_append_drop]
  have down : .up ∉ p.components.drop n := by
    intro up
    have up := List.mem_of_mem_drop up
    rw [hp.components_eq] at up
    simp at up
  refine ⟨hd.normalize_join_relativeTo hp, hd.isAbsolute_relativeTo hp,
    ⟨_, _, _, hd', hp', longest, seen, components⟩, ?_⟩
  rw [components]
  exact up_notMem_iff hd' hp' longest down

/-- Two directories up, and down another way. -/
theorem relativeTo_leads_back_beside :
    (relativeTo ⟨"/app/lib/x.ts"⟩ ⟨"/app/src/gen"⟩).text = "../../lib/x.ts" ∧
      (join ⟨"/app/src/gen"⟩ (relativeTo ⟨"/app/lib/x.ts"⟩ ⟨"/app/src/gen"⟩)).normalize =
        ⟨"/app/lib/x.ts"⟩ := by
  have settled : IsNormal ⟨"/app/lib/x.ts"⟩ ∧ IsNormal ⟨"/app/src/gen"⟩ := by decide +kernel
  have leads := relativeTo_leads_back settled.1 (by decide +kernel) settled.2 (by decide +kernel)
  exact ⟨by decide +kernel, leads.1⟩

end Precompile.Path
