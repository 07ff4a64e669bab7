import Precompile.Path.Stepwise
import Precompile.Proofs.Path.Climbing

/-!
# Normal forms are canonical

A normal form is the root or climbs, and names behind them (`exists_climb_normalize`). It can be
written component by component (`normalizeStepwise_eq`), and joining needs no more of a directory
than its normal form (`normalize_join_normalize`). So all that normalizing promises holds of every
path, and of every path joined with it (`normalize_canonical`).
-/

namespace Precompile.Path

variable {p q : Path} {c : Component} {parts done : List Component}

/-! ### Written component by component -/

theorem getLast?_of_shaped (shaped : Shaped done.reverse) :
    (ofComponents done.reverse).components.getLast? = done.head? := by
  rw [components_ofComponents shaped, List.getLast?_reverse]

/-- A path is written further as the stack of its components grows and shrinks. -/
theorem extend_ofComponents (shaped : Shaped done.reverse) (hc : c.IsPart) :
    (ofComponents done.reverse).extend c = ofComponents (pushComponent done c).reverse := by
  have last := getLast?_of_shaped shaped
  have behind : ∀ c, (ofComponents done.reverse).join ⟨c.text⟩ = ofComponents (c :: done).reverse := by
    intro c
    rw [List.reverse_cons, ofComponents_concat]
  cases c with
  | root => exact behind .root
  | here => rfl
  | name s => exact behind (.name s)
  | up =>
    rw [extend, climbed?, last]
    cases done with
    | nil => exact behind .up
    | cons top rest =>
      cases top with
      | root => rfl
      | here => exact behind .up
      | up => exact behind .up
      | name s =>
        rw [List.reverse_cons] at shaped ⊢
        have part : (Component.name s).IsPart := shaped.isPart_of_mem (by simp)
        rw [List.head?_cons, parent?_ofComponents shaped part]
        rfl

theorem foldl_extend (hparts : ∀ c ∈ parts, c.IsPart) (shaped : Shaped done.reverse) :
    parts.foldl extend (ofComponents done.reverse) =
      ofComponents (parts.foldl pushComponent done).reverse := by
  induction parts generalizing done with
  | nil => rfl
  | cons c parts ih =>
    have hc := hparts c List.mem_cons_self
    rw [List.foldl_cons, List.foldl_cons, extend_ofComponents shaped hc]
    exact ih (fun d hd => hparts d (List.mem_cons_of_mem _ hd)) (shaped.push hc)

theorem normalizeStepwise_eq (p : Path) : p.normalizeStepwise = p.normalize := by
  have hparts := isPart_of_mem_pieces p
  -- what the path begins with is the bottom of the stack
  have begun : ∃ done, Shaped done.reverse ∧
      p.lead.component?.toList.foldl extend ⟨""⟩ = ofComponents done.reverse ∧
      p.lead.component?.toList.foldl pushComponent [] = done := by
    cases p.lead with
    | root => exact ⟨[.root], ⟨[], by simp, .inr rfl⟩, rfl, rfl⟩
    | here => exact ⟨[], ⟨[], by simp, .inl rfl⟩, rfl, rfl⟩
    | plain => exact ⟨[], ⟨[], by simp, .inl rfl⟩, rfl, rfl⟩
  obtain ⟨done, shaped, written, stacked⟩ := begun
  show (p.lead.component?.toList ++ p.pieces.filterMap componentOf).foldl extend ⟨""⟩ =
    ofComponents ((p.lead.component?.toList ++ p.pieces.filterMap componentOf).foldl
      pushComponent []).reverse
  rw [List.foldl_append, List.foldl_append, written, stacked]
  exact foldl_extend hparts shaped

/-! ### What normal forms look like -/

/-- Components of a relative path, the last one first, whose climbs all come before the names. -/
def Climbing (done : List Component) : Prop :=
  ∃ (climbs : Nat) (names : List String),
    done = names.map Component.name ++ List.replicate climbs .up

theorem Climbing.push (h : Climbing done) (hc : c.IsPart) : Climbing (pushComponent done c) := by
  obtain ⟨climbs, names, rfl⟩ := h
  cases c with
  | root => exact absurd hc.2 (by simp [Component.text])
  | here => exact ⟨climbs, names, rfl⟩
  | name s => exact ⟨climbs, s :: names, rfl⟩
  | up =>
    cases names with
    | nil =>
      cases climbs with
      | zero => exact ⟨1, [], rfl⟩
      | succ climbs => exact ⟨climbs + 2, [], rfl⟩
    | cons s names => exact ⟨climbs, names, rfl⟩

/-- The normal form of a relative path is climbs and names behind them. -/
theorem normalComponents_of_relative (h : p.isAbsolute = false) :
    ∃ climbs names, normalComponents p.components = climb climbs names := by
  have hlead : p.lead ≠ .root := of_decide_eq_false h
  have climbing : Climbing (p.components.foldl pushComponent []) := by
    have begun : p.lead.component?.toList.foldl pushComponent [] = [] := by
      cases hp : p.lead with
      | root => exact absurd hp hlead
      | here => rfl
      | plain => rfl
    show Climbing ((p.lead.component?.toList ++ p.pieces.filterMap componentOf).foldl _ _)
    rw [List.foldl_append, begun]
    apply List.foldlRecOn _ pushComponent (⟨0, [], rfl⟩ : Climbing [])
    intro done climbing c hc
    exact climbing.push (isPart_of_mem_pieces p c hc)
  obtain ⟨climbs, names, hdone⟩ := climbing
  exact ⟨climbs, names.reverse, by simp [normalComponents, hdone, climb]⟩

/-- A normal form is the root or climbs, and names behind them. -/
theorem exists_climb_normalize (p : Path) : ∃ (climbs : Nat) (names : List String),
    p.normalize.components =
      (if p.isAbsolute then [.root] else List.replicate climbs .up) ++ names.map .name := by
  rw [components_normalize]
  cases h : p.isAbsolute with
  | true =>
    obtain ⟨names, hnames⟩ := normalComponents_of_isAbsolute h
    exact ⟨0, names, by simpa using hnames⟩
  | false =>
    obtain ⟨climbs, names, hcs⟩ := normalComponents_of_relative h
    exact ⟨climbs, names, by simpa [climb] using hcs⟩

theorem isAbsolute_normalize_eq (p : Path) : p.normalize.isAbsolute = p.isAbsolute := by
  obtain ⟨climbs, names, hcs⟩ := exists_climb_normalize p
  cases h : p.isAbsolute with
  | true => exact isAbsolute_normalize h
  | false =>
    -- neither a climb nor a name is the root
    rw [Bool.eq_false_iff]
    intro absolute
    obtain ⟨rest, hrest⟩ := isAbsolute_iff.mp absolute
    have root : Component.root ∈ p.normalize.components := by simp [hrest]
    rw [hcs, h] at root
    simp at root

/-! ### Joining -/

/-- What is read behind the components of a directory finds them settled. -/
theorem normalComponents_append_congr {cs ds : List Component}
    (h : normalComponents cs = normalComponents ds) (rest : List Component) :
    normalComponents (cs ++ rest) = normalComponents (ds ++ rest) := by
  rw [normalComponents_append, normalComponents_append, h]

/-- A `.` that a relative path begins with does not count. -/
theorem normalComponents_of_splitSlash (h : q.isAbsolute = false) :
    normalComponents q.components =
      normalComponents ((splitSlash q.text.toList).filterMap componentOf) := by
  have hlead : q.lead ≠ .root := of_decide_eq_false h
  cases hq : q.lead with
  | root => exact absurd hq hlead
  | plain => rw [components_of_plain hq]
  | here =>
    have split : splitSlash q.text.toList = ['.'] :: q.pieces := by
      unfold lead at hq
      unfold pieces
      unfold cut at hq ⊢
      split at hq
      · cases hq
      · split at hq
        next heq => simpa using heq
        next => cases hq
    show normalComponents (q.lead.component?.toList ++ q.pieces.filterMap componentOf) = _
    rw [hq, split]
    rfl

/-- Joining needs no more of a directory than its normal form. -/
theorem normalize_join_normalize (p q : Path) : (p.normalize.join q).normalize = (p.join q).normalize := by
  cases hq : q.isAbsolute with
  | true => simp [join, hq]
  | false =>
    by_cases hp : p.text = ""
    · have empty : p = ⟨""⟩ := eq_of_toList (by rw [hp])
      rw [empty]
      rfl
    refine congrArg ofComponents ?_
    rw [components_join_of_relative hp hq]
    by_cases hempty : p.normalize.text = ""
    · -- nothing is left of the directory
      have empty : p.normalize = ⟨""⟩ := eq_of_toList (by rw [hempty])
      have none : normalComponents p.components = normalComponents [] := by
        rw [← components_normalize, empty, components_empty]
        rfl
      have join : (p.normalize.join q).components = q.components := by
        rw [empty]
        simp [Path.join, hq]
      rw [join, normalComponents_of_splitSlash hq, normalComponents_append_congr none, List.nil_append]
    · rw [components_join_of_relative hempty hq, components_normalize]
      exact normalComponents_append_congr (normalComponents_idem p.components) _

/-! ### Canonical paths -/

/-- Normalizing gives a canonical form: it is reached at once; nothing but the root or climbs comes
before its names, according to whether the path is absolute; it is all that joining needs of a
directory; and it is what reading the components with a stack leaves, also when the path is written
as they are read. -/
theorem normalize_canonical (p q : Path) :
    p.normalize.normalize = p.normalize ∧
      (∃ (climbs : Nat) (names : List String), p.normalize.components =
        (if p.isAbsolute then [.root] else List.replicate climbs .up) ++ names.map .name) ∧
      p.normalize.isAbsolute = p.isAbsolute ∧
      (p.join q).normalize = (p.normalize.join q).normalize ∧
      p.normalize.components = (p.components.foldl pushComponent []).reverse ∧
      p.normalizeStepwise = p.normalize :=
  ⟨normalize_normalize p, exists_climb_normalize p, isAbsolute_normalize_eq p,
    (normalize_join_normalize p q).symm, components_normalize p, normalizeStepwise_eq p⟩

end Precompile.Path
