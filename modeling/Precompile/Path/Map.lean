import Precompile.OrderedMap
import Precompile.Path.Normal

/-!
Maps and sets of paths, in the order of their components.

Two spellings of one path are one key.
-/

namespace Precompile

namespace Component

theorem lt_irrefl (a : Component) : ¬ a < a := by
  rintro (h | h)
  · exact Nat.lt_irrefl _ h
  · exact String.lt_irrefl _ h.2

theorem lt_trans {a b c : Component} : a < b → b < c → a < c := by
  rintro (h | ⟨h, h'⟩) (k | ⟨k, k'⟩)
  · exact .inl (Nat.lt_trans h k)
  · exact .inl (k ▸ h)
  · exact .inl (h ▸ k)
  · exact .inr ⟨h.trans k, String.lt_trans h' k'⟩

theorem eq_of_rank_of_label {a b : Component} (hr : a.rank = b.rank) (hl : a.label = b.label) :
    a = b := by
  cases a <;> cases b <;> simp_all [rank, label]

theorem eq_of_not_lt {a b : Component} (hab : ¬ a < b) (hba : ¬ b < a) : a = b := by
  have hr : a.rank = b.rank := by
    rcases Nat.lt_trichotomy a.rank b.rank with h | h | h
    · exact absurd (.inl h) hab
    · exact h
    · exact absurd (.inl h) hba
  refine eq_of_rank_of_label hr (String.le_antisymm ?_ ?_)
  · exact String.not_lt.mp fun h => hba (.inr ⟨hr.symm, h⟩)
  · exact String.not_lt.mp fun h => hab (.inr ⟨hr, h⟩)

instance : Std.Irrefl (α := Component) (· < ·) := ⟨lt_irrefl⟩

instance : Trans (α := Component) (β := Component) (γ := Component) (· < ·) (· < ·) (· < ·) :=
  ⟨lt_trans⟩

instance : Std.Trichotomous (α := Component) (· < ·) := ⟨fun _ _ => eq_of_not_lt⟩

end Component

instance : StrictLinear (List Component) where
  irrefl := List.lt_irrefl
  trans := List.lt_trans
  eq_of_not_lt hab hba := List.le_antisymm (List.not_lt.mp hba) (List.not_lt.mp hab)

/-- A finite map from paths. -/
abbrev PathMap (α : Type) := OrderedMap Path.components α

/-- A finite set of paths. -/
abbrev PathSet := OrderedSet Path.components

namespace Path

/-- The listed paths in order, each once and in its first spelling. -/
def sortDedup (ps : List Path) : List Path := OrderedMap.keys (OrderedSet.ofList ps : PathSet)

/-- The path is among the listed ones, in whatever spelling. -/
def isAmong (p : Path) (ps : List Path) : Bool := ps.any fun q => decide (q.Same p)

/-- The number of paths, each counted together with its components. -/
def totalLength (ps : List Path) : Nat := ps.foldr (fun p n => p.components.length + 1 + n) 0

end Path

end Precompile
