/-!
Finite maps kept in the order of their keys.

A key is looked up by what `key` makes of it, so that several spellings can be one key; the spelling
that came first is kept. The order is part of the type: two maps with the same entries are equal
however they were built.
-/

namespace Precompile

/-- A strict order in which any two things that neither comes before the other are equal. -/
class StrictLinear (ρ : Type) [LT ρ] : Prop where
  irrefl : ∀ a : ρ, ¬ a < a
  trans : ∀ {a b c : ρ}, a < b → b < c → a < c
  eq_of_not_lt : ∀ {a b : ρ}, ¬ a < b → ¬ b < a → a = b

instance : StrictLinear String where
  irrefl := String.lt_irrefl
  trans := String.lt_trans
  eq_of_not_lt hab hba := String.le_antisymm (String.not_lt.mp hba) (String.not_lt.mp hab)

/-- A finite map, its entries in strictly increasing order of their keys. -/
structure OrderedMap {κ ρ : Type} [LT ρ] (key : κ → ρ) (α : Type) where
  entries : List (κ × α)
  sorted : entries.Pairwise fun a b => key a.1 < key b.1

/-- A finite map from texts, ordered by code point. -/
abbrev TextMap (α : Type) := OrderedMap (fun s : String => s) α

namespace OrderedMap

variable {κ ρ α β : Type} [LT ρ] {key : κ → ρ}

def empty : OrderedMap key α := ⟨[], .nil⟩

instance : Inhabited (OrderedMap key α) := ⟨empty⟩

@[ext] theorem ext {m n : OrderedMap key α} (h : m.entries = n.entries) : m = n := by
  cases m
  cases n
  cases h
  rfl

instance [DecidableEq κ] [DecidableEq α] : DecidableEq (OrderedMap key α) := fun m n =>
  decidable_of_iff (m.entries = n.entries) ⟨ext, fun h => h ▸ rfl⟩

variable [DecidableEq ρ] [DecidableLT ρ]

/-! ### Inserting -/

/-- The entries with `v` at `k`. A key that is there already keeps its spelling. -/
def insertEntry (key : κ → ρ) (k : κ) (v : α) : List (κ × α) → List (κ × α)
  | [] => [(k, v)]
  | e :: rest =>
    if key k < key e.1 then (k, v) :: e :: rest
    else if key k = key e.1 then (e.1, v) :: rest
    else e :: insertEntry key k v rest

/-- A lower bound of the keys and of the new key bounds the keys afterwards. -/
theorem lt_of_mem_insertEntry {b : ρ} {k : κ} {v : α} {es : List (κ × α)}
    (hk : b < key k) (hes : ∀ e ∈ es, b < key e.1) :
    ∀ e ∈ insertEntry key k v es, b < key e.1 := by
  induction es with
  | nil =>
    intro e he
    simp only [insertEntry, List.mem_singleton] at he
    exact he ▸ hk
  | cons a rest ih =>
    have ha : b < key a.1 := hes a List.mem_cons_self
    have hrest : ∀ e ∈ rest, b < key e.1 := fun e he => hes e (List.mem_cons_of_mem _ he)
    intro e he
    unfold insertEntry at he
    split at he
    · rcases List.mem_cons.mp he with rfl | he
      · exact hk
      · exact hes e he
    · split at he
      · rcases List.mem_cons.mp he with rfl | he
        · exact ha
        · exact hrest e he
      · rcases List.mem_cons.mp he with rfl | he
        · exact ha
        · exact ih hrest e he

theorem sorted_insertEntry [StrictLinear ρ] (k : κ) (v : α) {es : List (κ × α)}
    (h : es.Pairwise fun a b => key a.1 < key b.1) :
    (insertEntry key k v es).Pairwise fun a b => key a.1 < key b.1 := by
  induction es with
  | nil => exact List.pairwise_singleton _ _
  | cons a rest ih =>
    have ⟨ha, hrest⟩ := List.pairwise_cons.mp h
    unfold insertEntry
    split
    next hka =>
      refine List.pairwise_cons.mpr ⟨?_, h⟩
      intro e he
      rcases List.mem_cons.mp he with rfl | he
      · exact hka
      · exact StrictLinear.trans hka (ha e he)
    next hka =>
      split
      next => exact List.pairwise_cons.mpr ⟨ha, hrest⟩
      next hne =>
        have hak : key a.1 < key k :=
          Decidable.byContradiction fun h => hne (StrictLinear.eq_of_not_lt hka h)
        exact List.pairwise_cons.mpr ⟨lt_of_mem_insertEntry hak ha, ih hrest⟩

def insert [StrictLinear ρ] (m : OrderedMap key α) (k : κ) (v : α) : OrderedMap key α :=
  ⟨insertEntry key k v m.entries, sorted_insertEntry k v m.sorted⟩

/-- The map with all the given entries inserted, one after the other. -/
def insertAll [StrictLinear ρ] (m : OrderedMap key α) (es : List (κ × α)) : OrderedMap key α :=
  es.foldl (fun m e => m.insert e.1 e.2) m

/-- The map that results from inserting the entries one after the other. -/
def ofList [StrictLinear ρ] (es : List (κ × α)) : OrderedMap key α := empty.insertAll es

/-! ### Looking up -/

/-- The entry at `k`, with the spelling of its key. -/
def find? (m : OrderedMap key α) (k : κ) : Option (κ × α) :=
  let r := key k
  m.entries.find? fun e => decide (key e.1 = r)

def get? (m : OrderedMap key α) (k : κ) : Option α := (m.find? k).map Prod.snd

def contains (m : OrderedMap key α) (k : κ) : Bool := (m.find? k).isSome

def keys (m : OrderedMap key α) : List κ := m.entries.map Prod.fst

def values (m : OrderedMap key α) : List α := m.entries.map Prod.snd

def size (m : OrderedMap key α) : Nat := m.entries.length

def isEmpty (m : OrderedMap key α) : Bool := m.entries.isEmpty

/-! ### Removing and changing -/

def filter (p : κ → α → Bool) (m : OrderedMap key α) : OrderedMap key α :=
  ⟨m.entries.filter fun e => p e.1 e.2, m.sorted.filter _⟩

def erase (m : OrderedMap key α) (k : κ) : OrderedMap key α :=
  let r := key k
  m.filter fun q _ => !decide (key q = r)

/-- The map with every value replaced by what `f` makes of it. -/
def map (f : κ → α → β) (m : OrderedMap key α) : OrderedMap key β :=
  ⟨m.entries.map fun e => (e.1, f e.1 e.2), by rw [List.pairwise_map]; exact m.sorted⟩

end OrderedMap

/-- A finite set, its members in strictly increasing order. -/
abbrev OrderedSet {κ ρ : Type} [LT ρ] (key : κ → ρ) := OrderedMap key Unit

namespace OrderedSet

variable {κ ρ : Type} [LT ρ] [DecidableEq ρ] [DecidableLT ρ] [StrictLinear ρ] {key : κ → ρ}

def insert (s : OrderedSet key) (k : κ) : OrderedSet key := OrderedMap.insert s k ()

def insertAll (s : OrderedSet key) (ks : List κ) : OrderedSet key := ks.foldl insert s

def ofList (ks : List κ) : OrderedSet key := insertAll OrderedMap.empty ks

end OrderedSet

end Precompile
