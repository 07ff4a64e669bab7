import Mathlib.Data.List.Pairwise
import Mathlib.Data.List.Sort
import Precompile.OrderedMap

/-!
What is found in an ordered map.

Each operation is described by what is found at a key afterwards. Two maps in which the same is found
at every key are equal, and a map has room for as many different keys as it has entries.
-/

namespace Precompile.OrderedMap

variable {κ ρ α : Type} [LT ρ] {key : κ → ρ}

theorem mem_keys {m : OrderedMap key α} {k : κ} : k ∈ m.keys ↔ ∃ v, (k, v) ∈ m.entries := by
  simp [keys]

/-- Entries with one key are one entry. -/
theorem eq_of_key_eq [StrictLinear ρ] {m : OrderedMap key α} {e f : κ × α} (he : e ∈ m.entries)
    (hf : f ∈ m.entries) (h : key e.1 = key f.1) : e = f := by
  -- the entries are strictly sorted, so two of them with one key cannot be apart
  have apart : m.entries.Pairwise fun a b => key a.1 = key b.1 → a = b :=
    m.sorted.imp fun hlt heq => absurd (heq ▸ hlt) (StrictLinear.irrefl _)
  have symm : Std.Symm fun a b : κ × α => key a.1 = key b.1 → a = b :=
    ⟨fun _ _ hab hba => (hab hba.symm).symm⟩
  exact apart.forall_of_forall (fun _ _ _ => rfl) he hf h

variable [DecidableEq ρ]

/-! ### Looking up -/

theorem get?_congr (m : OrderedMap key α) {k k' : κ} (h : key k = key k') :
    m.get? k = m.get? k' := by
  simp only [get?, find?, h]

theorem contains_congr (m : OrderedMap key α) {k k' : κ} (h : key k = key k') :
    m.contains k = m.contains k' := by
  simp only [contains, find?, h]

theorem contains_eq_isSome_get? (m : OrderedMap key α) (k : κ) :
    m.contains k = (m.get? k).isSome := by
  simp only [contains, get?, Option.isSome_map]

theorem contains_iff {m : OrderedMap key α} {k : κ} :
    m.contains k = true ↔ ∃ e ∈ m.entries, key e.1 = key k := by
  simp [contains, find?, List.find?_isSome]

example : ((empty : TextMap Nat).insert "b" 1).contains "b" = true := by
  decide +kernel

theorem contains_of_mem {m : OrderedMap key α} {e : κ × α} (h : e ∈ m.entries) :
    m.contains e.1 = true :=
  contains_iff.mpr ⟨e, h, rfl⟩

theorem contains_of_get? {m : OrderedMap key α} {k : κ} {v : α} (h : m.get? k = some v) :
    m.contains k = true := by
  rw [contains_eq_isSome_get?, h]
  rfl

theorem get?_eq_none_iff {m : OrderedMap key α} {k : κ} :
    m.get? k = none ↔ m.contains k = false := by
  rw [contains_eq_isSome_get?]
  cases m.get? k <;> simp

/-- A key that is there is listed in the spelling that it came with first. -/
theorem exists_mem_keys {m : OrderedMap key α} {k : κ} (h : m.contains k = true) :
    ∃ q ∈ m.keys, key q = key k := by
  obtain ⟨e, he, hkey⟩ := contains_iff.mp h
  exact ⟨e.1, List.mem_map_of_mem he, hkey⟩

theorem mem_keys_of_erase {m : OrderedMap key α} {k k' : κ} (h : k' ∈ (m.erase k).keys) :
    k' ∈ m.keys := by
  obtain ⟨v, hmem⟩ := mem_keys.mp h
  exact mem_keys.mpr ⟨v, List.mem_of_mem_filter hmem⟩

@[simp] theorem get?_empty (k : κ) : (empty : OrderedMap key α).get? k = none := rfl

@[simp] theorem contains_empty (k : κ) : (empty : OrderedMap key α).contains k = false := rfl

section Unique

variable [StrictLinear ρ]

theorem find?_eq_some_iff {m : OrderedMap key α} {k : κ} {e : κ × α} :
    m.find? k = some e ↔ e ∈ m.entries ∧ key e.1 = key k := by
  constructor
  · intro h
    exact ⟨List.mem_of_find?_eq_some h, by simpa using List.find?_some h⟩
  · rintro ⟨he, hk⟩
    have found : (m.find? k).isSome = true := contains_iff.mpr ⟨e, he, hk⟩
    obtain ⟨f, hf⟩ := Option.isSome_iff_exists.mp found
    have hfk : key f.1 = key k := by simpa using List.find?_some hf
    rw [hf, eq_of_key_eq (List.mem_of_find?_eq_some hf) he (hfk.trans hk.symm)]

theorem get?_eq_some_iff {m : OrderedMap key α} {k : κ} {v : α} :
    m.get? k = some v ↔ ∃ q, (q, v) ∈ m.entries ∧ key q = key k := by
  simp only [get?, Option.map_eq_some_iff, find?_eq_some_iff, Prod.exists]
  constructor
  · rintro ⟨q, w, found, rfl⟩
    exact ⟨q, found⟩
  · rintro ⟨q, found⟩
    exact ⟨q, v, found, rfl⟩

theorem mem_entries_iff {m : OrderedMap key α} {k : κ} {v : α} :
    (k, v) ∈ m.entries ↔ k ∈ m.keys ∧ m.get? k = some v := by
  constructor
  · intro there
    exact ⟨mem_keys.mpr ⟨v, there⟩, get?_eq_some_iff.mpr ⟨k, there, rfl⟩⟩
  · rintro ⟨there, found⟩
    obtain ⟨w, hw⟩ := mem_keys.mp there
    obtain ⟨q, hq, hkey⟩ := get?_eq_some_iff.mp found
    cases eq_of_key_eq hq hw hkey
    exact hw

/-- Two maps with the same entries at every key are equal. -/
theorem ext_find? {m n : OrderedMap key α} (h : ∀ k, m.find? k = n.find? k) : m = n := by
  -- two sorted lists with the same members are equal
  have mem (e : κ × α) : e ∈ m.entries ↔ e ∈ n.entries := by
    have hm := find?_eq_some_iff (m := m) (k := e.1) (e := e)
    have hn := find?_eq_some_iff (m := n) (k := e.1) (e := e)
    simp only [and_true] at hm hn
    rw [← hm, ← hn, h]
  have irrefl : Std.Irrefl fun a b : κ × α => key a.1 < key b.1 :=
    ⟨fun a => StrictLinear.irrefl (key a.1)⟩
  have antisymm : Std.Antisymm fun a b : κ × α => key a.1 < key b.1 :=
    ⟨fun a b hab hba => absurd (StrictLinear.trans hab hba) (StrictLinear.irrefl _)⟩
  exact ext (List.Pairwise.eq_of_mem_iff m.sorted n.sorted mem)

end Unique

/-! ### Inserting -/

section Insert

variable [DecidableLT ρ]

theorem find?_insertEntry_self (k : κ) (v : α) (es : List (κ × α)) :
    ((insertEntry key k v es).find? fun e => decide (key e.1 = key k)).map Prod.snd = some v := by
  induction es with
  | nil => simp [insertEntry]
  | cons a rest ih =>
    unfold insertEntry
    split
    · simp
    · split
      next heq => simp [heq]
      next hne => simpa [Ne.symm hne] using ih

theorem find?_insertEntry_of_ne {k k' : κ} (h : key k ≠ key k') (v : α) (es : List (κ × α)) :
    (insertEntry key k v es).find? (fun e => decide (key e.1 = key k')) =
      es.find? fun e => decide (key e.1 = key k') := by
  induction es with
  | nil => simp [insertEntry, h]
  | cons a rest ih =>
    unfold insertEntry
    split
    · simp [h]
    · split
      next heq => simp [heq ▸ h]
      next hne => simp only [List.find?_cons, ih]

section

variable [StrictLinear ρ]

/-- After an insertion the value is found at the key, and elsewhere nothing has changed. -/
theorem get?_insert (m : OrderedMap key α) (k : κ) (v : α) (k' : κ) :
    (m.insert k v).get? k' = if key k = key k' then some v else m.get? k' := by
  split
  next h =>
    rw [← get?_congr _ h]
    exact find?_insertEntry_self k v m.entries
  next h =>
    simp only [get?, find?]
    rw [show (m.insert k v).entries = insertEntry key k v m.entries from rfl,
      find?_insertEntry_of_ne h]

@[simp] theorem get?_insert_self (m : OrderedMap key α) (k : κ) (v : α) :
    (m.insert k v).get? k = some v := by
  simp [get?_insert]

theorem insertEntry_of_mem {es : List (κ × α)} (sorted : es.Pairwise fun a b => key a.1 < key b.1)
    {k : κ} {e : κ × α} (he : e ∈ es) (hkey : key e.1 = key k) :
    insertEntry key k e.2 es = es := by
  induction es with
  | nil => cases he
  | cons a rest ih =>
    obtain ⟨first, sorted⟩ := List.pairwise_cons.mp sorted
    unfold insertEntry
    rcases List.mem_cons.mp he with rfl | he
    · rw [if_neg (hkey ▸ StrictLinear.irrefl _), if_pos hkey.symm]
    · have hlt : key a.1 < key k := hkey ▸ first e he
      rw [if_neg fun hgt => StrictLinear.irrefl _ (StrictLinear.trans hlt hgt),
        if_neg fun heq => StrictLinear.irrefl _ (heq ▸ hlt), ih sorted he]

/-- Inserting what is there changes nothing. -/
theorem insert_of_get? {m : OrderedMap key α} {k : κ} {v : α} (h : m.get? k = some v) :
    m.insert k v = m := by
  obtain ⟨q, hmem, hkey⟩ := get?_eq_some_iff.mp h
  exact ext (insertEntry_of_mem m.sorted hmem hkey)

theorem contains_insert (m : OrderedMap key α) (k : κ) (v : α) (k' : κ) :
    (m.insert k v).contains k' = (decide (key k = key k') || m.contains k') := by
  simp only [contains_eq_isSome_get?, get?_insert]
  split <;> simp [*]

end

/-- An entry after an insertion is an old one, or has the value and the key, in the new spelling or
in the one it had. -/
theorem mem_insertEntry {k : κ} {v : α} {es : List (κ × α)} {e : κ × α}
    (h : e ∈ insertEntry key k v es) :
    e ∈ es ∨ e = (k, v) ∨ ∃ a ∈ es, key a.1 = key k ∧ e = (a.1, v) := by
  induction es with
  | nil => simpa [insertEntry] using h
  | cons a rest ih =>
    unfold insertEntry at h
    split at h
    · rcases List.mem_cons.mp h with rfl | h
      · exact .inr (.inl rfl)
      · exact .inl h
    · split at h
      next heq =>
        rcases List.mem_cons.mp h with rfl | h
        · exact .inr (.inr ⟨a, List.mem_cons_self, heq.symm, rfl⟩)
        · exact .inl (List.mem_cons_of_mem _ h)
      next =>
        rcases List.mem_cons.mp h with rfl | h
        · exact .inl List.mem_cons_self
        · rcases ih h with h | h | ⟨b, hb, hk, rfl⟩
          · exact .inl (List.mem_cons_of_mem _ h)
          · exact .inr (.inl h)
          · exact .inr (.inr ⟨b, List.mem_cons_of_mem _ hb, hk, rfl⟩)

variable [StrictLinear ρ]

theorem mem_keys_of_insert {m : OrderedMap key α} {k k' : κ} {v : α}
    (h : k' ∈ (m.insert k v).keys) : k' = k ∨ k' ∈ m.keys := by
  obtain ⟨w, hmem⟩ := mem_keys.mp h
  rcases mem_insertEntry hmem with hold | hnew | ⟨a, ha, -, hkept⟩
  · exact .inr (mem_keys.mpr ⟨w, hold⟩)
  · cases hnew
    exact .inl rfl
  · cases hkept
    exact .inr (mem_keys.mpr ⟨a.2, ha⟩)

theorem mem_keys_insert_of_mem {m : OrderedMap key α} {k k' : κ} {v : α}
    (there : k' ∈ m.keys) : k' ∈ (m.insert k v).keys := by
  show k' ∈ (insertEntry key k v m.entries).map Prod.fst
  replace there : k' ∈ m.entries.map Prod.fst := there
  generalize m.entries = es at there ⊢
  induction es with
  | nil => cases there
  | cons a rest ih =>
    unfold insertEntry
    split
    · exact List.mem_cons_of_mem _ there
    · -- the entry stays with its spelling, whether its value is replaced or not
      split
      · exact there
      · exact (List.mem_cons.mp there).elim (fun h => h ▸ List.mem_cons_self)
          fun h => List.mem_cons_of_mem _ (ih h)

/-- A new key is added in the spelling that it comes with. -/
theorem mem_keys_insert_iff {m : OrderedMap key α} {k k' : κ} {v : α} :
    k' ∈ (m.insert k v).keys ↔ k' ∈ m.keys ∨ k' = k ∧ m.contains k = false := by
  constructor
  · intro h
    rcases mem_keys_of_insert h with rfl | there
    · cases known : m.contains k' with
      | false => exact .inr ⟨rfl, rfl⟩
      | true =>
        -- the key is known in some spelling, which stays
        obtain ⟨q, hq, hkey⟩ := exists_mem_keys known
        obtain ⟨w, hw⟩ := mem_keys.mp h
        obtain ⟨u, hu⟩ := mem_keys.mp (mem_keys_insert_of_mem (k := k') (v := v) hq)
        cases eq_of_key_eq hu hw hkey
        exact .inl hq
    · exact .inl there
  · rintro (there | ⟨rfl, new⟩)
    · exact mem_keys_insert_of_mem there
    · have known : (m.insert k' v).contains k' = true := by simp [contains_insert]
      obtain ⟨q, hq, hkey⟩ := exists_mem_keys known
      rcases mem_keys_of_insert hq with rfl | there
      · exact hq
      · obtain ⟨w, hw⟩ := mem_keys.mp there
        rw [contains_iff.mpr ⟨_, hw, hkey⟩] at new
        cases new

theorem insertAll_nil (m : OrderedMap key α) : m.insertAll [] = m := rfl

theorem insertAll_cons (m : OrderedMap key α) (e : κ × α) (es : List (κ × α)) :
    m.insertAll (e :: es) = (m.insert e.1 e.2).insertAll es := rfl

theorem contains_insertAll (m : OrderedMap key α) (es : List (κ × α)) (k : κ) :
    (m.insertAll es).contains k = true ↔ m.contains k = true ∨ ∃ e ∈ es, key e.1 = key k := by
  induction es generalizing m with
  | nil => simp [insertAll_nil]
  | cons e es ih =>
    rw [insertAll_cons, ih, contains_insert]
    simp only [Bool.or_eq_true, decide_eq_true_eq, List.mem_cons, exists_eq_or_imp]
    tauto

/-- What is there or is inserted is found afterwards, if nothing else is inserted at its key. -/
theorem get?_insertAll_of_agree {m : OrderedMap key α} {es : List (κ × α)} {k : κ} {v : α}
    (there : m.get? k = some v ∨ (k, v) ∈ es) (agree : ∀ e ∈ es, key e.1 = key k → e.2 = v) :
    (m.insertAll es).get? k = some v := by
  induction es generalizing m with
  | nil => exact there.resolve_right List.not_mem_nil
  | cons e es ih =>
    obtain ⟨first, agree⟩ := List.forall_mem_cons.mp agree
    refine ih ?_ agree
    rw [get?_insert]
    split
    next hkey => exact .inl (congrArg some (first hkey))
    next hkey =>
      refine there.imp_right fun hmem => (List.mem_cons.mp hmem).resolve_left ?_
      rintro rfl
      exact hkey rfl

/-- Of two maps, the one whose entries are inserted wins. -/
theorem get?_insertAll_entries (m n : OrderedMap key α) (k : κ) :
    (m.insertAll n.entries).get? k = (n.get? k).or (m.get? k) := by
  obtain ⟨es, sorted⟩ := n
  simp only [get?, find?]
  induction es generalizing m with
  | nil => rfl
  | cons e es ih =>
    obtain ⟨first, sorted⟩ := List.pairwise_cons.mp sorted
    have hinsert := get?_insert m e.1 e.2 k
    simp only [get?, find?] at hinsert
    rw [insertAll_cons, ih _ sorted, hinsert, List.find?_cons]
    by_cases hkey : key e.1 = key k
    · -- no later entry has this key
      have hnone : es.find? (fun e => decide (key e.1 = key k)) = none := by
        apply List.find?_eq_none.mpr
        intro f hf
        have hlt := first f hf
        intro hfk
        rw [hkey, ← of_decide_eq_true hfk] at hlt
        exact StrictLinear.irrefl _ hlt
      simp [hkey, hnone]
    · simp [hkey]

/-- What holds of the entries and of all that is inserted holds of the entries afterwards, if it
holds of a value in either spelling of its key. -/
theorem forall_mem_insertAll {Q : κ → α → Prop}
    (spelling : ∀ {k k' v v'}, Q k v → Q k' v' → key k = key k' → Q k v') {m : OrderedMap key α}
    {es : List (κ × α)} (hm : ∀ e ∈ m.entries, Q e.1 e.2) (hes : ∀ e ∈ es, Q e.1 e.2) :
    ∀ e ∈ (m.insertAll es).entries, Q e.1 e.2 := by
  induction es generalizing m with
  | nil => exact hm
  | cons b es ih =>
    have hb := hes b List.mem_cons_self
    refine ih (fun e he => ?_) fun e he => hes e (List.mem_cons_of_mem _ he)
    rcases mem_insertEntry he with he | rfl | ⟨a, ha, hkey, rfl⟩
    · exact hm e he
    · exact hb
    · exact spelling (hm a ha) hb hkey

/-- What relates two maps at every key still does so after related values were inserted at the same
keys. -/
theorem get?_insertAll_related {ι β : Type} {R : Option α → Option β → Prop}
    {m : OrderedMap key α} {n : OrderedMap key β} (k : ι → κ) (v : ι → α) (w : ι → β) (es : List ι)
    (hm : ∀ q, R (m.get? q) (n.get? q)) (hes : ∀ i ∈ es, R (some (v i)) (some (w i))) (q : κ) :
    R ((m.insertAll (es.map fun i => (k i, v i))).get? q)
      ((n.insertAll (es.map fun i => (k i, w i))).get? q) := by
  induction es generalizing m n with
  | nil => exact hm q
  | cons i es ih =>
    refine ih (fun q => ?_) fun j hj => hes j (List.mem_cons_of_mem _ hj)
    simp only [get?_insert]
    split
    · exact hes i List.mem_cons_self
    · exact hm q

end Insert

/-! ### Removing -/

section Remove

variable [StrictLinear ρ]

/-- A filter that looks at nothing but the key in its meaning and the value. -/
theorem get?_filter (m : OrderedMap key α) (p : κ → α → Bool) (k : κ)
    (hp : ∀ q v, key q = key k → p q v = p k v) :
    (m.filter p).get? k = (m.get? k).filter (p k) := by
  ext v
  simp only [get?_eq_some_iff, Option.filter_eq_some_iff]
  constructor
  · rintro ⟨q, hq, hk⟩
    obtain ⟨hmem, hpq⟩ := List.mem_filter.mp hq
    exact ⟨⟨q, hmem, hk⟩, hp q v hk ▸ hpq⟩
  · rintro ⟨⟨q, hq, hk⟩, hpv⟩
    exact ⟨q, List.mem_filter.mpr ⟨hq, (hp q v hk).trans hpv⟩, hk⟩

/-- A filter keeps the spellings of the keys. -/
theorem mem_keys_filter_iff {m : OrderedMap key α} {k : κ} {keep : κ → α → Bool} :
    k ∈ (m.filter keep).keys ↔ k ∈ m.keys ∧ ∃ v, m.get? k = some v ∧ keep k v = true := by
  rw [mem_keys]
  constructor
  · rintro ⟨v, hv⟩
    obtain ⟨there, kept⟩ := List.mem_filter.mp hv
    obtain ⟨listed, found⟩ := mem_entries_iff.mp there
    exact ⟨listed, v, found, kept⟩
  · rintro ⟨listed, v, found, kept⟩
    exact ⟨v, List.mem_filter.mpr ⟨mem_entries_iff.mpr ⟨listed, found⟩, kept⟩⟩

/-- After a removal nothing is found at the key, and elsewhere nothing has changed. -/
theorem get?_erase (m : OrderedMap key α) (k k' : κ) :
    (m.erase k).get? k' = if key k = key k' then none else m.get? k' := by
  have same : ∀ q (v : α), key q = key k' →
      (!decide (key q = key k)) = !decide (key k' = key k) := by
    intro q _ hq
    rw [hq]
  show (m.filter fun q _ => !decide (key q = key k)).get? k' = _
  rw [get?_filter m _ k' same]
  split
  next h => cases m.get? k' <;> simp [Option.filter, h]
  next h => cases m.get? k' <;> simp [Option.filter, Ne.symm h]

theorem get?_foldl_erase (m : OrderedMap key α) {ks : List κ} {k : κ}
    (apart : ∀ q ∈ ks, key q ≠ key k) :
    (ks.foldl (fun (m : OrderedMap key α) q => m.erase q) m).get? k = m.get? k := by
  induction ks generalizing m with
  | nil => rfl
  | cons q ks ih =>
    obtain ⟨first, apart⟩ := List.forall_mem_cons.mp apart
    rw [List.foldl_cons, ih _ apart, get?_erase, if_neg first]

/-- A filter does not see the insertion of a new key that it rejects. -/
theorem filter_insert_of_absent [DecidableLT ρ] {m : OrderedMap key α} {p : κ → α → Bool} {k : κ}
    {v : α} (hp : p k v = false) (absent : m.contains k = false) :
    (m.insert k v).filter p = m.filter p := by
  have hne : ∀ e ∈ m.entries, key k ≠ key e.1 := by
    intro e he heq
    have := contains_iff.mpr ⟨e, he, heq.symm⟩
    simp [absent] at this
  refine ext ?_
  show (insertEntry key k v m.entries).filter (fun e => p e.1 e.2) = m.entries.filter _
  -- the sortedness of the entries plays no part from here on
  clear absent
  generalize m.entries = es at hne ⊢
  induction es with
  | nil => simp [insertEntry, hp]
  | cons a rest ih =>
    have hrest := ih fun e he => hne e (List.mem_cons_of_mem _ he)
    unfold insertEntry
    rw [if_neg (hne a List.mem_cons_self)]
    split
    · simp [List.filter_cons, hp]
    · simp only [List.filter_cons, hrest]

/-- Two maps whose keys have one spelling each are equal if the same value is found at every key. -/
theorem ext_get? {Q : κ → Prop} (spelling : ∀ {k k' : κ}, Q k → Q k' → key k = key k' → k = k')
    {m n : OrderedMap key α} (hm : ∀ e ∈ m.entries, Q e.1) (hn : ∀ e ∈ n.entries, Q e.1)
    (h : ∀ k, m.get? k = n.get? k) : m = n := by
  have carry : ∀ {m n : OrderedMap key α}, (∀ e ∈ m.entries, Q e.1) → (∀ e ∈ n.entries, Q e.1) →
      (∀ k, m.get? k = n.get? k) → ∀ {k e}, m.find? k = some e → n.find? k = some e := by
    intro m n hm hn h k e he
    obtain ⟨hmem, hkey⟩ := find?_eq_some_iff.mp he
    obtain ⟨q, hq, hqkey⟩ :=
      get?_eq_some_iff.mp ((h k).symm.trans (get?_eq_some_iff.mpr ⟨e.1, hmem, hkey⟩))
    -- both maps hold the key, and there is only one way to spell it
    have hqe : q = e.1 := spelling (hn _ hq) (hm _ hmem) (hqkey.trans hkey.symm)
    subst hqe
    exact find?_eq_some_iff.mpr ⟨hq, hkey⟩
  refine ext_find? fun k => ?_
  cases hmk : m.find? k with
  | some e => exact (carry hm hn h hmk).symm
  | none =>
    cases hnk : n.find? k with
    | none => rfl
    | some e => cases hmk.symm.trans (carry hn hm (fun k => (h k).symm) hnk)

theorem contains_erase (m : OrderedMap key α) (k k' : κ) :
    (m.erase k).contains k' = (!decide (key k = key k') && m.contains k') := by
  simp only [contains_eq_isSome_get?, get?_erase]
  split <;> simp [*]

end Remove

/-! ### Counting -/

/-- Different keys that are all there are no more than the entries. -/
theorem length_le_size (m : OrderedMap key α) (ks : List κ)
    (apart : ks.Pairwise fun a b => key a ≠ key b) (there : ∀ k ∈ ks, m.contains k = true) :
    ks.length ≤ m.size := by
  have nodup : (ks.map key).Nodup := List.pairwise_map.mpr apart
  have subset : ks.map key ⊆ m.entries.map fun e => key e.1 := by
    intro r hr
    obtain ⟨k, hk, rfl⟩ := List.mem_map.mp hr
    obtain ⟨e, he, hek⟩ := contains_iff.mp (there k hk)
    exact List.mem_map.mpr ⟨e, he, hek⟩
  have := (List.subperm_of_subset nodup subset).length_le
  simpa [size] using this

end Precompile.OrderedMap

namespace Precompile.OrderedSet

variable {κ ρ : Type} [LT ρ] [DecidableEq ρ] [DecidableLT ρ] [StrictLinear ρ] {key : κ → ρ}

theorem contains_insert (s : OrderedSet key) (k k' : κ) :
    (OrderedSet.insert s k).contains k' = (decide (key k = key k') || s.contains k') :=
  OrderedMap.contains_insert s k () k'

theorem contains_insert_self (s : OrderedSet key) (k : κ) :
    (OrderedSet.insert s k).contains k = true := by
  simp [contains_insert]

theorem contains_insert_of_contains {s : OrderedSet key} {k' : κ} (h : s.contains k' = true)
    (k : κ) : (OrderedSet.insert s k).contains k' = true := by
  simp [contains_insert, h]

theorem contains_insertAll (s : OrderedSet key) (ks : List κ) (k : κ) :
    (insertAll s ks).contains k = true ↔ s.contains k = true ∨ ∃ q ∈ ks, key q = key k := by
  unfold insertAll
  induction ks generalizing s with
  | nil => simp
  | cons q ks ih =>
    rw [List.foldl_cons, ih, contains_insert]
    simp only [Bool.or_eq_true, decide_eq_true_eq, List.mem_cons, exists_eq_or_imp]
    tauto

end Precompile.OrderedSet
