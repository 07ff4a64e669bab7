import Precompile.Proofs.Sources.Tree

/-!
# What a directory lists

Over files in memory, a directory is a beginning of the paths of files, in memory or written, and
it lists the paths of which some file goes on with one more name. So the three questions that are
asked of a cache agree (`SourceCache.listingAgrees`): a directory lists the files and directories
that lie in it, and it is there exactly if it lists something.
-/

namespace Precompile

open Precompile.Path (IsAt)

/-! ### Files in memory as they come about -/

/-- Files that came to be in memory one after the other. -/
inductive MemoryFiles.Made : MemoryFiles → Prop where
  | empty : Made .empty
  | insert {m : MemoryFiles} (p : Path) (content : String) : Made m → Made (m.insert p content)
  | erase {m : MemoryFiles} (p : Path) : Made m → Made (m.erase p)
  | holdBack {m : MemoryFiles} (p : Path) : Made m → Made (m.holdBack p)
  | release {m : MemoryFiles} (p : Path) : Made m → Made (m.release p)

theorem MemoryFiles.Made.hasNormalKeys {m : MemoryFiles} (made : m.Made) :
    FileSystem.HasNormalKeys (.memory m) := by
  induction made with
  | empty => exact nofun
  | insert p content _ normal => exact normal.insert p content
  | erase p _ normal => exact normal.erase p
  | holdBack p _ normal => exact normal
  | release p _ normal => exact normal

/-- Where a call changes the files, these are files in memory again. -/
def CacheCall.StaysInMemory (call : CacheCall) : Prop :=
  ∀ files, call = .edit files → ∃ m : MemoryFiles, files = .memory m ∧ m.Made

namespace SourceCache

variable {c : SourceCache} {m : MemoryFiles} {d p : Path} {names : List String}

/-! ### The files behind a listing -/

/-- A file lies at the path in memory, or was written there. -/
def Stores (m : MemoryFiles) (c : SourceCache) (p : Path) : Prop :=
  p ∈ m.files.keys ∨ p ∈ c.unread.entries.keys

theorem Stores.isNormal (stored : Stores m c p) (normal : c.HasNormalKeys)
    (backed : c.files = .memory m) : p.IsNormal := by
  rcases stored with there | written
  · have files := normal.files
    rw [backed] at files
    exact files p there
  · obtain ⟨e, hmem⟩ := OrderedMap.mem_keys.mp written
    exact normal.entries p (OrderedMap.mem_keys.mpr ⟨e, List.mem_of_mem_filter hmem⟩)

theorem isDir_iff_stores (backed : c.files = .memory m) (hp : p.IsNormal) :
    c.isDir p = true ↔ ∃ k, Stores m c k ∧ p.Below k := by
  have there : c.files.isDir p = true ↔ ∃ k ∈ m.files.keys, p.Below k := by
    rw [backed]
    exact MemoryFiles.isDir_iff hp
  rw [isDir_iff hp, there]
  simp only [mem_writtenBelow, Stores, or_and_right, exists_or]

theorem mem_list_iff_stores (normal : c.HasNormalKeys) (backed : c.files = .memory m)
    (hd : d.IsAt names) :
    p ∈ c.list d ↔ ∃ k, Stores m c k ∧ MemoryFiles.childOf? d k = some p := by
  have files := normal.files
  rw [backed] at files
  have below : ∀ {q}, q ∈ c.unread.entries.keys → MemoryFiles.childOf? d q = some p → d.Below q :=
    fun written => MemoryFiles.below_of_childOf? hd (Stores.isNormal (.inr written) normal backed)
  rw [mem_list_iff normal hd, backed, FileSystem.mem_children_memory_iff files hd]
  constructor
  · rintro (⟨k, there, child⟩ | ⟨k, written, child⟩)
    · exact ⟨k, .inl there, child⟩
    · exact ⟨k, .inr (mem_writtenBelow.mp written).1, child⟩
  · rintro ⟨k, there | written, child⟩
    · exact .inl ⟨k, there, child⟩
    · exact .inr ⟨k, mem_writtenBelow.mpr ⟨written, below written child⟩, child⟩

/-- Every text that was read and is still held is that of a file. -/
def HoldsFiles (c : SourceCache) : Prop :=
  ∀ e ∈ c.entries.entries, e.2.isWritten = false → c.files.isFile e.1 = true

theorem isFile_iff_stores (normal : c.HasNormalKeys) (backed : c.files = .memory m)
    (held : c.HoldsFiles) (hp : p.IsNormal) : c.isFile p = true ↔ Stores m c p := by
  have files := normal.files
  rw [backed] at files
  have isFile : ∀ {q : Path}, q.IsNormal → (c.files.isFile q = true ↔ q ∈ m.files.keys) := by
    intro q hq
    rw [PathMap.HasNormalKeys.mem_keys_iff files, and_iff_right hq, backed]
    simp only [FileSystem.isFile, MemoryFiles.isFile, show q.normalize = q from hq]
  have hp' : p.normalize = p := hp
  rw [SourceCache.isFile, hp', Bool.or_eq_true, isFile hp, Stores]
  constructor
  · rintro (holds | there)
    · obtain ⟨q, hq, same⟩ := OrderedMap.exists_mem_keys holds
      obtain rfl : q = p := (normal.entries q hq).eq_of_same hp same
      obtain ⟨e, hmem⟩ := OrderedMap.mem_keys.mp hq
      cases written : e.isWritten with
      | true => exact .inr (OrderedMap.mem_keys.mpr ⟨e, List.mem_filter.mpr ⟨hmem, written⟩⟩)
      | false => exact .inl ((isFile hp).mp (held _ hmem written))
    · exact .inl there
  · rintro (there | written)
    · exact .inr there
    · obtain ⟨e, hmem⟩ := OrderedMap.mem_keys.mp written
      exact .inl (OrderedMap.contains_iff.mpr ⟨(p, e), List.mem_of_mem_filter hmem, rfl⟩)

/-! ### The three questions -/

/-- What a directory lists agrees with what there is. -/
structure ListingAgrees (c : SourceCache) : Prop where
  -- A directory lists the files and directories in it and nothing else.
  mem_list_iff : ∀ d p : Path, d.isAbsolute = true → d.IsNormal → (p ∈ c.list d ↔
    (p.isAbsolute = true ∧ p.IsNormal ∧ p.parent? = some d) ∧
      (c.isFile p = true ∨ c.isDir p = true))
  -- It is there exactly if it lists something.
  isDir_iff : ∀ d : Path, d.isAbsolute = true → d.IsNormal →
    (c.isDir d = true ↔ c.list d ≠ [])
  -- The list is in strict order, and so names no path twice.
  sorted : ∀ d, (c.list d).Pairwise (· < ·)
  once : ∀ d, (c.list d).Pairwise fun p q => ¬ p.Same q

theorem pairwise_list (c : SourceCache) (d : Path) : (c.list d).Pairwise (· < ·) :=
  Path.pairwise_sortDedup _

/-- A path with one more name than a directory is listed there if a file lies at it or below it. -/
theorem mem_list_iff_of_isAt (normal : c.HasNormalKeys) (backed : c.files = .memory m)
    (held : c.HoldsFiles) (hd : d.IsAt names) {s : String} (hp : p.IsAt (names ++ [s])) :
    p ∈ c.list d ↔ c.isFile p = true ∨ c.isDir p = true := by
  rw [mem_list_iff_stores normal backed hd, isFile_iff_stores normal backed held hp.normal,
    isDir_iff_stores backed hp.normal]
  constructor
  · rintro ⟨k, stored, child⟩
    rcases (MemoryFiles.childOf?_eq_some_iff_below hd hp (stored.isNormal normal backed)).mp child with
      rfl | below
    · exact .inl stored
    · exact .inr ⟨k, stored, below⟩
  · rintro (stored | ⟨k, stored, below⟩)
    · exact ⟨p, stored, (MemoryFiles.childOf?_eq_some_iff_below hd hp hp.normal).mpr (.inl rfl)⟩
    · have hk := stored.isNormal normal backed
      exact ⟨k, stored, (MemoryFiles.childOf?_eq_some_iff_below hd hp hk).mpr (.inr below)⟩

theorem isDir_iff_list_ne_nil (normal : c.HasNormalKeys) (backed : c.files = .memory m)
    (hd : d.IsAt names) : c.isDir d = true ↔ c.list d ≠ [] := by
  constructor
  · intro directory
    obtain ⟨k, stored, below⟩ := (isDir_iff_stores backed hd.normal).mp directory
    obtain ⟨s, rest, hkey⟩ := (hd.below_iff (stored.isNormal normal backed)).mp below
    exact List.ne_nil_of_mem ((mem_list_iff_stores normal backed hd).mpr
      ⟨k, stored, MemoryFiles.childOf?_eq hd hkey⟩)
  · intro listed
    obtain ⟨p, hp⟩ := List.exists_mem_of_ne_nil _ listed
    exact (isTree normal).directory hd hp

theorem listingAgrees (normal : c.HasNormalKeys) (backed : c.files = .memory m)
    (held : c.HoldsFiles) : c.ListingAgrees where
  mem_list_iff := by
    intro d p absolute settled
    obtain ⟨names, hd⟩ := settled.exists_isAt absolute
    constructor
    · intro listed
      obtain ⟨s, hp⟩ := (isTree normal).child hd listed
      exact ⟨⟨hp.absolute, hp.normal, hp.parent?_eq hd⟩,
        (mem_list_iff_of_isAt normal backed held hd hp).mp listed⟩
    · rintro ⟨⟨hp, hp', parent⟩, there⟩
      obtain ⟨all, hp⟩ := hp'.exists_isAt hp
      obtain ⟨front, s, rfl, above⟩ := hp.exists_of_parent parent
      rw [above.names_eq hd] at hp
      exact (mem_list_iff_of_isAt normal backed held hd hp).mpr there
  isDir_iff := by
    intro d absolute settled
    obtain ⟨names, hd⟩ := settled.exists_isAt absolute
    exact isDir_iff_list_ne_nil normal backed hd
  sorted := c.pairwise_list
  once := by
    intro d
    refine (c.pairwise_list d).imp fun {p q} hlt same => ?_
    have hlt : p.components < q.components := hlt
    rw [show p.components = q.components from same] at hlt
    exact List.lt_irrefl _ hlt

example : (ofFiles (.memory (MemoryFiles.empty.insert ⟨"/a/b.ts"⟩ ""))).list ⟨"/"⟩ = [⟨"/a"⟩] := by
  decide +kernel

end SourceCache

/-! ### Any sequence of calls -/

namespace ParseCache

variable {m : MemoryFiles} {calls : List CacheCall}

/-- After calls that leave all files in memory, these are files in memory. -/
theorem exists_memory_run (made : m.Made) (stays : ∀ call ∈ calls, call.StaysInMemory) :
    ∃ m' : MemoryFiles, (run (.memory m) calls).2.cache.files = .memory m' ∧ m'.Made := by
  rw [(follows_run (.memory m) calls).reflects.files]
  apply List.foldlRecOn calls next
    (motive := fun s => ∃ m' : MemoryFiles, s.1.files (.memory m) = .memory m' ∧ m'.Made)
    ⟨m, rfl, made⟩
  rintro s ⟨m', files, made'⟩ call hcall
  cases call with
  | edit edited => exact stays _ hcall edited rfl
  | _ => exact ⟨m', files, made'⟩

/-- Whatever was asked of a new cache over files in memory, all paths in it are normal. -/
theorem hasNormalKeys_run (made : m.Made) (stays : ∀ call ∈ calls, call.StaysInMemory) :
    (run (.memory m) calls).2.cache.HasNormalKeys := by
  obtain ⟨m', backed, made'⟩ := exists_memory_run made stays
  refine ⟨(follows_run (.memory m) calls).reflects.normal, ?_⟩
  rw [backed]
  exact made'.hasNormalKeys

/-- Whatever was asked of a new cache over files in memory, and whatever became of these meanwhile:
as long as each text that it holds and read is that of a file, what it lists agrees with the files
and directories that it says there are. -/
theorem listingAgrees_run (made : m.Made) (stays : ∀ call ∈ calls, call.StaysInMemory)
    (held : (run (.memory m) calls).2.cache.HoldsFiles) :
    (run (.memory m) calls).2.cache.ListingAgrees := by
  obtain ⟨m', backed, -⟩ := exists_memory_run made stays
  exact SourceCache.listingAgrees (hasNormalKeys_run made stays) backed held

/-- A file that is read and then written over by one below it, another one that is written in a
directory of its own, and one that is edited into being. -/
def listedCalls : List CacheCall :=
  [.enableCaching, .read ⟨"/a/b.ts"⟩, .write ⟨"/a/b.ts/c.ts"⟩ "" false,
    .write ⟨"/d/../e/f.ts"⟩ "" true, .invalidate ⟨"/g.ts"⟩,
    .edit (.memory ((MemoryFiles.empty.insert ⟨"/a/b.ts"⟩ "").insert ⟨"/a/h"⟩ ""))]

theorem listingAgrees_listedCalls :
    let m := MemoryFiles.empty.insert ⟨"/a/b.ts"⟩ ""
    let c := (run (.memory m) listedCalls).2.cache
    m.Made ∧ (∀ call ∈ listedCalls, call.StaysInMemory) ∧ c.HoldsFiles ∧ c.ListingAgrees ∧
      c.list ⟨"/"⟩ = [⟨"/a"⟩, ⟨"/e"⟩] ∧ c.list ⟨"/a"⟩ = [⟨"/a/b.ts"⟩, ⟨"/a/h"⟩] ∧
      c.list ⟨"/a/b.ts"⟩ = [⟨"/a/b.ts/c.ts"⟩] := by
  intro m c
  have made : m.Made := .insert _ _ .empty
  have stays : ∀ call ∈ listedCalls, call.StaysInMemory := by
    rintro call hcall files rfl
    simp only [listedCalls, List.mem_cons, List.not_mem_nil, or_false, reduceCtorEq, false_or,
      CacheCall.edit.injEq] at hcall
    exact ⟨_, hcall, .insert _ _ made⟩
  have held : c.HoldsFiles := by
    unfold SourceCache.HoldsFiles
    decide +kernel
  exact ⟨made, stays, held, listingAgrees_run made stays held, by decide +kernel,
    by decide +kernel, by decide +kernel⟩

end ParseCache

end Precompile
