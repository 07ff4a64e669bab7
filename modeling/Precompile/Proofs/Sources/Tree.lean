import Mathlib.Data.List.Infix
import Precompile.Proofs.Host.Mirror
import Precompile.Proofs.Path.Names
import Precompile.Proofs.Path.Sorted

/-!
What is listed forms a tree.

A directory lists paths with one more name than its own, only directories list anything, and a
directory is listed in the one above it (`Path.IsTree`). So it is with files in memory, on a disk,
and in a cache that has written files besides (`SourceCache.isTree`). There are no more directories
than the extent tells (`SourceCache.length_le_extent_of_isDir`), so none lies deeper than that.
-/

namespace Precompile

open Precompile.Path (IsAt)

/-! ### Trees -/

namespace Path

/-- What is listed is one name further down, only directories list anything, and each of them is
listed in the directory above it. -/
structure IsTree (isDir : Path → Bool) (list : Path → List Path) : Prop where
  child : ∀ {d p : Path} {names : List String}, d.IsAt names → p ∈ list d →
    ∃ s, p.IsAt (names ++ [s])
  directory : ∀ {d p : Path} {names : List String}, d.IsAt names → p ∈ list d → isDir d = true
  listed : ∀ {d e : Path} {names : List String} {s : String}, d.IsAt names → e.IsAt (names ++ [s]) →
    isDir e = true → e ∈ list d

namespace IsTree

variable {isDir : Path → Bool} {list : Path → List Path} {d e : Path} {names more : List String}

/-- Above a directory are directories. -/
theorem isDir_of_below (tree : IsTree isDir list) (hd : d.IsAt names) (he : e.IsAt (names ++ more))
    (directory : isDir e = true) : isDir d = true := by
  induction more using List.reverseRecOn generalizing e with
  | nil =>
    rw [List.append_nil] at he
    exact he.path_eq hd ▸ directory
  | append_singleton more s ih =>
    rw [← List.append_assoc] at he
    obtain ⟨above, habove⟩ := he.exists_front
    exact ih habove (tree.directory habove (tree.listed habove he directory))

/-- A directory has as many directories above it as it has names. -/
theorem length_lt (tree : IsTree isDir list) {extent : Nat}
    (few : ∀ ps : List Path, ps.Pairwise (fun p q => ¬ p.Same q) →
      (∀ p ∈ ps, (∃ names, p.IsAt names) ∧ isDir p = true) → ps.length ≤ extent)
    (hd : d.IsAt names) (directory : isDir d = true) : names.length < extent := by
  let above := (List.range (names.length + 1)).map fun n =>
    ofComponents (.root :: (names.take n).map .name)
  have isAt : ∀ n, (ofComponents (.root :: (names.take n).map .name)).IsAt (names.take n) :=
    fun n => isAt_ofComponents fun s hs => hd.isPart (List.mem_of_mem_take hs)
  have hlength : above.length = names.length + 1 := by simp [above]
  rw [← Nat.succ_le_iff, Nat.succ_eq_add_one, ← hlength]
  refine few above (List.pairwise_map.mpr ?_) fun p hp => ?_
  · refine List.pairwise_lt_range.imp_of_mem fun {n m} _ hm hlt same => ?_
    have := congrArg List.length ((isAt n).names_eq_of_same (isAt m) same)
    simp only [List.length_take, List.mem_range] at this hm
    omega
  · obtain ⟨n, -, rfl⟩ := List.mem_map.mp hp
    have whole : d.IsAt (names.take n ++ names.drop n) := by rwa [List.take_append_drop]
    exact ⟨⟨_, isAt n⟩, tree.isDir_of_below (isAt n) whole directory⟩

end IsTree

/-! ### Counting what lies above -/

theorem totalLength_eq (keys : List Path) :
    totalLength keys = (keys.flatMap fun k => k.components.inits).length := by
  induction keys with
  | nil => rfl
  | cons k keys ih =>
    rw [List.flatMap_cons, List.length_append, List.length_inits, ← ih]
    rfl

/-- Different paths that have something below them are no more than the components of that. -/
theorem length_le_totalLength_of_below {ps keys : List Path}
    (apart : ps.Pairwise fun p q => ¬ p.Same q) (above : ∀ p ∈ ps, ∃ k ∈ keys, p.Below k) :
    ps.length ≤ totalLength keys := by
  have nodup : (ps.map components).Nodup := List.pairwise_map.mpr apart
  have subset : ps.map components ⊆ keys.flatMap fun k => k.components.inits := by
    intro cs hcs
    obtain ⟨p, hp, rfl⟩ := List.mem_map.mp hcs
    obtain ⟨k, hk, c, rest, below⟩ := above p hp
    exact List.mem_flatMap.mpr ⟨k, hk, (List.mem_inits _ _).mpr ⟨c :: rest, below.symm⟩⟩
  rw [totalLength_eq]
  simpa using (List.subperm_of_subset nodup subset).length_le

end Path

/-! ### Files in memory -/

namespace MemoryFiles

variable {m : MemoryFiles} {d p : Path} {names : List String}

theorem isDir_iff (normal : p.IsNormal) : m.isDir p = true ↔ ∃ k ∈ m.files.keys, p.Below k := by
  have hp : p.normalize = p := normal
  rw [isDir, hp]
  cases hbelow : below p m.files.keys with
  | nil =>
    simp only [List.isEmpty_nil, Bool.not_true, Bool.false_eq_true, false_iff]
    rintro ⟨k, hk⟩
    have := mem_below.mpr hk
    rw [hbelow] at this
    cases this
  | cons k rest =>
    have hk : k ∈ below p m.files.keys := hbelow ▸ List.mem_cons_self
    simpa using ⟨k, mem_below.mp hk⟩

end MemoryFiles

/-! ### Files on a disk -/

namespace Disk

variable {disk : Disk} {d e p : Path} {names : List String} {s : String}

theorem follow_append (asked at_ : Path) (cs cs' : List Component) :
    disk.follow asked at_ (cs ++ cs') =
      (disk.follow asked at_ cs).bind fun mid => disk.follow asked mid cs' := by
  induction cs generalizing at_ with
  | nil => rfl
  | cons c cs ih =>
    simp only [List.cons_append, follow]
    cases disk.node? at_ with
    | none => rfl
    | some node =>
      cases node with
      | file content => rfl
      | directory =>
        cases c with
        | name s =>
          dsimp only
          split
          · rfl
          · exact ih _
        | _ => exact ih _

theorem isDir_iff : disk.isDir p = true ↔ ∃ place, disk.lookup p = .ok (place, .directory) := by
  unfold isDir
  split
  next place h => simp [h]
  next other =>
    simp only [Bool.false_eq_true, false_iff]
    rintro ⟨place, h⟩
    exact other place h

/-- A directory is at the end of a text that can be asked for, whose names lead there. -/
theorem lookup_eq_directory_iff {place : Path} : disk.lookup p = .ok (place, .directory) ↔
    '\x00' ∉ p.text.toList ∧ p.text.utf8ByteSize ≤ pathLimit ∧ p.isAbsolute = true ∧
      disk.follow p rootPath p.components = .ok place ∧ disk.node? place = some .directory := by
  constructor
  · intro h
    unfold lookup at h
    split at h
    · cases h
    next ends =>
      split at h
      · cases h
      next short =>
        split at h
        next absolute =>
          split at h
          · cases h
          next q followed =>
            split at h
            · cases h
            · split at h <;> cases h
            next hnode =>
              cases h
              exact ⟨by simpa using ends, Nat.not_lt.mp short, absolute, followed, hnode⟩
        · cases h
  · rintro ⟨ends, short, absolute, followed, hnode⟩
    have short : ¬ pathLimit < p.text.utf8ByteSize := Nat.not_lt.mpr short
    simp [lookup, ends, short, absolute, followed, hnode]

/-- Above a directory is a directory. -/
theorem isDir_of_isDir_child (hd : d.IsAt names) (he : e.IsAt (names ++ [s]))
    (directory : disk.isDir e = true) : disk.isDir d = true := by
  obtain ⟨place, found⟩ := isDir_iff.mp directory
  obtain ⟨ends, short, -, followed, -⟩ := lookup_eq_directory_iff.mp found
  -- the way to the directory goes through the one above it
  have split : e.components = d.components ++ [.name s] := by
    simp [he.components_eq, hd.components_eq]
  rw [split, follow_append] at followed
  cases way : disk.follow e rootPath d.components with
  | error e => simp [way, Except.bind] at followed
  | ok mid =>
    simp only [way, Except.bind] at followed
    obtain ⟨more, text⟩ := hd.text_prefix he
    have written : e.text = d.text ++ String.ofList more := by
      apply String.toList_injective
      simp [text]
    refine isDir_iff.mpr ⟨mid, lookup_eq_directory_iff.mpr ⟨fun hnul => ?_, ?_, hd.absolute, ?_, ?_⟩⟩
    · exact ends (text ▸ List.mem_append_left _ hnul)
    · rw [written, String.utf8ByteSize_append] at short
      omega
    · exact follow_of_kept (fun _ hr => hr) way
    · exact node?_of_follow_cons followed

/-- A directory other than the root is kept in the image. -/
theorem exists_key_of_isDir (he : e.IsAt names) (directory : disk.isDir e = true) :
    names = [] ∨ ∃ q ∈ disk.nodes.keys, q.Same e := by
  obtain ⟨place, found⟩ := isDir_iff.mp directory
  obtain ⟨same, hnode⟩ := same_of_lookup he.normal found
  unfold node? at hnode
  split at hnode
  next root =>
    have hroot : e.Same rootPath := same.symm.trans root
    have isRoot : rootPath.IsAt [] := ⟨by decide, by decide⟩
    exact .inl (he.names_eq_of_same isRoot hroot)
  next =>
    obtain ⟨q, hq, hkey⟩ := OrderedMap.exists_mem_keys (OrderedMap.contains_of_get? hnode)
    exact .inr ⟨q, hq, hkey.trans same⟩

end Disk

/-! ### File systems -/

namespace FileSystem

variable {files : FileSystem} {d p : Path} {names : List String}

/-- All files are kept under normal paths, and those of a disk under absolute ones. -/
def HasNormalKeys : FileSystem → Prop
  | memory m => PathMap.HasNormalKeys m.files
  | disk image => ∀ p ∈ image.nodes.keys, p.IsNormal ∧ p.isAbsolute = true

theorem HasNormalKeys.insert {m : MemoryFiles} (normal : HasNormalKeys (.memory m)) (p : Path)
    (content : String) : HasNormalKeys (.memory (m.insert p content)) :=
  PathMap.HasNormalKeys.insert normal (Path.isNormal_normalize p) content

theorem HasNormalKeys.erase {m : MemoryFiles} (normal : HasNormalKeys (.memory m)) (p : Path) :
    HasNormalKeys (.memory (m.erase p)) :=
  PathMap.HasNormalKeys.erase normal p.normalize

/-- Above an absolute normal path are such paths. -/
theorem ancestors_normal (normal : p.IsNormal) (absolute : p.isAbsolute = true) :
    ∀ d ∈ Disk.ancestors p, d.IsNormal ∧ d.isAbsolute = true := by
  obtain ⟨names, hp⟩ := normal.exists_isAt absolute
  intro d hd
  obtain ⟨n, -, hn⟩ := List.mem_filterMap.mp hd
  split at hn
  · cases hn
  next more =>
    obtain ⟨k, rfl⟩ : ∃ k, n = k + 1 := ⟨n - 1, by omega⟩
    rw [hp.components_eq, List.take_succ_cons, ← List.map_take] at hn
    have above : (Path.ofComponents (.root :: (names.take k).map .name)).IsAt (names.take k) :=
      Path.isAt_ofComponents fun s hs => hp.isPart (List.mem_of_mem_take hs)
    exact Option.some.inj hn ▸ ⟨above.normal, above.absolute⟩

theorem HasNormalKeys.write {image : Disk} (normal : HasNormalKeys (.disk image)) {p : Path}
    (absolute : p.isAbsolute = true) (content : Option String) :
    HasNormalKeys (.disk (image.write p content)) := by
  have settled := Path.isNormal_normalize p
  have rooted := Path.isAbsolute_normalize absolute
  have above : HasNormalKeys (.disk ((Disk.ancestors p.normalize).foldl Disk.makeDir image)) := by
    refine List.foldlRecOn (motive := fun image => HasNormalKeys (.disk image)) _ _ normal ?_
    intro image normal d hd
    unfold Disk.makeDir
    split
    · exact normal
    · rintro q hq
      rcases OrderedMap.mem_keys_of_insert hq with rfl | old
      · exact ancestors_normal settled rooted q hd
      · exact normal q old
  intro q hq
  rcases OrderedMap.mem_keys_of_insert hq with rfl | old
  · exact ⟨settled, rooted⟩
  · exact above q old

theorem HasNormalKeys.delete {image : Disk} (normal : HasNormalKeys (.disk image)) (p : Path) :
    HasNormalKeys (.disk (image.delete p)) :=
  fun q hq => normal q (OrderedMap.mem_keys_of_erase hq)

/-- What a directory lists, and nothing where there is none. -/
def children (files : FileSystem) (d : Path) : List Path :=
  match files.list d with
  | .ok children => children
  | .error _ => []

theorem mem_children_memory_iff {m : MemoryFiles} (normal : PathMap.HasNormalKeys m.files)
    (hd : d.IsAt names) : p ∈ children (.memory m) d ↔
      ∃ k ∈ m.files.keys, MemoryFiles.childOf? d k = some p := by
  have hnormal : d.normalize = d := hd.normal
  have children_normal : ∀ q ∈ m.files.keys.filterMap (MemoryFiles.childOf? d), q.IsNormal := by
    intro q hq
    obtain ⟨k, hk, hchild⟩ := List.mem_filterMap.mp hq
    obtain ⟨s, rest, hq, -⟩ := (MemoryFiles.childOf?_eq_some_iff hd (normal k hk)).mp hchild
    exact hq.normal
  have hlist : list (.memory m) d = if m.isDir d then
      .ok (Path.sortDedup (m.files.keys.filterMap (MemoryFiles.childOf? d)))
      else .error (.notFound d) := by
    simp only [list, MemoryFiles.list, hnormal]
  rw [children, hlist, ← List.mem_filterMap, ← Path.mem_sortDedup_iff children_normal]
  cases hdir : m.isDir d with
  | true => simp
  | false =>
    -- a file below would make it a directory
    simp only [Bool.false_eq_true, if_false, List.not_mem_nil, false_iff]
    intro hp
    obtain ⟨k, hk, hchild⟩ := List.mem_filterMap.mp (Path.mem_of_mem_sortDedup hp)
    have below := MemoryFiles.below_of_childOf? hd (normal k hk) hchild
    rw [(MemoryFiles.isDir_iff hd.normal).mpr ⟨k, hk, below⟩] at hdir
    cases hdir

theorem mem_children_disk_iff {image : Disk} (hd : d.IsAt names) :
    p ∈ children (.disk image) d ↔ image.isDir d = true ∧
      ∃ q ∈ image.nodes.keys, ∃ dir name, q.parent? = some dir ∧ dir.Same d ∧
        q.fileName? = some name ∧ p = d.join ⟨name⟩ := by
  rw [Disk.isDir_iff]
  cases hlook : image.lookup d with
  | error e => simp [children, list, Disk.list, hlook]
  | ok found =>
    obtain ⟨place, node⟩ := found
    cases node with
    | file content => simp [children, list, Disk.list, hlook]
    | directory =>
      obtain ⟨same, -⟩ := Disk.same_of_lookup hd.normal hlook
      have same_iff : ∀ dir : Path, dir.Same place ↔ dir.Same d := fun dir =>
        ⟨fun h => h.trans same, fun h => h.trans same.symm⟩
      have hlist : children (.disk image) d = image.nodes.keys.filterMap fun q =>
          if q.parent?.any fun dir => decide (dir.Same place) then
            q.fileName?.map fun name => d.join ⟨name⟩
          else none := by
        simp [children, list, Disk.list, hlook]
      simp only [hlist, List.mem_filterMap, Option.any_eq_true, decide_eq_true_eq, same_iff,
        Except.ok.injEq, Prod.mk.injEq, and_true, exists_eq', true_and]
      refine exists_congr fun q => and_congr_right fun _ => ?_
      constructor
      · intro h
        split at h
        next hdir =>
          obtain ⟨dir, hdir, hsame⟩ := hdir
          obtain ⟨name, hname, rfl⟩ := Option.map_eq_some_iff.mp h
          exact ⟨dir, name, hdir, hsame, hname, rfl⟩
        next => cases h
      · rintro ⟨dir, name, hdir, hsame, hname, rfl⟩
        rw [if_pos ⟨dir, hdir, hsame⟩, hname]
        rfl

theorem isTree (normal : files.HasNormalKeys) : Path.IsTree files.isDir files.children := by
  cases files with
  | memory m =>
    refine ⟨fun hd hp => ?_, fun hd hp => ?_, fun {d e names s} hd he directory => ?_⟩
    · obtain ⟨k, hk, hchild⟩ := (mem_children_memory_iff normal hd).mp hp
      obtain ⟨s, rest, hp, -⟩ := (MemoryFiles.childOf?_eq_some_iff hd (normal k hk)).mp hchild
      exact ⟨s, hp⟩
    · obtain ⟨k, hk, hchild⟩ := (mem_children_memory_iff normal hd).mp hp
      exact (MemoryFiles.isDir_iff hd.normal).mpr
        ⟨k, hk, MemoryFiles.below_of_childOf? hd (normal k hk) hchild⟩
    · obtain ⟨k, hk, below⟩ := (MemoryFiles.isDir_iff he.normal).mp directory
      obtain ⟨t, rest, hkey⟩ := (he.below_iff (normal k hk)).mp below
      rw [List.append_assoc] at hkey
      exact (mem_children_memory_iff normal hd).mpr
        ⟨k, hk, (MemoryFiles.childOf?_eq_some_iff hd (normal k hk)).mpr ⟨s, _, he, hkey⟩⟩
  | disk image =>
    refine ⟨fun hd hp => ?_, fun hd hp => ?_, fun {d e names s} hd he directory => ?_⟩
    · obtain ⟨-, q, hq, -, name, -, -, hname, rfl⟩ := (mem_children_disk_iff hd).mp hp
      obtain ⟨hnormal, -⟩ := normal q hq
      have hmem : Component.name name ∈ q.components := by
        unfold Path.fileName? at hname
        split at hname
        next last =>
          cases hname
          exact List.mem_of_getLast? last
        next => cases hname
      exact ⟨name, hd.join (hnormal.isPart_of_mem hmem)⟩
    · exact ((mem_children_disk_iff hd).mp hp).1
    · obtain ⟨q, hq, same⟩ := (Disk.exists_key_of_isDir he directory).resolve_left (by simp)
      obtain rfl : q = e := (normal q hq).1.eq_of_same he.normal same
      exact (mem_children_disk_iff hd).mpr ⟨Disk.isDir_of_isDir_child hd he directory, q, hq, d, s,
        he.parent?_eq hd, rfl, he.fileName?_eq, he.eq_join hd⟩

/-- There are no more directories than the extent tells. -/
theorem length_le_extent_of_isDir (ps : List Path) (apart : ps.Pairwise fun p q => ¬ p.Same q)
    (directories : ∀ p ∈ ps, (∃ names, p.IsAt names) ∧ files.isDir p = true) :
    ps.length ≤ files.extent := by
  cases files with
  | memory m =>
    refine Nat.le_succ_of_le (Path.length_le_totalLength_of_below apart fun p hp => ?_)
    obtain ⟨⟨names, hp⟩, directory⟩ := directories p hp
    exact (MemoryFiles.isDir_iff hp.normal).mp directory
  | disk image =>
    -- the root counts one, every other directory is kept in the image
    have kept : ∀ p ∈ ps, p.components ∈
        [Component.root] :: image.nodes.entries.map fun e => e.1.components := by
      intro p hp
      obtain ⟨⟨names, hp⟩, directory⟩ := directories p hp
      rcases Disk.exists_key_of_isDir hp directory with rfl | ⟨q, hq, same⟩
      · exact List.mem_cons.mpr (.inl hp.components_eq)
      · obtain ⟨node, hmem⟩ := OrderedMap.mem_keys.mp hq
        exact List.mem_cons_of_mem _ (List.mem_map.mpr ⟨_, hmem, same⟩)
    have nodup : (ps.map Path.components).Nodup := List.pairwise_map.mpr apart
    have subset : ps.map Path.components ⊆
        [Component.root] :: image.nodes.entries.map fun e => e.1.components := by
      intro cs hcs
      obtain ⟨p, hp, rfl⟩ := List.mem_map.mp hcs
      exact kept p hp
    simpa [extent, Disk.extent, OrderedMap.size] using (List.subperm_of_subset nodup subset).length_le

end FileSystem

/-! ### Caches -/

namespace SourceCache

variable {c : SourceCache} {d p : Path} {names : List String}

/-- Whatever is held and whatever there is to be read has a normal path. -/
structure HasNormalKeys (c : SourceCache) : Prop where
  entries : PathMap.HasNormalKeys c.entries
  files : c.files.HasNormalKeys

theorem hasNormalKeys_ofFiles {files : FileSystem} (normal : files.HasNormalKeys) :
    (ofFiles files).HasNormalKeys where
  entries := nofun
  files := normal

theorem files_after (c : SourceCache) (call : CacheCall) :
    (c.after call).files = match call with
      | .edit files => files
      | _ => c.files := by
  cases call with
  | read p => exact files_retain c p
  | source p => exact files_retain c p
  | retire dir keep => exact (dropAll_frame c _).1
  | _ => rfl

/-- No call to a cache makes a path anything but normal. -/
theorem HasNormalKeys.after (normal : c.HasNormalKeys) {call : CacheCall}
    (edited : ∀ files, call = .edit files → files.HasNormalKeys) :
    (c.after call).HasNormalKeys where
  entries := hasNormalKeys_after normal.entries call
  files := by
    rw [files_after]
    split
    next files => exact edited files rfl
    next => exact normal.files

theorem key_of_mem_writtenBelow (h : p ∈ c.writtenBelow d) : p ∈ c.entries.keys ∧ d.Below p := by
  obtain ⟨hkey, below⟩ := mem_writtenBelow.mp h
  obtain ⟨e, hmem⟩ := OrderedMap.mem_keys.mp hkey
  exact ⟨OrderedMap.mem_keys.mpr ⟨e, List.mem_of_mem_filter hmem⟩, below⟩

theorem isDir_iff (normal : p.IsNormal) :
    c.isDir p = true ↔ c.files.isDir p = true ∨ ∃ q, q ∈ c.writtenBelow p := by
  have hp : p.normalize = p := normal
  rw [isDir, hp, Bool.or_eq_true, Bool.not_eq_true', List.isEmpty_eq_false_iff_exists_mem]

theorem mem_list_iff (normal : c.HasNormalKeys) (hd : d.IsAt names) : p ∈ c.list d ↔
    p ∈ c.files.children d ∨ ∃ q ∈ c.writtenBelow d, MemoryFiles.childOf? d q = some p := by
  have hnormal : d.normalize = d := hd.normal
  have hlist : c.list d = Path.sortDedup
      (c.files.children d ++ (c.writtenBelow d).filterMap (MemoryFiles.childOf? d)) := by
    simp only [list, hnormal]
    rfl
  rw [hlist, Path.mem_sortDedup_iff, List.mem_append, List.mem_filterMap]
  intro q hq
  rcases List.mem_append.mp hq with hq | hq
  · obtain ⟨s, hq⟩ := (FileSystem.isTree normal.files).child hd hq
    exact hq.normal
  · obtain ⟨k, hk, hchild⟩ := List.mem_filterMap.mp hq
    have hk := normal.entries k (key_of_mem_writtenBelow hk).1
    obtain ⟨s, rest, hq, -⟩ := (MemoryFiles.childOf?_eq_some_iff hd hk).mp hchild
    exact hq.normal

theorem list_normalize (c : SourceCache) (p : Path) : c.list p.normalize = c.list p := by
  simp only [list, Path.normalize_normalize]

theorem isTree (normal : c.HasNormalKeys) : Path.IsTree c.isDir c.list := by
  have tree := FileSystem.isTree normal.files
  have key_normal : ∀ {dir q : Path}, q ∈ c.writtenBelow dir → q.IsNormal := fun hq =>
    normal.entries _ (key_of_mem_writtenBelow hq).1
  refine ⟨fun hd hp => ?_, fun hd hp => ?_, fun {d e names s} hd he directory => ?_⟩
  · rcases (mem_list_iff normal hd).mp hp with hp | ⟨q, hq, hchild⟩
    · exact tree.child hd hp
    · obtain ⟨s, rest, hp, -⟩ := (MemoryFiles.childOf?_eq_some_iff hd (key_normal hq)).mp hchild
      exact ⟨s, hp⟩
  · rcases (mem_list_iff normal hd).mp hp with hp | ⟨q, hq, -⟩
    · exact (isDir_iff hd.normal).mpr (.inl (tree.directory hd hp))
    · exact (isDir_iff hd.normal).mpr (.inr ⟨q, hq⟩)
  · rcases (isDir_iff he.normal).mp directory with directory | ⟨q, hq⟩
    · exact (mem_list_iff normal hd).mpr (.inl (tree.listed hd he directory))
    · -- what was written below the directory was written below the one above it
      have hkey := key_normal hq
      obtain ⟨written, below⟩ := mem_writtenBelow.mp hq
      obtain ⟨t, rest, hq⟩ := (he.below_iff hkey).mp below
      rw [List.append_assoc] at hq
      have below : d.Below q := (hd.below_iff hkey).mpr ⟨s, _, hq⟩
      exact (mem_list_iff normal hd).mpr (.inr ⟨q, mem_writtenBelow.mpr ⟨written, below⟩,
        (MemoryFiles.childOf?_eq_some_iff hd hkey).mpr ⟨s, _, he, hq⟩⟩)

/-- There are no more directories than the extent tells. -/
theorem length_le_extent_of_isDir (ps : List Path) (apart : ps.Pairwise fun p q => ¬ p.Same q)
    (directories : ∀ p ∈ ps, (∃ names, p.IsAt names) ∧ c.isDir p = true) :
    ps.length ≤ c.extent := by
  have there : (ps.filter c.files.isDir).length ≤ c.files.extent :=
    FileSystem.length_le_extent_of_isDir _ (apart.filter _) fun p hp =>
      ⟨(directories p (List.mem_of_mem_filter hp)).1, List.of_mem_filter hp⟩
  have written : (ps.filter fun p => !c.files.isDir p).length ≤ Path.totalLength c.entries.keys := by
    refine Path.length_le_totalLength_of_below (apart.filter _) fun p hp => ?_
    obtain ⟨hp, absent⟩ := List.mem_filter.mp hp
    obtain ⟨⟨names, isAt⟩, directory⟩ := directories p hp
    obtain ⟨q, hq⟩ := ((isDir_iff isAt.normal).mp directory).resolve_left (by simpa using absent)
    exact ⟨q, key_of_mem_writtenBelow hq⟩
  have parts := List.length_eq_length_filter_add c.files.isDir (l := ps)
  simp only [extent]
  omega

end SourceCache

end Precompile
