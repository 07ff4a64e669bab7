import Precompile.Files.Basic
import Precompile.Proofs.OrderedMap
import Precompile.Proofs.Path.Normal

/-!
What can be read from a file system.

What can be read is a file, and there are no more files to be read under different normal paths than
the extent tells (`FileSystem.length_le_extent`). An edit changes what can be read at one path only
(`FileSystem.EditedAt`).
-/

namespace Precompile

/-! ### Files in memory -/

namespace Path

theorem length_le_totalLength (ps : List Path) : ps.length ≤ totalLength ps := by
  induction ps with
  | nil => exact Nat.zero_le _
  | cons p ps ih =>
    simp only [totalLength, List.length_cons, List.foldr_cons] at ih ⊢
    omega

end Path

namespace MemoryFiles

theorem read_eq_ok_iff {m : MemoryFiles} {p : Path} {content : String} :
    m.read p = .ok content ↔
      m.heldBack.contains p = false ∧ m.files.get? p.normalize = some content := by
  unfold read
  split
  next hheld => simp [hheld]
  next hheld =>
    rw [Bool.not_eq_true] at hheld
    split <;> simp [*]

theorem contains_of_read {m : MemoryFiles} {p : Path} {content : String}
    (h : m.read p = .ok content) : m.files.contains p.normalize = true :=
  OrderedMap.contains_of_get? (read_eq_ok_iff.mp h).2

end MemoryFiles

/-! ### Files on a disk -/

namespace Disk

theorem node?_rootPath (d : Disk) : d.node? rootPath = some .directory := if_pos rfl

theorem follow_name {d : Disk} {asked at_ place : Path} {s : String} {cs : List Component}
    (h : d.follow asked at_ (.name s :: cs) = .ok place) :
    d.node? at_ = some .directory ∧ d.follow asked (at_.join ⟨s⟩) cs = .ok place := by
  rw [follow] at h
  cases hnode : d.node? at_ with
  | none => simp [hnode] at h
  | some node =>
    cases node with
    | file content => simp [hnode] at h
    | directory =>
      by_cases hlong : nameLimit < s.utf8ByteSize
      · simp [hnode, hlong] at h
      · simp only [hnode, if_neg hlong] at h
        exact ⟨rfl, h⟩

/-- Following names from a place leads to the place below it. -/
theorem components_of_follow {d : Disk} {asked at_ place : Path} {names : List String}
    (hparts : ∀ s ∈ names, (Component.name s).IsPart)
    (h : d.follow asked at_ (names.map Component.name) = .ok place) :
    place.components = at_.components ++ names.map Component.name := by
  induction names generalizing at_ with
  | nil => cases h; simp
  | cons s names ih =>
    rw [List.map_cons] at h
    obtain ⟨-, hrest⟩ := follow_name h
    have hs : (at_.join ⟨s⟩).components = at_.components ++ [.name s] :=
      Path.components_join_part at_ (c := .name s) (hparts s List.mem_cons_self)
    rw [ih (fun t ht => hparts t (List.mem_cons_of_mem _ ht)) hrest, hs]
    simp

/-- A normal path leads to the place that it means. -/
theorem same_of_lookup {d : Disk} {p place : Path} {node : DiskNode} (hp : p.IsNormal)
    (h : d.lookup p = .ok (place, node)) : place.Same p ∧ d.node? place = some node := by
  unfold lookup at h
  split at h
  · cases h
  · split at h
    · cases h
    · split at h
      next habs =>
        split at h
        · cases h
        next q hq =>
          -- a normal absolute path is the root and names, so following it never climbs
          obtain ⟨names, hnames⟩ := Path.normalComponents_of_isAbsolute habs
          have hcomps : p.components = .root :: names.map Component.name := by
            rw [← hnames, ← Path.components_normalize, hp]
          have hparts : ∀ s ∈ names, (Component.name s).IsPart := by
            intro s hs
            refine Path.isPart_of_mem_pieces p _ ?_
            have hlead : p.lead = .root := of_decide_eq_true habs
            have hpieces : p.components = .root :: p.pieces.filterMap Path.componentOf := by
              show p.lead.component?.toList ++ _ = _
              rw [hlead]
              rfl
            rw [← (List.cons.inj (hpieces.symm.trans hcomps)).2.symm]
            exact List.mem_map_of_mem hs
          have hsame : q.Same p := by
            rw [hcomps, follow, node?_rootPath] at hq
            exact (components_of_follow hparts hq).trans hcomps.symm
          split at h
          · cases h
          next content hnode =>
            split at h
            · cases h
            · cases h
              exact ⟨hsame, hnode⟩
          next hnode =>
            cases h
            exact ⟨hsame, hnode⟩
      · cases h

theorem lookup_of_read {d : Disk} {p : Path} {content : String} (h : d.read p = .ok content) :
    ∃ place, d.lookup p = .ok (place, .file (some content)) := by
  unfold read at h
  split at h
  · cases h
  · cases h
  · cases h
  next place text hlook => cases h; exact ⟨place, hlook⟩

theorem isFile_of_read {d : Disk} {p : Path} {content : String} (h : d.read p = .ok content) :
    d.isFile p = true := by
  obtain ⟨place, hlook⟩ := lookup_of_read h
  simp [isFile, hlook]

theorem contains_of_read {d : Disk} {p : Path} {content : String} (hp : p.IsNormal)
    (h : d.read p = .ok content) : d.nodes.contains p = true := by
  obtain ⟨place, hlook⟩ := lookup_of_read h
  obtain ⟨hsame, hnode⟩ := same_of_lookup hp hlook
  unfold node? at hnode
  split at hnode
  · cases hnode
  · rw [← OrderedMap.contains_congr d.nodes hsame]
    exact OrderedMap.contains_of_get? hnode

end Disk

/-! ### File systems -/

namespace FileSystem

theorem isFile_of_read {files : FileSystem} {p : Path} {content : String}
    (h : files.read p = .ok content) : files.isFile p = true := by
  cases files with
  | memory m => exact MemoryFiles.contains_of_read h
  | disk d => exact Disk.isFile_of_read h

theorem isFile_of_notFound {files : FileSystem} {p q : Path}
    (h : files.read p = .error (.notFound q)) : files.isFile p = false := by
  cases files with
  | memory m =>
    show m.files.contains p.normalize = false
    simp only [read, MemoryFiles.read] at h
    split at h
    · cases h
    · split at h
      · cases h
      next hnone => exact OrderedMap.get?_eq_none_iff.mp hnone
  | disk d =>
    show d.isFile p = false
    simp only [read, Disk.read] at h
    unfold Disk.isFile
    cases hlook : d.lookup p with
    | error e => rfl
    | ok place =>
      obtain ⟨q, node⟩ := place
      rw [hlook] at h
      cases node with
      | directory => rfl
      | file content => cases content <;> cases h

/-- There are no more files to be read under different normal paths than the extent tells. -/
theorem length_le_extent (files : FileSystem) (ps : List Path)
    (apart : ps.Pairwise fun p q => ¬ p.Same q)
    (readable : ∀ p ∈ ps, p.IsNormal ∧ ∃ content, files.read p = .ok content) :
    ps.length ≤ files.extent := by
  cases files with
  | memory m =>
    have hle : ps.length ≤ m.files.size := by
      refine m.files.length_le_size ps apart fun p hp => ?_
      obtain ⟨hnormal, content, hread⟩ := readable p hp
      have := MemoryFiles.contains_of_read hread
      rwa [hnormal] at this
    -- the extent counts each file at least once
    have htotal := Path.length_le_totalLength m.files.keys
    simp only [OrderedMap.keys, List.length_map] at htotal
    exact Nat.le_succ_of_le (Nat.le_trans hle htotal)
  | disk d =>
    have hle : ps.length ≤ d.nodes.size := by
      refine d.nodes.length_le_size ps apart fun p hp => ?_
      obtain ⟨hnormal, content, hread⟩ := readable p hp
      exact Disk.contains_of_read hnormal hread
    exact Nat.le_succ_of_le hle

/-! ### Edits -/

/-- Nothing but the file at a path was edited: every other file that could be read can still be read
and holds the same text. -/
def EditedAt (p : Path) (files files' : FileSystem) : Prop :=
  ∀ q content, q.IsNormal → q ≠ p.normalize → files.read q = .ok content →
    files'.read q = .ok content

end FileSystem

namespace MemoryFiles

theorem editedAt_of_kept {m m' : MemoryFiles} {p : Path}
    (held : ∀ q, q.IsNormal → q ≠ p.normalize → m.heldBack.contains q = false →
      m'.heldBack.contains q = false)
    (files : ∀ q, q.IsNormal → q ≠ p.normalize → m'.files.get? q = m.files.get? q) :
    FileSystem.EditedAt p (.memory m) (.memory m') := by
  intro q content hq hne h
  obtain ⟨hheld, hfile⟩ := read_eq_ok_iff.mp h
  have hfile' : m'.files.get? q.normalize = some content := by
    rw [hq] at hfile ⊢
    rw [files q hq hne, hfile]
  exact read_eq_ok_iff.mpr ⟨held q hq hne hheld, hfile'⟩

theorem editedAt_insert (m : MemoryFiles) (p : Path) (content : String) :
    FileSystem.EditedAt p (.memory m) (.memory (m.insert p content)) := by
  refine editedAt_of_kept (fun _ _ _ h => h) fun q hq hne => ?_
  have hkey : p.normalize.components ≠ q.components := fun h =>
    hne ((Path.isNormal_normalize p).eq_of_same hq h).symm
  simp only [insert, OrderedMap.get?_insert, if_neg hkey]

theorem editedAt_erase (m : MemoryFiles) (p : Path) :
    FileSystem.EditedAt p (.memory m) (.memory (m.erase p)) := by
  refine editedAt_of_kept (fun _ _ _ h => h) fun q hq hne => ?_
  have hkey : p.normalize.components ≠ q.components := fun h =>
    hne ((Path.isNormal_normalize p).eq_of_same hq h).symm
  simp only [erase, OrderedMap.get?_erase, if_neg hkey]

theorem editedAt_holdBack (m : MemoryFiles) (p : Path) :
    FileSystem.EditedAt p (.memory m) (.memory (m.holdBack p)) := by
  refine editedAt_of_kept (fun q hq hne h => ?_) fun _ _ _ => rfl
  have hkey : p.components ≠ q.components := fun h =>
    hne (hq.symm.trans (Path.Same.normalize_eq h).symm)
  simp [holdBack, OrderedSet.contains_insert, hkey, h]

theorem editedAt_release (m : MemoryFiles) (p : Path) :
    FileSystem.EditedAt p (.memory m) (.memory (m.release p)) := by
  refine editedAt_of_kept (fun q _ _ h => ?_) fun _ _ _ => rfl
  simp [release, OrderedMap.contains_erase, h]

end MemoryFiles

namespace Disk

theorem node?_of_follow_cons {d : Disk} {asked at_ place : Path} {c : Component}
    {cs : List Component} (h : d.follow asked at_ (c :: cs) = .ok place) :
    d.node? at_ = some .directory := by
  unfold follow at h
  cases hnode : d.node? at_ with
  | none => simp [hnode] at h
  | some node =>
    cases node with
    | file content => simp [hnode] at h
    | directory => rfl

/-- Where all directories are kept, paths lead where they led, whatever was asked for. -/
theorem follow_of_kept {d d' : Disk}
    (kept : ∀ r, d.node? r = some .directory → d'.node? r = some .directory)
    {asked asked' at_ place : Path} {cs : List Component}
    (h : d.follow asked at_ cs = .ok place) : d'.follow asked' at_ cs = .ok place := by
  induction cs generalizing at_ with
  | nil => exact h
  | cons c cs ih =>
    have hnode := node?_of_follow_cons h
    unfold follow at h ⊢
    simp only [hnode, kept at_ hnode] at h ⊢
    cases c with
    | root => exact ih h
    | here => exact ih h
    | up => exact ih h
    | name s =>
      by_cases hlong : nameLimit < s.utf8ByteSize
      · simp [hlong] at h
      · simp only [if_neg hlong] at h ⊢
        exact ih h

theorem read_of_kept {d d' : Disk} {q : Path} {content : String} (hq : q.IsNormal)
    (dirs : ∀ r, d.node? r = some .directory → d'.node? r = some .directory)
    (file : ∀ r, r.Same q → d.node? r = some (.file (some content)) →
      d'.node? r = some (.file (some content)))
    (h : d.read q = .ok content) : d'.read q = .ok content := by
  obtain ⟨place, hlook⟩ := lookup_of_read h
  obtain ⟨hsame, hnode⟩ := same_of_lookup hq hlook
  have hnode' := file place hsame hnode
  have hlook' : d'.lookup q = .ok (place, .file (some content)) := by
    unfold lookup at hlook ⊢
    split at hlook
    · cases hlook
    · split at hlook
      · cases hlook
      · split at hlook
        next hends hlong habs =>
          rw [if_neg hends, if_neg hlong, if_pos habs]
          cases hfollow : d.follow q rootPath q.components with
          | error e => simp [hfollow] at hlook
          | ok r =>
            simp only [hfollow] at hlook
            rw [follow_of_kept dirs hfollow]
            cases hr : d.node? r with
            | none => simp [hr] at hlook
            | some node =>
              cases node with
              | directory => simp [hr] at hlook
              | file text =>
                simp only [hr] at hlook
                by_cases hdir : meansDirectory q = true
                · simp [hdir] at hlook
                · rw [if_neg hdir] at hlook
                  cases hlook
                  simp only [hnode', if_neg hdir]
        next => cases hlook
  simp [read, hlook']

theorem node?_insert {d : Disk} {p r : Path} {node : DiskNode} (h : ¬ p.Same r) :
    node? { d with nodes := d.nodes.insert p node } r = d.node? r := by
  have hkey : p.components ≠ r.components := h
  simp only [node?, OrderedMap.get?_insert, if_neg hkey]

theorem node?_makeDir {d : Disk} {p r : Path} {node : DiskNode} (h : d.node? r = some node) :
    (d.makeDir p).node? r = some node := by
  unfold makeDir
  split
  · exact h
  next hnone =>
    -- a directory is made only where nothing is, so nothing that is there is replaced
    refine (node?_insert fun hsame => hnone ?_).trans h
    have : d.node? p = d.node? r := by
      simp only [node?, show p.Same rootPath ↔ r.Same rootPath from
        ⟨fun hp => (hsame.symm : r.components = p.components).trans hp, fun hr => hsame.trans hr⟩,
        OrderedMap.get?_congr d.nodes hsame]
    rw [this, h]
    rfl

theorem node?_foldl_makeDir {ps : List Path} {d : Disk} {r : Path} {node : DiskNode}
    (h : d.node? r = some node) : (ps.foldl makeDir d).node? r = some node := by
  induction ps generalizing d with
  | nil => exact h
  | cons p ps ih => exact ih (node?_makeDir h)

/-- Writing a file where no directory is edits that file only. -/
theorem editedAt_write (d : Disk) (p : Path) (content : Option String)
    (file : ∀ r, r.Same p.normalize → d.node? r ≠ some .directory) :
    FileSystem.EditedAt p (.disk d) (.disk (d.write p content)) := by
  intro q text hq hne h
  have other : ∀ r, ¬ p.normalize.Same r → ∀ node, d.node? r = some node →
      (d.write p content).node? r = some node := by
    intro r hr node hnode
    exact (node?_insert hr).trans (node?_foldl_makeDir hnode)
  refine read_of_kept hq (fun r hdir => ?_) (fun r hr hfile => ?_) h
  · exact other r (fun hsame => file r hsame.symm hdir) _ hdir
  · refine other r (fun hsame => hne ?_) _ hfile
    exact hq.eq_of_same (Path.isNormal_normalize p) (hr.symm.trans hsame.symm)

/-- Deleting a file edits that file only. -/
theorem editedAt_delete (d : Disk) (p : Path)
    (file : ∀ r, r.Same p.normalize → d.node? r ≠ some .directory) :
    FileSystem.EditedAt p (.disk d) (.disk (d.delete p)) := by
  intro q text hq hne h
  have other : ∀ r, ¬ p.normalize.Same r → (d.delete p).node? r = d.node? r := by
    intro r hr
    have hkey : p.normalize.components ≠ r.components := hr
    simp only [node?, delete, OrderedMap.get?_erase, if_neg hkey]
  refine read_of_kept hq (fun r hdir => ?_) (fun r hr hfile => ?_) h
  · exact (other r fun hsame => file r hsame.symm hdir).trans hdir
  · refine (other r fun hsame => hne ?_).trans hfile
    exact hq.eq_of_same (Path.isNormal_normalize p) (hr.symm.trans hsame.symm)

end Disk

end Precompile
