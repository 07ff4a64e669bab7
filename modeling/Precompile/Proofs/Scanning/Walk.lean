import Precompile.Proofs.Path.Exploration
import Precompile.Proofs.Sources.Tree
import Precompile.Scanning.Configuration

/-!
# Walking through directories

The scripts below a directory are found by looking into directories from a stack (`Walks`). What is
listed is a tree of bounded depth, so the stack runs empty (`exists_walks`): by then each script
that is looked for was found once, and these are the ones that an exploration with a budget finds
(`mem_scriptsBelow`).
-/

namespace Precompile

open Precompile.Path (IsAt Explores Reached)

namespace Host

variable {h : Host} {p : Path}

/-- The host lists the path in its directory, and not as a directory. -/
def ListsFile (h : Host) (p : Path) : Prop :=
  (∃ d, p.parent? = some d ∧ p ∈ h.cache.list d) ∧ h.cache.isDir p = false

theorem ListsFile.isNormal (listed : h.ListsFile p) (normal : h.cache.HasNormalKeys)
    (absolute : p.isAbsolute = true) : p.IsNormal := by
  obtain ⟨⟨d, hparent, listed⟩, -⟩ := listed
  have above := Path.isAbsolute_normalize (Path.isAbsolute_parent absolute hparent)
  obtain ⟨names, hd⟩ := (Path.isNormal_normalize d).exists_isAt above
  rw [← SourceCache.list_normalize] at listed
  obtain ⟨s, hp⟩ := (SourceCache.isTree normal).child hd listed
  exact hp.normal

end Host

namespace Scanning

variable {h : Host} {base d e p : Path} {names : List String} {s : String}

/-- A file below a directory that is looked for there. -/
def ScriptBelow (h : Host) (base p : Path) : Prop :=
  ∃ dirs name, p.components = base.components ++ (dirs ++ [name]).map .name ∧
    name.endsWith scriptEnding = true ∧ (∀ s ∈ dirs, s ∉ skippedNames) ∧ h.ListsFile p

theorem mem_scripts_iff (normal : h.cache.HasNormalKeys) (hd : d.IsAt names) :
    p ∈ (openFolder h d).scripts ↔ ∃ s, p.IsAt (names ++ [s]) ∧ p ∈ h.cache.list d ∧
      h.cache.isDir p = false ∧ s.endsWith scriptEnding = true := by
  have scripts : p ∈ (openFolder h d).scripts ↔ p ∈ h.cache.list d ∧ h.cache.isDir p = false ∧
      (p.fileName?.getD "").endsWith scriptEnding = true := by
    simp [openFolder, and_assoc]
  rw [scripts]
  constructor
  · rintro ⟨listed, isFile, ending⟩
    obtain ⟨s, hp⟩ := (SourceCache.isTree normal).child hd listed
    rw [hp.fileName?_eq] at ending
    exact ⟨s, hp, listed, isFile, ending⟩
  · rintro ⟨s, hp, listed, isFile, ending⟩
    rw [hp.fileName?_eq]
    exact ⟨listed, isFile, ending⟩

theorem mem_folders_iff (normal : h.cache.HasNormalKeys) (hd : d.IsAt names) :
    e ∈ (openFolder h d).folders ↔
      ∃ s, e.IsAt (names ++ [s]) ∧ h.cache.isDir e = true ∧ s ∉ skippedNames := by
  have folders : e ∈ (openFolder h d).folders ↔ e ∈ h.cache.list d ∧ h.cache.isDir e = true ∧
      e.fileName?.getD "" ∉ skippedNames := by
    simp [openFolder, and_assoc]
  have tree := SourceCache.isTree normal
  rw [folders]
  constructor
  · rintro ⟨listed, directory, looked⟩
    obtain ⟨s, he⟩ := tree.child hd listed
    rw [he.fileName?_eq] at looked
    exact ⟨s, he, directory, looked⟩
  · rintro ⟨s, he, directory, looked⟩
    rw [he.fileName?_eq]
    exact ⟨tree.listed hd he directory, directory, looked⟩

theorem scriptBelow_iff (normal : h.cache.HasNormalKeys) (hb : base.IsAt names) :
    ScriptBelow h base p ↔ ∃ dirs s, p.IsAt (names ++ dirs ++ [s]) ∧
      s.endsWith scriptEnding = true ∧ (∀ t ∈ dirs, t ∉ skippedNames) ∧ h.ListsFile p := by
  constructor
  · rintro ⟨dirs, s, components, ending, looked, listed⟩
    have hp : p.components = .root :: (names ++ dirs ++ [s]).map .name := by
      simp [components, hb.components_eq]
    exact ⟨dirs, s, ⟨listed.isNormal normal (Path.isAbsolute_iff.mpr ⟨_, hp⟩), hp⟩, ending, looked,
      listed⟩
  · rintro ⟨dirs, s, hp, ending, looked, listed⟩
    refine ⟨dirs, s, ?_, ending, looked, listed⟩
    simp [hp.components_eq, hb.components_eq]

theorem ScriptBelow.isNormal (below : ScriptBelow h base p) (normal : h.cache.HasNormalKeys)
    (hb : base.IsAt names) : p.IsNormal := by
  obtain ⟨_, _, hp, -⟩ := (scriptBelow_iff normal hb).mp below
  exact hp.normal

/-- What is looked for below a directory lies in it, or below one of its folders. -/
theorem scriptBelow_iff_or (normal : h.cache.HasNormalKeys) (hd : d.IsAt names) :
    ScriptBelow h d p ↔ p ∈ (openFolder h d).scripts ∨
      ∃ e ∈ (openFolder h d).folders, ScriptBelow h e p := by
  have tree := SourceCache.isTree normal
  rw [scriptBelow_iff normal hd]
  constructor
  · rintro ⟨dirs, s, hp, ending, looked, ⟨above, hparent, listed⟩, isFile⟩
    obtain ⟨dir, hparent', hdir⟩ := hp.exists_parent
    obtain rfl : above = dir := Option.some.inj (hparent.symm.trans hparent')
    cases dirs with
    | nil =>
      rw [List.append_nil] at hdir hp
      obtain rfl : above = d := hdir.path_eq hd
      exact .inl ((mem_scripts_iff normal hd).mpr ⟨s, hp, listed, isFile, ending⟩)
    | cons t dirs =>
      have hdir : above.IsAt (names ++ [t] ++ dirs) := by simpa using hdir
      have hp : p.IsAt (names ++ [t] ++ dirs ++ [s]) := by simpa using hp
      -- the file is listed, so its directory is there, and so are all those above it
      obtain ⟨e, he⟩ := hdir.exists_front
      have directory := tree.isDir_of_below he hdir (tree.directory hdir listed)
      obtain ⟨first, looked⟩ := List.forall_mem_cons.mp looked
      refine .inr ⟨e, (mem_folders_iff normal hd).mpr ⟨t, he, directory, first⟩, ?_⟩
      exact (scriptBelow_iff normal he).mpr
        ⟨dirs, s, hp, ending, looked, ⟨above, hparent, listed⟩, isFile⟩
  · rintro (here | ⟨e, he, below⟩)
    · obtain ⟨s, hp, listed, isFile, ending⟩ := (mem_scripts_iff normal hd).mp here
      exact ⟨[], s, by rwa [List.append_nil], ending, nofun, ⟨d, hp.parent?_eq hd, listed⟩, isFile⟩
    · obtain ⟨t, he, -, first⟩ := (mem_folders_iff normal hd).mp he
      obtain ⟨dirs, s, hp, ending, looked, listed⟩ := (scriptBelow_iff normal he).mp below
      have hp : p.IsAt (names ++ t :: dirs ++ [s]) := by simpa using hp
      exact ⟨t :: dirs, s, hp, ending, List.forall_mem_cons.mpr ⟨first, looked⟩, listed⟩

/-! ### Working off the stack -/

/-- How a stack of directories is worked off, and what is found: the one on top is looked into, and
its folders come on the stack. -/
inductive Walks (h : Host) : List Path → List Path → Prop where
  | done : Walks h [] []
  | step {dir : Path} {stack found : List Path} :
      Walks h ((openFolder h dir).folders.reverse ++ stack) found →
      Walks h (dir :: stack) ((openFolder h dir).scripts ++ found)

theorem Walks.deterministic {stack found found' : List Path} (walk : Walks h stack found)
    (walk' : Walks h stack found') : found = found' := by
  induction walk generalizing found' with
  | done => cases walk'; rfl
  | step _ ih =>
    cases walk' with
    | step rest => rw [ih rest]

theorem Walks.append {stack stack' found found' : List Path} (walk : Walks h stack found)
    (walk' : Walks h stack' found') : Walks h (stack ++ stack') (found ++ found') := by
  induction walk with
  | done => exact walk'
  | @step dir stack found _ ih =>
    rw [List.append_assoc] at ih
    rw [List.cons_append, List.append_assoc]
    exact .step ih

/-- Working off a stack finds what is looked for below its directories, each file once. -/
structure Finds (h : Host) (stack found : List Path) : Prop where
  walk : Walks h stack found
  nodup : found.Nodup
  mem_iff : ∀ p, p ∈ found ↔ ∃ d ∈ stack, ScriptBelow h d p

theorem Finds.append {stack stack' found found' : List Path} (finds : Finds h stack found)
    (finds' : Finds h stack' found')
    (apart : ∀ d ∈ stack, ∀ e ∈ stack', ∀ p, ScriptBelow h d p → ¬ ScriptBelow h e p) :
    Finds h (stack ++ stack') (found ++ found') where
  walk := finds.walk.append finds'.walk
  nodup := by
    refine List.nodup_append'.mpr ⟨finds.nodup, finds'.nodup, fun p hp hp' => ?_⟩
    obtain ⟨d, hd, below⟩ := (finds.mem_iff p).mp hp
    obtain ⟨e, he, below'⟩ := (finds'.mem_iff p).mp hp'
    exact apart d hd e he p below below'
  mem_iff := by
    intro p
    simp only [List.mem_append, finds.mem_iff, finds'.mem_iff, or_and_right, exists_or]

theorem exists_finds_of_forall {stack : List Path}
    (each : ∀ d ∈ stack, ∃ found, Finds h [d] found)
    (apart : stack.Pairwise fun d e => ∀ p, ScriptBelow h d p → ¬ ScriptBelow h e p) :
    ∃ found, Finds h stack found := by
  induction stack with
  | nil => exact ⟨[], .done, .nil, by simp⟩
  | cons d stack ih =>
    obtain ⟨⟨found, first⟩, each⟩ := List.forall_mem_cons.mp each
    obtain ⟨hd, apart⟩ := List.pairwise_cons.mp apart
    obtain ⟨found', rest⟩ := ih each apart
    exact ⟨_, first.append rest (by simpa using hd)⟩

theorem nodup_scripts (h : Host) (d : Path) : (openFolder h d).scripts.Nodup := by
  have scripts : (openFolder h d).scripts = (h.cache.list d).filter fun p =>
      !h.cache.isDir p && (p.fileName?.getD "").endsWith scriptEnding := by
    simp only [openFolder, List.filterMap_map]
    exact congrFun List.filterMap_eq_filter _
  rw [scripts]
  exact (Path.nodup_sortDedup _).filter _

theorem nodup_folders (h : Host) (d : Path) : (openFolder h d).folders.Nodup := by
  have folders : (openFolder h d).folders = (h.cache.list d).filter fun p =>
      h.cache.isDir p && !skippedNames.contains (p.fileName?.getD "") := by
    simp only [openFolder, List.filterMap_map]
    exact congrFun List.filterMap_eq_filter _
  rw [folders]
  exact (Path.nodup_sortDedup _).filter _

/-- A file lies below one folder of a directory only. -/
theorem eq_of_scriptBelow (normal : h.cache.HasNormalKeys) {t : String}
    (hd : d.IsAt (names ++ [s])) (he : e.IsAt (names ++ [t])) (below : ScriptBelow h d p)
    (below' : ScriptBelow h e p) : d = e := by
  obtain ⟨dirs, x, hp, -⟩ := (scriptBelow_iff normal hd).mp below
  obtain ⟨dirs', x', hp', -⟩ := (scriptBelow_iff normal he).mp below'
  have same := hp.names_eq hp'
  simp only [List.append_assoc, List.append_cancel_left_eq, List.cons_append, List.nil_append,
    List.cons.injEq] at same
  exact hd.path_eq (same.1 ▸ he)

/-- What is found in a directory and below its folders is what is found below it. -/
theorem Finds.of_folders (normal : h.cache.HasNormalKeys) (hd : d.IsAt names) {found : List Path}
    (finds : Finds h (openFolder h d).folders.reverse found) :
    Finds h [d] ((openFolder h d).scripts ++ found) where
  walk := .step (by simpa using finds.walk)
  nodup := by
    refine List.nodup_append'.mpr ⟨nodup_scripts h d, finds.nodup, fun p hp hp' => ?_⟩
    -- below a folder, a path has more names than in the directory itself
    obtain ⟨e, he, below⟩ := (finds.mem_iff p).mp hp'
    obtain ⟨t, he, -⟩ := (mem_folders_iff normal hd).mp (List.mem_reverse.mp he)
    obtain ⟨s, here, -⟩ := (mem_scripts_iff normal hd).mp hp
    obtain ⟨dirs, x, there, -⟩ := (scriptBelow_iff normal he).mp below
    have := congrArg List.length (here.names_eq there)
    simp at this
  mem_iff := by
    intro p
    simp only [List.mem_append, finds.mem_iff, List.mem_reverse, List.mem_singleton,
      exists_eq_left, scriptBelow_iff_or normal hd]

theorem length_lt_extent (normal : h.cache.HasNormalKeys) (hd : d.IsAt names)
    (directory : h.cache.isDir d = true) : names.length < h.cache.extent :=
  (SourceCache.isTree normal).length_lt SourceCache.length_le_extent_of_isDir hd directory

/-- Below a directory the stack runs empty: it is deeper by one name in each step, and not deeper
than the extent tells. -/
theorem exists_finds_of_isDir (normal : h.cache.HasNormalKeys) {n : Nat} (hd : d.IsAt names)
    (directory : h.cache.isDir d = true) (deep : h.cache.extent ≤ names.length + n) :
    ∃ found, Finds h [d] found := by
  induction n generalizing d names with
  | zero =>
    have := length_lt_extent normal hd directory
    omega
  | succ n ih =>
    obtain ⟨found, finds⟩ : ∃ found, Finds h (openFolder h d).folders.reverse found := by
      refine exists_finds_of_forall (fun e he => ?_) ?_
      · obtain ⟨s, he, directory, -⟩ := (mem_folders_iff normal hd).mp (List.mem_reverse.mp he)
        exact ih he directory (by simp; omega)
      · refine (List.nodup_reverse.mpr (nodup_folders h d)).imp_of_mem ?_
        intro e f he hf hne p below below'
        obtain ⟨s, he, -⟩ := (mem_folders_iff normal hd).mp (List.mem_reverse.mp he)
        obtain ⟨t, hf, -⟩ := (mem_folders_iff normal hd).mp (List.mem_reverse.mp hf)
        exact hne (eq_of_scriptBelow normal he hf below below')
    exact ⟨_, finds.of_folders normal hd⟩

theorem exists_finds (normal : h.cache.HasNormalKeys) (hd : d.IsAt names) :
    ∃ found, Finds h [d] found := by
  cases directory : h.cache.isDir d with
  | true => exact exists_finds_of_isDir normal hd directory (Nat.le_add_left _ _)
  | false =>
    -- nothing is listed where there is no directory
    have folders : (openFolder h d).folders = [] := by
      refine List.eq_nil_iff_forall_not_mem.mpr fun e he => ?_
      obtain ⟨s, he, below, -⟩ := (mem_folders_iff normal hd).mp he
      rw [(SourceCache.isTree normal).isDir_of_below hd he below] at directory
      cases directory
    have nothing : Finds h (openFolder h d).folders.reverse [] := by
      rw [folders]
      exact ⟨.done, .nil, by simp⟩
    exact ⟨_, nothing.of_folders normal hd⟩

/-! ### Exploring with a budget -/

/-- Looking into a directory, as a visit of an exploration. -/
def visitFolder (h : Host) (d : Path) : Except Empty (Option Folder) := .ok (some (openFolder h d))

/-- The base, or a directory, if the base is one. -/
def Visited (h : Host) (base p : Path) : Prop :=
  p = base ∨ h.cache.isDir base = true ∧ h.cache.isDir p = true ∧ ∃ names, p.IsAt names

theorem Visited.exists_isAt (hb : base.IsAt names) (visited : Visited h base p) :
    ∃ names, p.IsAt names := by
  rcases visited with rfl | ⟨-, -, hp⟩
  · exact ⟨names, hb⟩
  · exact hp

/-- The extent leaves room for every directory. -/
theorem room_extent (hb : base.IsAt names) :
    Path.Room (visitFolder h) (Visited h base) h.cache.extent .empty := by
  intro ks apart visited
  cases directory : h.cache.isDir base with
  | true =>
    refine SourceCache.length_le_extent_of_isDir ks apart fun p hp => ?_
    obtain ⟨visited, -, -⟩ := visited p hp
    exact ⟨visited.exists_isAt hb, visited.elim (fun heq => heq ▸ directory) fun h => h.2.1⟩
  | false =>
    -- where the base is no directory it is all there is to be looked into
    have base_only : ∀ p ∈ ks, p = base := fun p hp =>
      (visited p hp).1.resolve_right (by simp [directory])
    have few : ks.length ≤ 1 := by
      match ks, apart, base_only with
      | [], _, _ => exact Nat.zero_le 1
      | [p], _, _ => exact Nat.le_refl 1
      | p :: q :: ks, apart, base_only =>
        obtain ⟨rfl, rfl, -⟩ : p = base ∧ q = base ∧ ∀ r ∈ ks, r = base := by
          simpa using base_only
        simp [Path.Same] at apart
    have some_room : 1 ≤ h.cache.extent := by
      unfold SourceCache.extent FileSystem.extent
      split
      · exact Nat.le_add_right_of_le (Nat.le_add_left _ _)
      · exact Nat.le_add_right_of_le (Nat.le_add_left _ _)
    exact Nat.le_trans few some_room

theorem Visited.next (normal : h.cache.HasNormalKeys) (hb : base.IsAt names)
    (visited : Visited h base d) (he : e ∈ (openFolder h d).folders) : Visited h base e := by
  obtain ⟨names', hd⟩ := visited.exists_isAt hb
  obtain ⟨s, he, directory, -⟩ := (mem_folders_iff normal hd).mp he
  have above := (SourceCache.isTree normal).isDir_of_below hd he directory
  exact .inr ⟨visited.elim (fun heq => heq ▸ above) fun h => h.1, directory, _, he⟩

theorem visited_of_reached (normal : h.cache.HasNormalKeys) (hb : base.IsAt names)
    (reached : Reached (visitFolder h) Folder.folders [base] d) : Visited h base d := by
  induction reached with
  | start hd => exact .inl (List.mem_singleton.mp hd)
  | next _ hvisit he visited =>
    cases hvisit
    exact visited.next normal hb he

/-- What is looked for below a reached directory is in one that is reached, at most as many names
further down as there are left. -/
theorem exists_reached_of_scriptBelow (normal : h.cache.HasNormalKeys) {start : List Path}
    {all : List String} (hp : p.IsAt all) {n : Nat} (hd : d.IsAt names)
    (reached : Reached (visitFolder h) Folder.folders start d) (below : ScriptBelow h d p)
    (left : all.length ≤ names.length + n) :
    ∃ e, Reached (visitFolder h) Folder.folders start e ∧ p ∈ (openFolder h e).scripts := by
  induction n generalizing d names with
  | zero =>
    obtain ⟨dirs, s, hp', -⟩ := (scriptBelow_iff normal hd).mp below
    have := congrArg List.length (hp.names_eq hp')
    simp at this
    omega
  | succ n ih =>
    rcases (scriptBelow_iff_or normal hd).mp below with here | ⟨e, he, below⟩
    · exact ⟨d, reached, here⟩
    · obtain ⟨s, hs, -⟩ := (mem_folders_iff normal hd).mp he
      exact ih hs (.next reached rfl he) below (by simp; omega)

/-- What is looked for below a directory is in one that is reached from it. -/
theorem scriptBelow_iff_reached (normal : h.cache.HasNormalKeys) (hb : base.IsAt names) :
    ScriptBelow h base p ↔ ∃ d, Reached (visitFolder h) Folder.folders [base] d ∧
      p ∈ (openFolder h d).scripts := by
  constructor
  · intro below
    obtain ⟨dirs, s, hp, -⟩ := (scriptBelow_iff normal hb).mp below
    exact exists_reached_of_scriptBelow normal hp hb (.start List.mem_cons_self) below
      (Nat.le_add_left _ _)
  · rintro ⟨d, reached, here⟩
    have below : ScriptBelow h d p := by
      obtain ⟨names', hd⟩ := (visited_of_reached normal hb reached).exists_isAt hb
      exact (scriptBelow_iff_or normal hd).mpr (.inl here)
    clear here
    induction reached with
    | start hd => exact List.mem_singleton.mp hd ▸ below
    | @next d e folder reached hvisit he ih =>
      cases hvisit
      obtain ⟨names', hd⟩ := (visited_of_reached normal hb reached).exists_isAt hb
      exact ih ((scriptBelow_iff_or normal hd).mpr (.inr ⟨e, he, below⟩))

theorem visitFolder_same {q : Path} (same : p.Same q) : visitFolder h p = visitFolder h q := by
  have listed : h.cache.list p = h.cache.list q := by
    rw [← SourceCache.list_normalize, same.normalize_eq, SourceCache.list_normalize]
  simp only [visitFolder, openFolder, listed]

/-- An exploration with the extent as its budget finds what is looked for. -/
theorem mem_scriptsBelow_iff (normal : h.cache.HasNormalKeys) (hb : base.IsAt names) :
    p ∈ scriptsBelow h base ↔ ScriptBelow h base p := by
  have leads : ∀ d folder, Visited h base d → visitFolder h d = .ok (some folder) →
      ∀ e ∈ folder.folders, Visited h base e := by
    intro d folder visited hvisit e he
    cases hvisit
    exact visited.next normal hb he
  have explores := Path.explores_explore leads h.cache.extent [base] .empty (by simp [Visited])
    (room_extent hb)
  have sound := explores.reached_of_found fun q hq =>
    (.start hq : Reached (visitFolder h) Folder.folders [base] q)
  have complete := fun {q} => explores.found_of_reached (p := q) (fun _ _ => visitFolder_same)
  have scripts : scriptsBelow h base = Path.sortDedup ((Path.explore (visitFolder h) Folder.folders
      h.cache.extent [base] .empty).found.flatMap Folder.scripts) := rfl
  rw [scripts]
  generalize Path.explore (visitFolder h) Folder.folders h.cache.extent [base] .empty = explored
    at sound complete
  have unfailing : explored.failure = none := by
    cases explored.failure with
    | none => rfl
    | some impossible => cases impossible
  rw [Path.mem_sortDedup_iff, scriptBelow_iff_reached normal hb, List.mem_flatMap]
  · constructor
    · rintro ⟨folder, hfolder, hp⟩
      obtain ⟨d, reached, hvisit⟩ := sound folder hfolder
      cases hvisit
      exact ⟨d, reached, hp⟩
    · rintro ⟨d, reached, hp⟩
      rcases complete unfailing reached with hnone | ⟨folder, hfolder, hvisit⟩
      · cases hnone
      · cases hvisit
        exact ⟨_, hfolder, hp⟩
  · intro q hq
    obtain ⟨folder, hfolder, hq⟩ := List.mem_flatMap.mp hq
    obtain ⟨d, reached, hvisit⟩ := sound folder hfolder
    cases hvisit
    obtain ⟨names', hd⟩ := (visited_of_reached normal hb reached).exists_isAt hb
    obtain ⟨s, hq, -⟩ := (mem_scripts_iff normal hd).mp hq
    exact hq.normal

/-- Working off the stack ends, and it finds the scripts below the base, each once. -/
theorem exists_walks (normal : h.cache.HasNormalKeys) (hb : base.IsAt names) :
    ∃ found, Walks h [base] found ∧ found.Perm (scriptsBelow h base) := by
  obtain ⟨found, finds⟩ := exists_finds normal hb
  have nodup : (scriptsBelow h base).Nodup := Path.nodup_sortDedup _
  refine ⟨found, finds.walk, (List.perm_ext_iff_of_nodup finds.nodup nodup).mpr fun p => ?_⟩
  rw [finds.mem_iff, mem_scriptsBelow_iff normal hb]
  simp

end Scanning

end Precompile
