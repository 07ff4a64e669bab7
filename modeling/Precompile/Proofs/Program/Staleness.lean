import Precompile.Proofs.Scanning.Reachable
import Precompile.Scanning.Findings

/-!
# Staleness is sound

The revision of a cache is one number for all that the host answers. Between two states of a host
with the same revision nothing was written or dropped, and what was retained meanwhile is what the
files have anyway, so the host answers the same questions alike (`Host.AnswersAlike`). A program
that was created at the revision at hand is therefore the one that would be created now
(`Programs.UpToDate`), whatever was asked, tried and created in between.
-/

namespace Precompile

/-! ### What a host answers -/

namespace SourceCache

theorem writtenBelow_unread (c : SourceCache) (dir : Path) :
    c.unread.writtenBelow dir = c.writtenBelow dir := by
  simp [writtenBelow, unread, OrderedMap.filter]

theorem isDir_unread (c : SourceCache) (p : Path) : c.unread.isDir p = c.isDir p := by
  simp only [isDir, writtenBelow_unread, files_unread]

theorem list_unread (c : SourceCache) (p : Path) : c.unread.list p = c.list p := by
  simp only [list, writtenBelow_unread, files_unread]

end SourceCache

/-- Two hosts answer every question about files and modules alike. -/
structure Host.AnswersAlike (h g : Host) : Prop where
  read : ∀ p, h.read p = g.read p
  source : ∀ p, h.source p = g.source p
  isFile : ∀ p, h.cache.isFile p = g.cache.isFile p
  isDir : ∀ p, h.cache.isDir p = g.cache.isDir p
  list : ∀ p, h.cache.list p = g.cache.list p
  resolve : ∀ specifier containing, h.resolve? specifier containing = g.resolve? specifier containing
  writtenFiles : h.cache.writtenFiles = g.cache.writtenFiles

/-- Hosts that differ only in what they retained answer alike. -/
theorem Host.answersAlike_of_unread_eq {h g : Host} (sound : h.cache.Sound [])
    (sound' : g.cache.Sound []) (unread : h.unread = g.unread) : h.AnswersAlike g := by
  have cache : h.cache.unread = g.cache.unread := congrArg Host.cache unread
  constructor
  · intro p
    simp only [Host.read, ← SourceCache.serve_unread sound, ← SourceCache.serve_unread sound', cache]
  · intro p
    rw [← source_unread sound, ← source_unread sound', unread]
  · intro p
    rw [← SourceCache.isFile_unread sound, ← SourceCache.isFile_unread sound', cache]
  · intro p
    rw [← h.cache.isDir_unread, cache, g.cache.isDir_unread]
  · intro p
    rw [← h.cache.list_unread, cache, g.cache.list_unread]
  · intro specifier containing
    rw [← resolve?_unread sound, ← resolve?_unread sound', unread]
  · rw [← h.cache.writtenFiles_unread, cache, g.cache.writtenFiles_unread]

/-! ### Programs that are up to date -/

/-- Creating a program reads files, whether it comes off or not, and changes the programs where it
does. -/
theorem Programs.create_cases (ps : Programs) (roots : List Path) (options : CompilerOptions)
    (h : Host) :
    (∃ P qs, (Scanning.createProgram roots options ps.current h).1 = .ok P ∧
      ps.create Scanning.checker roots options h =
        (.ok P, ⟨some P, ps.creations + 1, some h.cache.revision⟩, h.retainAll qs)) ∨
    ∃ e qs, (Scanning.createProgram roots options ps.current h).1 = .error e ∧
      ps.create Scanning.checker roots options h = (.error e, ps, h.retainAll qs) := by
  obtain ⟨qs, hqs⟩ := Scanning.createProgram_host roots options ps.current h
  have hchecker : Scanning.checker.createProgram = Scanning.createProgram := rfl
  unfold Programs.create
  rw [hchecker]
  generalize Scanning.createProgram roots options ps.current h = result at hqs ⊢
  obtain ⟨e | P, after⟩ := result
  · exact .inr ⟨e, qs, rfl, congrArg (fun after => (Except.error e, ps, after)) hqs⟩
  · exact .inl ⟨P, qs, rfl, congrArg (fun after => (Except.ok P, _, after)) hqs⟩

/-- The current program is the one that would be created anew, unless the revision of the host has
moved since it was created. -/
structure Programs.UpToDate (roots : List Path) (options : CompilerOptions) (ps : Programs)
    (h : Host) : Prop where
  earlier : ∀ r, ps.createdAt = some r → r ≤ h.cache.revision
  current : ps.createdAt = some h.cache.revision → ∃ P, ps.current = some P ∧
    (Scanning.createProgram roots options none h.unread).1 = .ok P

namespace Programs.UpToDate

variable {roots : List Path} {options : CompilerOptions} {ps : Programs} {h h' : Host}

theorem empty (roots : List Path) (options : CompilerOptions) (h : Host) :
    UpToDate roots options .empty h := ⟨nofun, nofun⟩

/-- It is enough that the revision never falls, and that nothing is written or dropped while it
stays. -/
theorem advance (upToDate : UpToDate roots options ps h)
    (rises : h.cache.revision ≤ h'.cache.revision)
    (stays : h'.cache.revision = h.cache.revision → h'.unread = h.unread) :
    UpToDate roots options ps h' where
  earlier := fun r hr => Nat.le_trans (upToDate.earlier r hr) rises
  current := by
    intro hcreated
    -- the revision cannot have moved and come back
    have same : h'.cache.revision = h.cache.revision :=
      Nat.le_antisymm (upToDate.earlier _ hcreated) rises
    rw [stays same]
    exact upToDate.current (same ▸ hcreated)

theorem use (upToDate : UpToDate roots options ps h) (use : h.Uses h') :
    UpToDate roots options ps h' := by
  apply upToDate.advance use.revision.1
  intro same
  simp only [Host.unread, use.revision.2 same, use.base_eq]

/-- A program that is created is up to date. -/
theorem create {previous : Option Program} {P : Program} (n : Nat) (sound : h.cache.Sound [])
    (hP : (Scanning.createProgram roots options previous h).1 = .ok P) (qs : List Path) :
    UpToDate roots options ⟨some P, n, some h.cache.revision⟩ (h.retainAll qs) where
  earlier := by
    intro r hr
    rw [← Option.some.inj hr]
    exact (h.uses_retainAll qs).revision.1
  current := by
    intro _
    refine ⟨P, rfl, ?_⟩
    rw [Host.unread_retainAll, ← Scanning.createProgram_unread sound roots options previous, hP]

/-- So are the programs after a try to create one, whether it comes off or not. -/
theorem programs_create (upToDate : UpToDate roots options ps h) (sound : h.cache.Sound []) :
    UpToDate roots options (ps.create Scanning.checker roots options h).2.1
      (ps.create Scanning.checker roots options h).2.2 := by
  rcases ps.create_cases roots options h with ⟨P, qs, hP, hcreate⟩ | ⟨e, qs, -, hcreate⟩
  · rw [hcreate]
    exact create _ sound hP qs
  · rw [hcreate]
    exact upToDate.use (h.uses_retainAll qs)

/-- Programs that are not stale have a current one, and it would be created again. -/
theorem create_of_not_stale (upToDate : UpToDate roots options ps h) (sound : h.cache.Sound [])
    (fresh : ps.isStale h = false) : ∃ P, ps.current = some P ∧
      (ps.create Scanning.checker roots options h).1 = .ok P := by
  have hcreated : ps.createdAt = some h.cache.revision := by
    simpa [Programs.isStale] using fresh
  obtain ⟨P, hcurrent, hP⟩ := upToDate.current hcreated
  rw [← Scanning.createProgram_unread sound roots options ps.current] at hP
  refine ⟨P, hcurrent, ?_⟩
  rcases ps.create_cases roots options h with ⟨Q, qs, hQ, hcreate⟩ | ⟨e, qs, hfailed, -⟩
  · rw [hcreate, ← hP, hQ]
  · cases hP.symm.trans hfailed

end Programs.UpToDate

/-! ### Calls in any order -/

/-- A call to a host, or to the programs that are created with it. -/
inductive HostCall where
  | read (p : Path)
  | source (p : Path)
  | isFile (p : Path)
  | isDir (p : Path)
  | list (p : Path)
  | resolve (specifier : String) (containing : Path)
  | writtenFiles
  | enableCaching
  | drain
  | populate (r : Registry)
  | write (p : Path) (content : String) (emit : Bool)
  | invalidate (p : Path)
  | retire (dir : Path) (keep : List Path)
  | create
  deriving Inhabited

/-- A host, and the programs that were created with it. -/
structure CheckedHost where
  host : Host
  programs : Programs
  deriving Inhabited

namespace CheckedHost

def ofFiles (files : FileSystem) (base : Path) : CheckedHost := ⟨.ofFiles files base, .empty⟩

def mapCache (s : CheckedHost) (f : SourceCache → SourceCache) : CheckedHost :=
  { s with host := s.host.mapCache f }

/-- What a call leaves behind. Programs are always created from the same roots and options. -/
def next (roots : List Path) (options : CompilerOptions) (s : CheckedHost) :
    HostCall → CheckedHost
  | .read p | .source p => s.mapCache (·.retain p)
  | .isFile _ | .isDir _ | .list _ | .resolve _ _ | .writtenFiles => s
  | .enableCaching => s.mapCache SourceCache.enableCaching
  | .drain => s.mapCache SourceCache.clearChanged
  | .populate r => { s with host := (s.host.populate r).host }
  | .write p content emit => s.mapCache (·.write p content emit)
  | .invalidate p => s.mapCache (·.invalidate p)
  | .retire dir keep => s.mapCache (·.retire dir keep)
  | .create =>
    let (_, programs, host) := s.programs.create Scanning.checker roots options s.host
    ⟨host, programs⟩

def run (roots : List Path) (options : CompilerOptions) (s : CheckedHost)
    (calls : List HostCall) : CheckedHost :=
  calls.foldl (next roots options) s

variable {roots : List Path} {options : CompilerOptions} {s : CheckedHost}

/-- A call uses the host for files, or else it touches neither the files nor what is held nor the
revision. -/
theorem next_host (roots : List Path) (options : CompilerOptions) (s : CheckedHost)
    (call : HostCall) :
    s.host.Uses (s.next roots options call).host ∨
      (s.next roots options call).host.cache.entries = s.host.cache.entries ∧
      (s.next roots options call).host.cache.revision = s.host.cache.revision ∧
      (s.next roots options call).host.unread = s.host.unread := by
  cases call with
  | read p | source p => exact .inl (.read p .refl)
  | isFile | isDir | list | resolve | writtenFiles => exact .inl .refl
  | enableCaching | drain | populate => exact .inr ⟨rfl, rfl, rfl⟩
  | write p content emit => exact .inl (.write p content emit .refl)
  | invalidate p => exact .inl (.invalidate p .refl)
  | retire dir keep => exact .inl (.retire dir keep .refl)
  | create =>
    have reads : ∃ qs, (s.programs.create Scanning.checker roots options s.host).2.2 =
        s.host.retainAll qs := by
      rcases s.programs.create_cases roots options s.host with
        ⟨P, qs, -, hcreate⟩ | ⟨e, qs, -, hcreate⟩
      · exact ⟨qs, by rw [hcreate]⟩
      · exact ⟨qs, by rw [hcreate]⟩
    obtain ⟨qs, hqs⟩ := reads
    have host : (s.next roots options .create).host = s.host.retainAll qs := hqs
    rw [host]
    exact .inl (s.host.uses_retainAll qs)

theorem sound_next (sound : s.host.cache.Sound []) (call : HostCall) :
    (s.next roots options call).host.cache.Sound [] := by
  rcases next_host roots options s call with use | ⟨entries, -, unread⟩
  · exact use.sound sound
  · exact sound.congr (congrArg (fun g => g.cache.files) unread) entries

/-- The revision never falls, and while it stays the host has what it had before. -/
theorem revision_next (roots : List Path) (options : CompilerOptions) (s : CheckedHost)
    (call : HostCall) :
    s.host.cache.revision ≤ (s.next roots options call).host.cache.revision ∧
      ((s.next roots options call).host.cache.revision = s.host.cache.revision →
        (s.next roots options call).host.unread = s.host.unread) := by
  rcases next_host roots options s call with use | ⟨-, revision, unread⟩
  · refine ⟨use.revision.1, fun same => ?_⟩
    simp only [Host.unread, use.revision.2 same, use.base_eq]
  · exact ⟨revision.ge, fun _ => unread⟩

theorem upToDate_next (sound : s.host.cache.Sound [])
    (upToDate : s.programs.UpToDate roots options s.host) (call : HostCall) :
    (s.next roots options call).programs.UpToDate roots options (s.next roots options call).host := by
  have rest : s.programs.UpToDate roots options (s.next roots options call).host :=
    upToDate.advance (revision_next roots options s call).1 (revision_next roots options s call).2
  cases call with
  | create => exact upToDate.programs_create sound
  | _ => exact rest

/-- What one call keeps is kept by any number of them. -/
theorem kept_run (sound : s.host.cache.Sound [])
    (upToDate : s.programs.UpToDate roots options s.host) (calls : List HostCall) :
    (s.run roots options calls).host.cache.Sound [] ∧
      (s.run roots options calls).programs.UpToDate roots options
        (s.run roots options calls).host := by
  apply List.foldlRecOn (motive := fun s : CheckedHost => s.host.cache.Sound [] ∧
    s.programs.UpToDate roots options s.host) calls (next roots options) ⟨sound, upToDate⟩
  intro s kept call _
  exact ⟨sound_next kept.1 call, upToDate_next kept.1 kept.2 call⟩

theorem revision_run (roots : List Path) (options : CompilerOptions) (s : CheckedHost)
    (calls : List HostCall) :
    s.host.cache.revision ≤ (s.run roots options calls).host.cache.revision ∧
      ((s.run roots options calls).host.cache.revision = s.host.cache.revision →
        (s.run roots options calls).host.unread = s.host.unread) := by
  induction calls generalizing s with
  | nil => exact ⟨Nat.le_refl _, fun _ => rfl⟩
  | cons call calls ih =>
    obtain ⟨rises, stays⟩ := revision_next roots options s call
    obtain ⟨rises', stays'⟩ := ih (s.next roots options call)
    refine ⟨Nat.le_trans rises rises', fun same => ?_⟩
    -- neither the call nor those after it can have moved the revision
    have first : (s.next roots options call).host.cache.revision = s.host.cache.revision :=
      Nat.le_antisymm (same ▸ rises') rises
    exact (stays' (same.trans first.symm)).trans (stays first)

/-- Whatever a host is asked to do: programs that are not stale are those that would be created now,
and as long as the revision does not move, every answer stays what it was. -/
theorem fresh_of_not_stale (files : FileSystem) (base : Path) (roots : List Path)
    (options : CompilerOptions) (calls : List HostCall) :
    let s := (ofFiles files base).run roots options calls
    (s.programs.isStale s.host = false → ∃ P, s.programs.current = some P ∧
      (s.programs.create Scanning.checker roots options s.host).1 = .ok P) ∧
    ∀ more, (s.run roots options more).host.cache.revision = s.host.cache.revision →
      (s.run roots options more).host.AnswersAlike s.host := by
  intro s
  obtain ⟨sound, upToDate⟩ := kept_run (s := ofFiles files base) (SourceCache.sound_ofFiles files)
    (.empty roots options _) calls
  refine ⟨upToDate.create_of_not_stale sound, fun more same => ?_⟩
  exact Host.answersAlike_of_unread_eq (kept_run sound upToDate more).1 sound
    ((revision_run roots options s more).2 same)

/-- A main file, and a file that cannot be read. -/
def brokenFiles : MemoryFiles :=
  ((MemoryFiles.empty.insert ⟨"/p/main.ts"⟩ "let a;").insert ⟨"/p/broken.ts"⟩ "").holdBack
    ⟨"/p/broken.ts"⟩

/-- A program is created, one more cannot be, and a last one is followed by calls that read. -/
def mendedCalls : List HostCall :=
  [.create, .write ⟨"/p/main.ts"⟩ "import './broken';" false, .create, .invalidate ⟨"/p/main.ts"⟩,
    .create, .enableCaching, .source ⟨"/p/main.ts"⟩, .list ⟨"/p"⟩, .drain]

theorem fresh_once_mended :
    let s := (ofFiles (.memory brokenFiles) ⟨"/p"⟩).run [⟨"/p/main.ts"⟩] .empty mendedCalls
    s.programs.isStale s.host = false ∧ s.programs.creations = 2 ∧
      ∃ P, s.programs.current = some P ∧
        (s.programs.create Scanning.checker [⟨"/p/main.ts"⟩] .empty s.host).1 = .ok P := by
  intro s
  have fresh : s.programs.isStale s.host = false := by decide +kernel
  refine ⟨fresh, by decide +kernel, ?_⟩
  exact (fresh_of_not_stale (.memory brokenFiles) ⟨"/p"⟩ [⟨"/p/main.ts"⟩] .empty mendedCalls).1 fresh

end CheckedHost

end Precompile
