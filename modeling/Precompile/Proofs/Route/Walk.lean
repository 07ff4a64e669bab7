import Mathlib.Logic.Relation
import Precompile.Proofs.Route.Whole

/-!
The walk over the files that routes and imports lead to, step by step.

A step takes one path off the queue. The walk has no bound on the number of its steps: it comes to
an end because each file is visited once (`walk_ends`). What it has then visited, in which order, and
whose routes it has entered does not depend on how it went: these are the files that can be reached
(`Leads`), and of two files with one key the later one has its route.
-/

namespace Precompile.Route

open Precompile.Path (Reached Explores IsSettled)

variable {P : Program} {h g : Host} {paths waiting : List Path} {p q : Path} {f : SourceFile}

/-! ### What is reached -/

/-- The paths that a start leads to, through files of the program or files that the host can read:
by their relative imports, and by their routes. -/
inductive Leads (P : Program) (h : Host) (paths : List Path) : Path → Prop where
  | start {p : Path} : p ∈ paths → Leads P h paths p
  | importing {p q : Path} {f : SourceFile} {i : Script.ImportRef} : Leads P h paths p →
      fileAt? P h p = some f → i ∈ Script.scanImports f.tokens → i.isRelative = true →
      h.resolve? i.specifier f.path = some q → Leads P h paths q
  | route {p q : Path} {f : SourceFile} {key : String} : Leads P h paths p →
      fileAt? P h p = some f → (ofFile h f).get? key = some (some q) → Leads P h paths q

/-- What is visited at a path, and goes on from there. -/
def visitAt (P : Program) (h : Host) (p : Path) : Except Empty (Option SourceFile) :=
  .ok (fileAt? P h p)

theorem visitAt_same (P : Program) (h : Host) (same : p.Same q) : visitAt P h p = visitAt P h q := by
  have key : p.components = q.components := same
  simp only [visitAt, fileAt?, Program.file?, OrderedMap.find?, key, h.source_same same]

theorem mem_successors_iff : q ∈ successors h f ↔
    (∃ key, (ofFile h f).get? key = some (some q)) ∨
      ∃ i ∈ Script.scanImports f.tokens, i.isRelative = true ∧
        h.resolve? i.specifier f.path = some q := by
  rw [successors, List.mem_append, mem_resolved_iff]
  simp [Host.importTargets, and_assoc]

theorem leads_iff : Leads P h paths p ↔ Reached (visitAt P h) (successors h) paths p := by
  constructor
  · intro leads
    induction leads with
    | start hp => exact .start hp
    | importing _ hf hi relative hq ih =>
      apply Reached.next ih (congrArg Except.ok hf)
      exact mem_successors_iff.mpr (.inr ⟨_, hi, relative, hq⟩)
    | route _ hf hkey ih =>
      apply Reached.next ih (congrArg Except.ok hf)
      exact mem_successors_iff.mpr (.inl ⟨_, hkey⟩)
  · intro reached
    induction reached with
    | start hp => exact .start hp
    | next _ hvisit hq ih =>
      have hf := Except.ok.inj hvisit
      rcases mem_successors_iff.mp hq with ⟨key, hkey⟩ | ⟨i, hi, relative, hq⟩
      · exact .route ih hf hkey
      · exact .importing ih hf hi relative hq

theorem contains_eq_isSome_file? (P : Program) (p : Path) :
    P.contains p = (P.file? p).isSome := by
  rw [Program.contains, OrderedMap.contains_eq_isSome_get?]
  simp [OrderedMap.get?, Program.file?]

/-- A path of the program, or one whose normal path is a spelling of it. -/
def Known (P : Program) (p : Path) : Prop := P.contains p = true ∨ p.IsSettled

theorem known_of_mem_successors (hq : q ∈ successors h f) : Known P q :=
  .inr (isSettled_of_mem_successors hq)

/-- A file has the name of the path at which it is found. -/
theorem same_of_fileAt? (known : Known P p) (hf : fileAt? P h p = some f) : f.path.Same p := by
  unfold fileAt? at hf
  cases hfile : P.file? p with
  | some g =>
    simp only [hfile, Option.some.injEq] at hf
    obtain ⟨e, he, rfl⟩ := Option.map_eq_some_iff.mp hfile
    rw [← hf]
    exact (OrderedMap.find?_eq_some_iff.mp he).2
  | none =>
    rw [hfile] at hf
    have absent : P.contains p = false := by simp [contains_eq_isSome_file?, hfile]
    have settled : p.IsSettled := known.resolve_left (by simp [absent])
    rw [(Host.source_eq_some_iff.mp (readable?_eq_some_iff.mp hf)).1]
    exact settled.normalize_same

/-! ### The steps -/

/-- Where a walk stands: what the host holds, the paths that wait, those that had their turn, the
files that were visited and their routes. -/
structure Walking where
  host : Host
  waiting : List Path
  seen : PathSet
  files : List SourceFile
  routes : RouteMap

/-- The file at a path, and the host, which holds what it was asked for. Files of the program are not
asked for. -/
def fetch (P : Program) (h : Host) (p : Path) : Option SourceFile × Host :=
  match P.file? p with
  | some f => (some f, h)
  | none => (readable? h p, h.retainAll [p])

namespace Walking

def start (h : Host) (paths : List Path) : Walking := ⟨h, paths, .empty, [], .empty⟩

/-- The file is visited: its routes are entered, and what it leads to waits behind the others. -/
def visit (w : Walking) (f : SourceFile) : Walking where
  host := w.host
  waiting := w.waiting ++ successors w.host f
  seen := w.seen
  files := w.files ++ [f]
  routes := w.routes.merge (ofFile w.host f)

/-- Takes one path off the queue. There is no further step when none waits. -/
def step? (P : Program) (w : Walking) : Option Walking :=
  match w.waiting with
  | [] => none
  | p :: waiting =>
    if w.seen.contains p then some { w with waiting }
    else
      let (found, host) := fetch P w.host p
      let w := { w with host, waiting, seen := OrderedSet.insert w.seen p }
      match found with
      | none => some w
      | some f => some (w.visit f)

/-- Some number of steps leads from one state to the other, where no path waits any more. -/
def Ends (P : Program) (w last : Walking) : Prop :=
  Relation.ReflTransGen (fun w w' => step? P w = some w') w last ∧ step? P last = none

end Walking

/-! ### What one step does -/

theorem fetch_fst (agrees : g.Agrees h) : (fetch P g p).1 = fileAt? P h p := by
  unfold fetch fileAt?
  cases P.file? p with
  | some f => rfl
  | none =>
    show readable? g p = readable? h p
    rw [readable?, readable?, agrees.source]

theorem agrees_fetch (agrees : g.Agrees h) : (fetch P g p).2.Agrees h := by
  unfold fetch
  cases P.file? p with
  | some f => exact agrees
  | none =>
    have read := g.agrees_retainAll [p]
    exact ⟨fun q => (read.source q).trans (agrees.source q),
      fun specifier containing => (read.resolve? specifier containing).trans
        (agrees.resolve? specifier containing)⟩

theorem retainAll_of_unreadable (hp : readable? g p = none) : g.retainAll [p] = g := by
  have unserved : ∀ content, g.cache.serve p ≠ .ok content := by
    intro content served
    have there : g.source p = .ok (some ⟨p.normalize, content⟩) :=
      Host.source_eq_some_iff.mpr ⟨rfl, served⟩
    rw [readable?_eq_some_iff.mpr there] at hp
    cases hp
  suffices same : g.cache.retain p = g.cache by
    simp [Host.retainAll, Host.mapCache, SourceCache.retainAll, same]
  unfold SourceCache.retain
  split
  next absent =>
    split
    next content hread =>
      -- what the file system has and the cache lacks would be served
      simp only [Bool.and_eq_true, Bool.not_eq_true', OrderedMap.contains_eq_isSome_get?,
        Option.isSome_eq_false_iff, Option.isNone_iff_eq_none] at absent
      apply absurd _ (unserved content)
      rw [SourceCache.serve, absent.2, hread]
    next => rfl
  next => rfl

/-- What could not be read is not held. -/
theorem fetch_snd_of_none (hp : (fetch P g p).1 = none) : (fetch P g p).2 = g := by
  unfold fetch at hp ⊢
  cases hfile : P.file? p with
  | some f => rfl
  | none =>
    rw [hfile] at hp
    exact retainAll_of_unreadable hp

theorem ofFile_agrees (agrees : g.Agrees h) (f : SourceFile) : ofFile g f = ofFile h f := by
  simp only [ofFile, agrees.resolve?]

theorem successors_agrees (agrees : g.Agrees h) (f : SourceFile) :
    successors g f = successors h f := by
  simp only [successors, ofFile_agrees agrees, agrees.importTargets]

theorem afterReach_cons (known : Known P p) (hf : (fetch P g p).1 = some f)
    (rest : List SourceFile) : afterReach P (fetch P g p).2 rest = afterReach P g (f :: rest) := by
  have same : f.path.Same p :=
    same_of_fileAt? known ((fetch_fst ⟨fun _ => rfl, fun _ _ => rfl⟩).symm.trans hf)
  have contains : P.contains f.path = (P.file? p).isSome := by
    rw [← contains_eq_isSome_file?]
    exact OrderedMap.contains_congr P.files same
  unfold fetch at hf ⊢
  cases hfile : P.file? p with
  | some g => simp [afterReach, contains, hfile]
  | none =>
    rw [hfile] at hf
    -- the file is named by the normal path, under which it is held
    have hpath := (Host.source_eq_some_iff.mp (readable?_eq_some_iff.mp hf)).1
    have held : g.retainAll [p] = g.retainAll [f.path] := by
      simp [Host.retainAll, Host.mapCache, SourceCache.retainAll, SourceCache.retain, hpath,
        Path.normalize_normalize]
    simp [afterReach, contains, hfile, held, Host.retainAll_retainAll]

namespace Walking

variable {w : Walking}

theorem step?_of_seen (seen : w.seen.contains p = true) (hw : w.waiting = p :: waiting) :
    step? P w = some { w with waiting } := by
  simp [step?, hw, seen]

theorem step?_of_nothing (unseen : w.seen.contains p = false) (hw : w.waiting = p :: waiting)
    (hp : (fetch P w.host p).1 = none) :
    step? P w = some { w with waiting, seen := OrderedSet.insert w.seen p } := by
  have held := fetch_snd_of_none hp
  simp [step?, hw, unseen, hp, held]

theorem step?_of_found (unseen : w.seen.contains p = false) (hw : w.waiting = p :: waiting)
    (hp : (fetch P w.host p).1 = some f) :
    step? P w = some (visit { w with
      host := (fetch P w.host p).2, waiting, seen := OrderedSet.insert w.seen p } f) := by
  simp [step?, hw, unseen, hp]

theorem Ends.head {w w' last : Walking} (step : step? P w = some w') (ends : w'.Ends P last) :
    w.Ends P last := ⟨.head step ends.1, ends.2⟩

end Walking

/-! ### The whole walk -/

/-- The steps of a walk go the way that an exploration goes, whatever was visited before. -/
theorem ends_of_explores {seen : PathSet} {r : Explored SourceFile Empty}
    (explores : Explores (visitAt P h) (successors h) waiting seen r)
    (known : ∀ p ∈ waiting, Known P p) (agrees : g.Agrees h) (files : List SourceFile)
    (routes : RouteMap) :
    ∃ last, Walking.Ends P ⟨g, waiting, seen, files, routes⟩ last ∧
      last.files = files ++ r.found ∧
      last.routes = r.found.foldl (fun m f => m.merge (ofFile h f)) routes ∧
      last.host = afterReach P g r.found := by
  induction explores generalizing g files routes with
  | @done seen =>
    exact ⟨⟨g, [], seen, files, routes⟩, ⟨.refl, rfl⟩, by simp, rfl, rfl⟩
  | again hseen _ ih =>
    obtain ⟨last, ends, rest⟩ := ih (fun q hq => known q (List.mem_cons_of_mem _ hq)) agrees files routes
    exact ⟨last, ends.head (Walking.step?_of_seen hseen rfl), rest⟩
  | @failed _ _ _ e => exact e.elim
  | nothing unseen hvisit _ ih =>
    obtain ⟨last, ends, rest⟩ := ih (fun q hq => known q (List.mem_cons_of_mem _ hq)) agrees files routes
    have hp := (fetch_fst agrees).trans (Except.ok.inj hvisit)
    exact ⟨last, ends.head (Walking.step?_of_nothing unseen rfl hp), rest⟩
  | @found p waiting seen r f unseen hvisit _ ih =>
    have hp := (fetch_fst agrees).trans (Except.ok.inj hvisit)
    have agrees' : (fetch P g p).2.Agrees h := agrees_fetch agrees
    have known' : ∀ q ∈ waiting ++ successors h f, Known P q := by
      intro q hq
      rcases List.mem_append.mp hq with hq | hq
      · exact known q (List.mem_cons_of_mem _ hq)
      · exact known_of_mem_successors hq
    obtain ⟨last, ends, hfiles, hroutes, hhost⟩ :=
      ih known' agrees' (files ++ [f]) (routes.merge (ofFile h f))
    rw [afterReach_cons (known p List.mem_cons_self) hp] at hhost
    refine ⟨last, ends.head ?_, by simp [hfiles, Explored.cons], hroutes, hhost⟩
    rw [Walking.step?_of_found unseen rfl hp, Walking.visit]
    simp only [successors_agrees agrees', ofFile_agrees agrees']

theorem Leads.known (known : ∀ p ∈ paths, Known P p) (leads : Leads P h paths p) : Known P p := by
  rw [leads_iff] at leads
  cases leads with
  | start hp => exact known p hp
  | next _ _ hq => exact known_of_mem_successors hq

theorem mem_reach_iff_leads (known : ∀ p ∈ paths, Known P p) :
    f ∈ reach P h paths ↔
      ∃ p, Leads P h paths p ∧ f.path.Same p ∧ fileAt? P h p = some f := by
  have explores := explores_fileAt? P h known
  constructor
  · intro hf
    obtain ⟨p, hp, hvisit⟩ := explores.reached_of_found (fun q hq => .start hq) f hf
    have leads : Leads P h paths p := leads_iff.mpr hp
    exact ⟨p, leads, same_of_fileAt? (leads.known known) (Except.ok.inj hvisit), Except.ok.inj hvisit⟩
  · rintro ⟨p, leads, -, hp⟩
    have found := explores.found_of_reached (fun _ _ same => visitAt_same P h same) rfl
      (leads_iff.mp leads)
    rcases found with nothing | ⟨b, hb, hvisit⟩
    · cases (Except.ok.inj nothing).symm.trans hp
    · cases (Except.ok.inj hvisit).symm.trans hp
      exact hb

theorem reach_apart (known : ∀ p ∈ paths, Known P p) :
    (reach P h paths).Pairwise fun f g => ¬ f.path.Same g.path :=
  ((explores_fileAt? P h known).apart_of_found (G := Known P) (N := SourceFile.path)
    (fun _ _ known hvisit => same_of_fileAt? known (Except.ok.inj hvisit))
    (fun _ _ _ _ _ hq => known_of_mem_successors hq) known).1

/-- The walk comes to an end. It has then visited the files that can be reached, each of them once;
it has entered the routes of these files, each key with the route of the last file that has it; and
the host holds the files that are not the program's. -/
theorem walk_ends (P : Program) (h : Host) (known : ∀ p ∈ paths, Known P p) :
    ∃ last, (Walking.start h paths).Ends P last ∧
      last.files = reach P h paths ∧ last.host = afterReach P h last.files ∧
      (∀ f, f ∈ last.files ↔
        ∃ p, Leads P h paths p ∧ f.path.Same p ∧ fileAt? P h p = some f) ∧
      last.files.Pairwise (fun f g => ¬ f.path.Same g.path) ∧
      (∀ key, key ∈ last.routes.keys ↔ ∃ f ∈ last.files, key ∈ (ofFile h f).keys) ∧
      ∀ key, last.routes.get? key =
        (last.files.filterMap fun f => (ofFile h f).get? key).getLast? := by
  have explores : Explores (visitAt P h) (successors h) paths .empty ⟨reach P h paths, none⟩ :=
    explores_fileAt? P h known
  obtain ⟨last, ends, hfiles, hroutes, hhost⟩ :=
    ends_of_explores explores known ⟨fun _ => rfl, fun _ _ => rfl⟩ [] .empty
  have files : last.files = reach P h paths := hfiles
  have routes : last.routes = ofFiles h last.files := by rw [hroutes, files]; rfl
  have value : ∀ key, last.routes.get? key =
      (last.files.filterMap fun f => (ofFile h f).get? key).getLast? := by
    intro key
    rw [routes, get?_ofFiles]
  refine ⟨last, ends, files, by rw [hhost, files], fun f => ?_, ?_, fun key => ?_, value⟩
  · rw [files, mem_reach_iff_leads known]
  · rw [files]
    exact reach_apart known
  · simp only [RouteMap.mem_keys_iff, value]
    constructor
    · rintro ⟨v, hv⟩
      obtain ⟨f, hf, hkey⟩ := List.mem_filterMap.mp (List.mem_of_getLast? hv)
      exact ⟨f, hf, v, hkey⟩
    · rintro ⟨f, hf, v, hkey⟩
      have listed : v ∈ last.files.filterMap fun f => (ofFile h f).get? key :=
        List.mem_filterMap.mpr ⟨f, hf, hkey⟩
      exact ⟨_, List.getLast?_eq_some_getLast (List.ne_nil_of_mem listed)⟩

/-- Files that lead to each other and to themselves, and to a module that is not there. Two of them
have routes of one name. -/
def loopFiles : MemoryFiles :=
  [(⟨"/m.ts"⟩, "import './s/n'; loadChildren:'./r#R'"), (⟨"/r.ts"⟩, "import './r'"),
    (⟨"/s/n.ts"⟩, "import '../m'; loadChildren:'./r#R' loadChildren:'./gone'"), (⟨"/s/r.ts"⟩, "")].foldl
    (fun (m : MemoryFiles) f => m.insert f.1 f.2) .empty

def loopHost : Host := .ofFiles (.memory loopFiles) ⟨"/"⟩

/-- The program of the first of these files alone. -/
def loopProgram : Program :=
  ⟨[⟨"/m.ts"⟩], .ofList [(⟨"/m.ts"⟩, "import './s/n'; loadChildren:'./r#R'")], .empty⟩

theorem walk_ends_loop : ∃ last, (Walking.start loopHost [⟨"/m.ts"⟩]).Ends loopProgram last ∧
    last.files.map SourceFile.path = [⟨"/m.ts"⟩, ⟨"/r.ts"⟩, ⟨"/s/n.ts"⟩, ⟨"/s/r.ts"⟩] ∧
    last.routes.get? "./r#R" = some (some ⟨"/s/r.ts"⟩) ∧ last.routes.get? "./gone" = some none := by
  obtain ⟨known, paths, named, gone⟩ :
      (∀ p ∈ [Path.mk "/m.ts"], loopProgram.contains p = true) ∧
      (reach loopProgram loopHost [⟨"/m.ts"⟩]).map SourceFile.path =
        [⟨"/m.ts"⟩, ⟨"/r.ts"⟩, ⟨"/s/n.ts"⟩, ⟨"/s/r.ts"⟩] ∧
      ((reach loopProgram loopHost [⟨"/m.ts"⟩]).filterMap
        fun f => (ofFile loopHost f).get? "./r#R").getLast? = some (some ⟨"/s/r.ts"⟩) ∧
      ((reach loopProgram loopHost [⟨"/m.ts"⟩]).filterMap
        fun f => (ofFile loopHost f).get? "./gone").getLast? = some none := by
    decide +kernel
  obtain ⟨last, ends, files, -, -, -, -, value⟩ :=
    walk_ends loopProgram loopHost fun p hp => .inl (known p hp)
  refine ⟨last, ends, by rw [files, paths], ?_, ?_⟩
  · rw [value, files, named]
  · rw [value, files, gone]

end Precompile.Route
