import Precompile.Path.Exploration
import Precompile.Proofs.OrderedMap

/-!
What explorations find.

`Explores` says how an exploration goes on without a budget. A budget that leaves room for everything
there is to be found changes nothing (`explores_explore`), and what is found is exactly what can be
reached (`Explores.reached_of_found`, `Explores.found_of_reached`).
-/

namespace Precompile.Path

variable {β ε : Type} {visit : Path → Except ε (Option β)} {next : β → List Path}

/-- The paths that the finds lead to from a start. -/
inductive Reached (visit : Path → Except ε (Option β)) (next : β → List Path)
    (start : List Path) : Path → Prop where
  | start {p : Path} : p ∈ start → Reached visit next start p
  | next {p q : Path} {b : β} : Reached visit next start p → visit p = .ok (some b) → q ∈ next b →
      Reached visit next start q

/-- How an exploration goes on from waiting and seen paths, and what it finds. -/
inductive Explores (visit : Path → Except ε (Option β)) (next : β → List Path) :
    List Path → PathSet → Explored β ε → Prop where
  | done {seen : PathSet} : Explores visit next [] seen ⟨[], none⟩
  | again {p : Path} {waiting : List Path} {seen : PathSet} {r : Explored β ε} :
      seen.contains p = true → Explores visit next waiting seen r →
      Explores visit next (p :: waiting) seen r
  | failed {p : Path} {waiting : List Path} {seen : PathSet} {e : ε} :
      seen.contains p = false → visit p = .error e →
      Explores visit next (p :: waiting) seen ⟨[], some e⟩
  | nothing {p : Path} {waiting : List Path} {seen : PathSet} {r : Explored β ε} :
      seen.contains p = false → visit p = .ok none →
      Explores visit next waiting (OrderedSet.insert seen p) r →
      Explores visit next (p :: waiting) seen r
  | found {p : Path} {waiting : List Path} {seen : PathSet} {r : Explored β ε} {b : β} :
      seen.contains p = false → visit p = .ok (some b) →
      Explores visit next (waiting ++ next b) (OrderedSet.insert seen p) r →
      Explores visit next (p :: waiting) seen (r.cons b)

/-! ### The budget -/

/-- No more than `n` different good paths that were not seen hold something. -/
def Room (visit : Path → Except ε (Option β)) (Good : Path → Prop) (n : Nat) (seen : PathSet) :
    Prop :=
  ∀ ks : List Path, ks.Pairwise (fun p q => ¬ p.Same q) →
    (∀ k ∈ ks, Good k ∧ seen.contains k = false ∧ ∃ b, visit k = .ok (some b)) → ks.length ≤ n

theorem Room.insert {Good : Path → Prop} {n : Nat} {seen : PathSet} (h : Room visit Good n seen)
    (p : Path) : Room visit Good n (OrderedSet.insert seen p) := by
  intro ks apart hks
  refine h ks apart fun k hk => ?_
  obtain ⟨good, unseen, holds⟩ := hks k hk
  rw [OrderedSet.contains_insert, Bool.or_eq_false_iff] at unseen
  exact ⟨good, unseen.2, holds⟩

theorem Room.of_found {Good : Path → Prop} {n : Nat} {seen : PathSet} {p : Path} {b : β}
    (h : Room visit Good n seen) (good : Good p) (unseen : seen.contains p = false)
    (holds : visit p = .ok (some b)) :
    ∃ m, n = m + 1 ∧ Room visit Good m (OrderedSet.insert seen p) := by
  -- what remains unseen together with the find itself is still apart
  have more : ∀ ks : List Path, ks.Pairwise (fun p q => ¬ p.Same q) →
      (∀ k ∈ ks, Good k ∧ (OrderedSet.insert seen p).contains k = false ∧
        ∃ b, visit k = .ok (some b)) → ks.length + 1 ≤ n := by
    intro ks apart hks
    refine h (p :: ks) (List.pairwise_cons.mpr ⟨fun k hk hsame => ?_, apart⟩) ?_
    · obtain ⟨-, unseen, -⟩ := hks k hk
      have hkey : p.components = k.components := hsame
      simp [OrderedSet.contains_insert, hkey] at unseen
    · intro k hk
      rcases List.mem_cons.mp hk with rfl | hk
      · exact ⟨good, unseen, b, holds⟩
      · obtain ⟨good, unseen, holds⟩ := hks k hk
        rw [OrderedSet.contains_insert, Bool.or_eq_false_iff] at unseen
        exact ⟨good, unseen.2, holds⟩
  have pos : 1 ≤ n := more [] .nil (by simp)
  obtain ⟨m, rfl⟩ : ∃ m, n = m + 1 := ⟨n - 1, by omega⟩
  exact ⟨m, rfl, fun ks apart hks => Nat.le_of_succ_le_succ (more ks apart hks)⟩

theorem explores_of_search_finished {waiting : List Path} {seen : PathSet}
    (h : search visit waiting seen = .finished) : Explores visit next waiting seen ⟨[], none⟩ := by
  fun_induction search visit waiting seen with
  | case1 seen => exact .done
  | case2 p waiting seen hseen ih => exact .again hseen (ih h)
  | case3 => cases h
  | case4 p waiting seen hseen hvisit ih =>
    exact .nothing (by simpa using hseen) hvisit (ih h)
  | case5 => cases h

theorem explores_of_search_failed {waiting : List Path} {seen : PathSet} {e : ε}
    (h : search visit waiting seen = .failed e) :
    Explores visit next waiting seen ⟨[], some e⟩ := by
  fun_induction search visit waiting seen with
  | case1 => cases h
  | case2 p waiting seen hseen ih => exact .again hseen (ih h)
  | case3 p waiting seen hseen e hvisit =>
    cases h
    exact .failed (by simpa using hseen) hvisit
  | case4 p waiting seen hseen hvisit ih =>
    exact .nothing (by simpa using hseen) hvisit (ih h)
  | case5 => cases h

/-- Where a search finds something, an exploration goes on from there, and the find takes up one
place. -/
theorem explores_of_search_found (next : β → List Path) {Good : Path → Prop} {n : Nat}
    {waiting rest : List Path} {seen last : PathSet} {b : β} (good : ∀ p ∈ waiting, Good p)
    (room : Room visit Good n seen) (h : search visit waiting seen = .found b rest last) :
    (∀ r, Explores visit next (rest ++ next b) last r → Explores visit next waiting seen (r.cons b)) ∧
      (∀ p ∈ rest, Good p) ∧ (∃ p, Good p ∧ visit p = .ok (some b)) ∧
      ∃ m, n = m + 1 ∧ Room visit Good m last := by
  fun_induction search visit waiting seen with
  | case1 => cases h
  | case2 p waiting seen hseen ih =>
    obtain ⟨more, rest⟩ := ih (fun q hq => good q (List.mem_cons_of_mem _ hq)) room h
    exact ⟨fun r hr => .again hseen (more r hr), rest⟩
  | case3 => cases h
  | case4 p waiting seen hseen hvisit ih =>
    obtain ⟨more, rest⟩ :=
      ih (fun q hq => good q (List.mem_cons_of_mem _ hq)) (room.insert p) h
    exact ⟨fun r hr => .nothing (by simpa using hseen) hvisit (more r hr), rest⟩
  | case5 p waiting seen hseen b hvisit =>
    cases h
    have hp := good p List.mem_cons_self
    exact ⟨fun r hr => .found (by simpa using hseen) hvisit hr,
      fun q hq => good q (List.mem_cons_of_mem _ hq), ⟨p, hp, hvisit⟩,
      room.of_found hp (by simpa using hseen) hvisit⟩

/-- A budget that leaves room for everything that is there does not end an exploration. -/
theorem explores_explore {G : Path → Prop}
    (leads : ∀ p b, G p → visit p = .ok (some b) → ∀ q ∈ next b, G q)
    (budget : Nat) (waiting : List Path) (seen : PathSet) (good : ∀ p ∈ waiting, G p)
    (room : Room visit G budget seen) :
    Explores visit next waiting seen (explore visit next budget waiting seen) := by
  induction budget generalizing waiting seen with
  | zero =>
    unfold explore
    cases hsearch : search visit waiting seen with
    | finished => exact explores_of_search_finished hsearch
    | failed e => exact explores_of_search_failed hsearch
    | found b rest last =>
      obtain ⟨-, -, -, m, hm, -⟩ := explores_of_search_found next good room hsearch
      omega
  | succ budget ih =>
    unfold explore
    cases hsearch : search visit waiting seen with
    | finished => exact explores_of_search_finished hsearch
    | failed e => exact explores_of_search_failed hsearch
    | found b rest last =>
      obtain ⟨more, hrest, ⟨p, hp, hvisit⟩, m, hm, hroom⟩ :=
        explores_of_search_found next good room hsearch
      -- the find took up one place, so the smaller budget has room for the rest
      have hbudget : m = budget := by omega
      refine more _ (ih _ _ (fun q hq => ?_) (hbudget ▸ hroom))
      rcases List.mem_append.mp hq with hq | hq
      · exact hrest q hq
      · exact leads p b hp hvisit q hq

/-! ### The result -/

/-- What an exploration finds is determined. -/
theorem Explores.unique {waiting : List Path} {seen : PathSet} {r r' : Explored β ε}
    (h : Explores visit next waiting seen r) (h' : Explores visit next waiting seen r') :
    r = r' := by
  induction h generalizing r' with
  | done => cases h'; rfl
  | again hseen _ ih =>
    cases h' with
    | again _ h' => exact ih h'
    | failed hunseen _ => simp [hseen] at hunseen
    | nothing hunseen _ _ => simp [hseen] at hunseen
    | found hunseen _ _ => simp [hseen] at hunseen
  | failed hunseen hvisit =>
    cases h' with
    | again hseen _ => simp [hunseen] at hseen
    | failed _ hvisit' => rw [Except.error.inj (hvisit.symm.trans hvisit')]
    | nothing _ hvisit' _ => cases hvisit.symm.trans hvisit'
    | found _ hvisit' _ => cases hvisit.symm.trans hvisit'
  | nothing hunseen hvisit _ ih =>
    cases h' with
    | again hseen _ => simp [hunseen] at hseen
    | failed _ hvisit' => cases hvisit.symm.trans hvisit'
    | nothing _ _ h' => exact ih h'
    | found _ hvisit' _ => cases hvisit.symm.trans hvisit'
  | found hunseen hvisit _ ih =>
    cases h' with
    | again hseen _ => simp [hunseen] at hseen
    | failed _ hvisit' => cases hvisit.symm.trans hvisit'
    | nothing _ hvisit' _ => cases hvisit.symm.trans hvisit'
    | found _ hvisit' h' =>
      cases hvisit.symm.trans hvisit'
      rw [ih h']

theorem Reached.of_find {p : Path} {b : β} {waiting start : List Path}
    (hvisit : visit p = .ok (some b)) (hp : Reached visit next start p)
    (hwaiting : ∀ q ∈ waiting, Reached visit next start q) :
    ∀ q ∈ waiting ++ next b, Reached visit next start q := by
  intro q hq
  rcases List.mem_append.mp hq with hq | hq
  · exact hwaiting q hq
  · exact hp.next hvisit hq

/-- Everything that is found was reached. -/
theorem Explores.reached_of_found {start waiting : List Path} {seen : PathSet}
    {r : Explored β ε} (h : Explores visit next waiting seen r)
    (hwaiting : ∀ q ∈ waiting, Reached visit next start q) :
    ∀ b ∈ r.found, ∃ p, Reached visit next start p ∧ visit p = .ok (some b) := by
  induction h with
  | done => simp
  | again _ _ ih => exact ih fun q hq => hwaiting q (List.mem_cons_of_mem _ hq)
  | failed => simp
  | nothing _ _ _ ih => exact ih fun q hq => hwaiting q (List.mem_cons_of_mem _ hq)
  | found _ hvisit _ ih =>
    intro b hb
    have hp := hwaiting _ List.mem_cons_self
    rcases List.mem_cons.mp hb with rfl | hb
    · exact ⟨_, hp, hvisit⟩
    · exact ih (Reached.of_find hvisit hp fun q hq => hwaiting q (List.mem_cons_of_mem _ hq)) b hb

/-- A failure is that of a path that was reached. -/
theorem Explores.reached_of_failure {start waiting : List Path} {seen : PathSet}
    {r : Explored β ε} (h : Explores visit next waiting seen r)
    (hwaiting : ∀ q ∈ waiting, Reached visit next start q) {e : ε} (he : r.failure = some e) :
    ∃ p, Reached visit next start p ∧ visit p = .error e := by
  induction h with
  | done => cases he
  | again _ _ ih => exact ih (fun q hq => hwaiting q (List.mem_cons_of_mem _ hq)) he
  | failed _ hvisit => exact ⟨_, hwaiting _ List.mem_cons_self, Option.some.inj he ▸ hvisit⟩
  | nothing _ _ _ ih => exact ih (fun q hq => hwaiting q (List.mem_cons_of_mem _ hq)) he
  | found _ hvisit _ ih =>
    have hp := hwaiting _ List.mem_cons_self
    exact ih (Reached.of_find hvisit hp fun q hq => hwaiting q (List.mem_cons_of_mem _ hq)) he

/-- A path at which nothing is left to be done: nothing is there, or what is there was found and all
that it leads on to is seen. -/
def Exhausted (visit : Path → Except ε (Option β)) (next : β → List Path) (found : List β)
    (seen : PathSet) (p : Path) : Prop :=
  visit p = .ok none ∨
    ∃ b ∈ found, visit p = .ok (some b) ∧ ∀ q ∈ next b, seen.contains q = true

/-- An exploration that does not fail ends with a set of seen paths that holds all that waited, and
at each new member nothing is left to be done. -/
theorem Explores.exists_seen (same : ∀ p q : Path, p.Same q → visit p = visit q)
    {waiting : List Path} {seen : PathSet} {r : Explored β ε}
    (h : Explores visit next waiting seen r) (hr : r.failure = none) :
    ∃ last : PathSet, (∀ p, seen.contains p = true → last.contains p = true) ∧
      (∀ p ∈ waiting, last.contains p = true) ∧
      ∀ p, last.contains p = true → seen.contains p = true ∨
        Exhausted visit next r.found last p := by
  induction h with
  | @done seen => exact ⟨seen, fun _ h => h, by simp, fun _ h => .inl h⟩
  | again hseen _ ih =>
    obtain ⟨last, hsub, hwaiting, hlast⟩ := ih hr
    exact ⟨last, hsub, List.forall_mem_cons.mpr ⟨hsub _ hseen, hwaiting⟩, hlast⟩
  | failed => cases hr
  | @nothing p waiting seen r _ hvisit _ ih =>
    obtain ⟨last, hsub, hwaiting, hlast⟩ := ih hr
    have hp : last.contains p = true := hsub p (OrderedSet.contains_insert_self _ _)
    refine ⟨last, fun q hq => hsub q (OrderedSet.contains_insert_of_contains hq p),
      List.forall_mem_cons.mpr ⟨hp, hwaiting⟩, fun q hq => ?_⟩
    -- a member is the path itself, was seen before, or came later
    rcases hlast q hq with hq | hq
    · rw [OrderedSet.contains_insert, Bool.or_eq_true, decide_eq_true_eq] at hq
      rcases hq with hq | hq
      · exact .inr (.inl ((same p q hq).symm.trans hvisit))
      · exact .inl hq
    · exact .inr hq
  | @found p waiting seen r b _ hvisit _ ih =>
    obtain ⟨last, hsub, hwaiting, hlast⟩ := ih hr
    have hp : last.contains p = true := hsub p (OrderedSet.contains_insert_self _ _)
    refine ⟨last, fun q hq => hsub q (OrderedSet.contains_insert_of_contains hq p),
      List.forall_mem_cons.mpr ⟨hp, fun q hq => hwaiting q (List.mem_append_left _ hq)⟩,
      fun q hq => ?_⟩
    have hnext : ∀ q ∈ next b, last.contains q = true :=
      fun q hq => hwaiting q (List.mem_append_right _ hq)
    rcases hlast q hq with hq | hq | ⟨d, hd, hq⟩
    · rw [OrderedSet.contains_insert, Bool.or_eq_true, decide_eq_true_eq] at hq
      rcases hq with hq | hq
      · exact .inr (.inr ⟨b, List.mem_cons_self, (same p q hq).symm.trans hvisit, hnext⟩)
      · exact .inl hq
    · exact .inr (.inl hq)
    · exact .inr (.inr ⟨d, List.mem_cons_of_mem _ hd, hq⟩)

/-- An exploration that does not fail finds everything that can be reached. -/
theorem Explores.found_of_reached (same : ∀ p q : Path, p.Same q → visit p = visit q)
    {start : List Path} {r : Explored β ε} (h : Explores visit next start .empty r)
    (hr : r.failure = none) {p : Path} (hp : Reached visit next start p) :
    visit p = .ok none ∨ ∃ b ∈ r.found, visit p = .ok (some b) := by
  obtain ⟨last, -, hstart, hlast⟩ := h.exists_seen same hr
  have exhausted : ∀ q, last.contains q = true → Exhausted visit next r.found last q := by
    intro q hq
    exact (hlast q hq).resolve_left (by simp)
  -- by induction on the way to the path: finds lead to seen paths only
  have hseen : last.contains p = true := by
    induction hp with
    | start hp => exact hstart _ hp
    | next _ hvisit hq ih =>
      rcases exhausted _ ih with hnone | ⟨b, -, hb, hnext⟩
      · cases hnone.symm.trans hvisit
      · cases hb.symm.trans hvisit
        exact hnext _ hq
  rcases exhausted p hseen with hnone | ⟨b, hb, hvisit, -⟩
  · exact .inl hnone
  · exact .inr ⟨b, hb, hvisit⟩

/-- Where what is found has the name of the path at which it is found, an exploration finds nothing
twice, and nothing that was seen before. -/
theorem Explores.apart_of_found {G : Path → Prop} {N : β → Path}
    (named : ∀ p b, G p → visit p = .ok (some b) → (N b).Same p)
    (leads : ∀ p b, G p → visit p = .ok (some b) → ∀ q ∈ next b, G q)
    {waiting : List Path} {seen : PathSet} {r : Explored β ε}
    (h : Explores visit next waiting seen r) (good : ∀ p ∈ waiting, G p) :
    r.found.Pairwise (fun a b => ¬ (N a).Same (N b)) ∧
      ∀ b ∈ r.found, seen.contains (N b) = false := by
  induction h with
  | done => exact ⟨.nil, by simp⟩
  | failed => exact ⟨.nil, by simp⟩
  | again _ _ ih => exact ih fun q hq => good q (List.mem_cons_of_mem _ hq)
  | nothing _ _ _ ih =>
    obtain ⟨apart, unseen⟩ := ih fun q hq => good q (List.mem_cons_of_mem _ hq)
    refine ⟨apart, fun b hb => ?_⟩
    have hb := unseen b hb
    rw [OrderedSet.contains_insert, Bool.or_eq_false_iff] at hb
    exact hb.2
  | @found p waiting seen r b hseen hvisit _ ih =>
    have hp := good p List.mem_cons_self
    have same := named p b hp hvisit
    obtain ⟨apart, unseen⟩ := ih fun q hq => (List.mem_append.mp hq).elim
      (fun hq => good q (List.mem_cons_of_mem _ hq)) (leads p b hp hvisit q)
    simp only [OrderedSet.contains_insert, Bool.or_eq_false_iff, decide_eq_false_iff_not] at unseen
    refine ⟨List.pairwise_cons.mpr ⟨fun a ha hsame => ?_, apart⟩, List.forall_mem_cons.mpr ⟨?_, ?_⟩⟩
    · exact (unseen a ha).1 (same.symm.trans hsame)
    · exact (OrderedMap.contains_congr seen same).trans hseen
    · exact fun a ha => (unseen a ha).2

/-! ### Explorations that lead nowhere else -/

/-- Nothing is found where every waiting path is seen or holds nothing. -/
theorem explores_of_nothing {waiting : List Path} {seen : PathSet}
    (nothing : ∀ p ∈ waiting, seen.contains p = true ∨ visit p = .ok none) :
    Explores visit next waiting seen ⟨[], none⟩ := by
  induction waiting generalizing seen with
  | nil => exact .done
  | cons p waiting ih =>
    obtain ⟨hp, rest⟩ := List.forall_mem_cons.mp nothing
    cases hseen : seen.contains p with
    | true => exact .again hseen (ih rest)
    | false =>
      have hnone := hp.resolve_left (by simp [hseen])
      refine .nothing hseen hnone (ih fun q hq => ?_)
      exact (rest q hq).imp_left fun hq => OrderedSet.contains_insert_of_contains hq p

/-- An exploration from paths that lead to nothing but each other finds what is at these paths, in
their order, however they lead to each other. -/
theorem explores_of_closed {start later : List Path} {seen : PathSet} {finds : List β}
    (visits : List.Forall₂ (fun p b => visit p = .ok (some b)) start finds)
    (apart : start.Pairwise fun p q => ¬ p.Same q) (unseen : ∀ p ∈ start, seen.contains p = false)
    (closed : ∀ q ∈ later ++ finds.flatMap next,
      seen.contains q = true ∨ visit q = .ok none ∨ ∃ p ∈ start, p.Same q) :
    Explores visit next (start ++ later) seen ⟨finds, none⟩ := by
  -- what a find leads to joins the queue behind the start, where all of it is seen when its turn comes
  induction visits generalizing later seen with
  | nil =>
    refine explores_of_nothing fun q hq => ?_
    simpa using closed q (List.mem_append_left _ hq)
  | @cons p b start finds hvisit _ ih =>
    obtain ⟨hp, apart⟩ := List.pairwise_cons.mp apart
    obtain ⟨hunseen, unseen⟩ := List.forall_mem_cons.mp unseen
    have rest : Explores visit next (start ++ (later ++ next b)) (OrderedSet.insert seen p)
        ⟨finds, none⟩ := by
      refine ih apart (fun q hq => ?_) fun q hq => ?_
      · have hne : ¬ p.components = q.components := hp q hq
        simp [OrderedSet.contains_insert, hne, unseen q hq]
      · rw [List.append_assoc, ← List.flatMap_cons] at hq
        rw [OrderedSet.contains_insert, Bool.or_eq_true, decide_eq_true_eq, or_assoc]
        rcases closed q hq with hseen | hnone | ⟨r, hr, same⟩
        · exact .inr (.inl hseen)
        · exact .inr (.inr (.inl hnone))
        · rcases List.mem_cons.mp hr with rfl | hr
          · exact .inl same
          · exact .inr (.inr (.inr ⟨r, hr, same⟩))
    rw [← List.append_assoc] at rest
    exact .found hunseen hvisit rest

end Precompile.Path
