import Precompile.Factory.Generator
import Precompile.Proofs.Host

/-!
What the generator of factories does to the host.

It reads files, writes factories at their places, and retires what lies below the directory of
generated files. What is kept by each of these is kept by a generation (`generate_induction`).
-/

namespace Precompile.Factory

/-- A source that gets a factory. -/
def getsFactory (o : BuildOptions) (f : SourceFile) : Bool :=
  isInput o f.path && !(decoratedClasses f).isEmpty

/-- The place of the factory of a source. -/
def placeOf (o : BuildOptions) (f : SourceFile) : Path := (planOf o).factoryPath f.path

section Induction

variable {Q : Host → Prop} (read : ∀ h p, Q h → Q (h.mapCache (·.retain p)))

include read

/-- Providing a text reads its place, and writes it at most. -/
theorem provide_induction (target : Path) (content : String)
    (write : ∀ h, Q h → Q (h.mapCache (·.write target content false))) {h : Host} (start : Q h) :
    Q (provide target content h).2 := by
  unfold provide
  split
  · exact start
  · dsimp only
    split
    · exact read _ target start
    · exact write _ (read _ target start)

theorem generateFor_induction {o : BuildOptions} (loader : ResourceLoader) (f : SourceFile)
    (write : getsFactory o f = true → ∀ h content, Q h →
      Q (h.mapCache (·.write (placeOf o f) content false))) {h : Host} (start : Q h) :
    Q (generateFor o loader f h).2 := by
  unfold generateFor
  dsimp only
  split
  · exact start
  next hgets =>
    split
    · exact start
    · have gets : getsFactory o f = true := by simpa [getsFactory] using hgets
      have after := provide_induction read (placeOf o f)
        (render f.path (placeOf o f) (decoratedClasses f) o.i18n.locale)
        (fun h => write gets h _) start
      unfold placeOf at after
      split
      next hprovide => rwa [hprovide] at after
      next hprovide => rwa [hprovide] at after

theorem generateAll_induction {o : BuildOptions} (loader : ResourceLoader) (fs : List SourceFile)
    (write : ∀ f ∈ fs, getsFactory o f = true → ∀ h content, Q h →
      Q (h.mapCache (·.write (placeOf o f) content false))) {h : Host} (start : Q h) :
    Q (generateAll o loader fs h).2 := by
  fun_induction generateAll o loader fs h with
  | case1 => exact start
  | case2 f fs h e after hf =>
    have hafter := generateFor_induction read loader f (write f List.mem_cons_self) start
    rwa [hf] at hafter
  | case3 f fs h target after hf e last hfs ih =>
    have hafter := generateFor_induction read loader f (write f List.mem_cons_self) start
    rw [hf] at hafter
    rw [hfs] at ih
    exact ih (fun g hg => write g (List.mem_cons_of_mem _ hg)) hafter
  | case4 f fs h target after hf targets last hfs ih =>
    have hafter := generateFor_induction read loader f (write f List.mem_cons_self) start
    rw [hf] at hafter
    rw [hfs] at ih
    exact ih (fun g hg => write g (List.mem_cons_of_mem _ hg)) hafter

/-- What is kept by reading, by writing the factories of the sources that are reached and by retiring
generated files is kept by a generation, whether it fails or not. -/
theorem generate_induction {o : BuildOptions} (loader : ResourceLoader) {P : Program} {h : Host}
    (write : ∀ f ∈ reachedFiles o P h, getsFactory o f = true → ∀ h content, Q h →
      Q (h.mapCache (·.write (placeOf o f) content false)))
    (retire : ∀ h keep, Q h → Q (h.mapCache (·.retire o.genDir keep))) (start : Q h) :
    Q (generate o loader P h).2 := by
  unfold generate
  split
  · exact start
  · have after := generateAll_induction read loader _ write
      (h := Route.afterReach P h (reachedFiles o P h)) (Host.retainAll_induction read _ start)
    dsimp only
    split
    next hall => rwa [hall] at after
    next produced _ hall =>
      rw [hall] at after
      exact retire _ produced after

end Induction

theorem uses_generateFor (o : BuildOptions) (loader : ResourceLoader) (f : SourceFile) (h : Host) :
    h.Uses (generateFor o loader f h).2 :=
  generateFor_induction (fun _ p use => use.read p) loader f
    (fun _ _ content use => use.write _ content false) .refl

/-- The generator does no more to the host than reading, writing and retiring. -/
theorem uses_generate (o : BuildOptions) (loader : ResourceLoader) (P : Program) (h : Host) :
    h.Uses (generate o loader P h).2 :=
  generate_induction (fun _ p use => use.read p) loader
    (fun _ _ _ _ content use => use.write _ content false) (fun _ keep use => use.retire _ keep) .refl

end Precompile.Factory
