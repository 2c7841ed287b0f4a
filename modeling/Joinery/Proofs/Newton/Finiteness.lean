import Joinery.Proofs.Linkage.Finite
import Joinery.Proofs.Newton.Frame
/-!
# Finite outcomes

A solve that starts from a finite error has a finite best error, so every
variable that some constraint reads is finite at the best point. What no
constraint reads is where it started, and every solve starts from finite
numbers. Between the two nothing of an outcome is left that could have
overflowed, whatever the run went through.
-/

/-! ## Angles near zero -/

namespace Joinery

open Arithmetic LawfulOrder LawfulArithmetic

/-- Scalars with functions of angles that are right where all angles are zero, and
not a number where an angle is not finite. -/
def Flat (α : Type) : Type := α

namespace Flat

variable {α : Type} [Scalar α]

instance : Arithmetic (Flat α) := inferInstanceAs (Arithmetic α)

instance : Scalar (Flat α) where
  sqrt x := @Scalar.sqrt α _ x
  sin x := x - x
  cos x := 1 + (x - x)
  atan2 y x := (y - y) + (x - x)
  degree := @Scalar.degree α _
  radian := @Scalar.radian α _

instance [Readout α] : Readout (Flat α) := inferInstanceAs (Readout α)

instance [LawfulArithmetic α] : LawfulArithmetic (Flat α) :=
  inferInstanceAs (LawfulArithmetic α)

instance [LawfulRoot α] : LawfulRoot (Flat α) where
  isFinite_sqrt h := @LawfulRoot.isFinite_sqrt α _ _ _ h
  isNaN_sqrt h := @LawfulRoot.isNaN_sqrt α _ _ _ h
  sqrt_not_neg x := @LawfulRoot.sqrt_not_neg α _ _ x

end Flat

/-- What is taken from itself is not a number if it is not finite. -/
theorem isNaN_sub_self {α : Type} [Arithmetic α] [LawfulArithmetic α] {x : α}
    (h : isFinite x = false) : isNaN (x - x) = true := by
  refine (blank_sub_self x).resolve_left ?_
  intro hzero
  rw [(isFinite_sub (isFinite_of_beq hzero isFinite_zero)).1] at h
  cases h

instance {α : Type} [Scalar α] [LawfulRoot α] : LawfulAngles (Flat α) where
  isNaN_sin h := isNaN_sub_self h
  isNaN_cos h := isNaN_add (.inr (isNaN_sub_self h))
  isNaN_atan2 h := isNaN_add (h.imp (fun hy => isNaN_sub (.inl hy)) fun hx => isNaN_sub (.inl hx))

end Joinery

namespace Joinery.Newton

open Joinery.Dense Joinery.Arithmetic LawfulOrder LawfulArithmetic

section Outcome

variable {α : Type} [Scalar α] [LawfulRoot α] {c : Settings α} {a : Assembly α}
  {initial : PositionMap α} {o : Outcome α}

theorem isFinite_error [Readout α] (h : solve c a initial = .ok o)
    (hf : isFinite o.initialError = true) : isFinite o.error = true := by
  obtain ⟨last, hlast, rfl⟩ := solve_eq_ok h
  have htracked := (Run.iterate?_tracked hlast hf).1
  rw [htracked.error_outcome]
  exact htracked.isFinite_bestError

/-- Every variable of a component is finite: it is read by a constraint with a
finite deviation, or it is where it started. -/
theorem Kept.isFinite_variable [LawfulAngles α] {s : Array α} {i j : Nat}
    (h : Kept c a initial s)
    (hf : isFinite (norm ((a.linkage initial c.turning).deviations s)) = true)
    (howns : (a.linkage initial c.turning).layout.owns i j = true) :
    isFinite (s.getD j 0) = true := by
  by_cases hread : ∃ con ∈ (a.linkage initial c.turning).constraints,
      con.bond.Reads (a.linkage initial c.turning).layout j
  · -- seen by a deviation, which is finite because the length of all is
    obtain ⟨con, hcon, hread⟩ := hread
    exact Linkage.isFinite_of_norm_deviations hcon hread hf
  · -- seen by none, so it has never moved
    have hu := h.idle_of_owns howns fun con hcon =>
      .of_not_reads fun hcon' => hread ⟨con, hcon, hcon'⟩
    exact isFinite_of_beq (h.idle j hu) hu.isFinite_start

end Outcome

/-- What comes out of a solve that starts from a finite error is finite: the
error, all deviations, all positions and all orientations. -/
theorem results_finite {α : Type} [Scalar α] [Readout α] [LawfulRoot α] [LawfulAngles α]
    (c : Settings α) (a : Assembly α) (initial : PositionMap α) (o : Outcome α)
    (h : solve c a initial = .ok o) (hf : isFinite o.initialError = true) :
    isFinite o.error = true ∧ (∀ d ∈ o.deviations, isFinite d = true) ∧
      (∀ x ∈ o.positions.entries, x.2.isFinite = true) ∧
      ∀ x ∈ o.orientations.entries, x.2.isFinite = true := by
  obtain ⟨s, hkept, hpositions, horientations, hdeviations⟩ := kept_of_solve h
  have hnorm : isFinite (norm o.deviations) = true := (reports_eq h).1 ▸ isFinite_error h hf
  have hvariable : ∀ i j, (a.linkage initial c.turning).layout.owns i j = true →
      isFinite (s.getD j 0) = true :=
    fun i j howns => hkept.isFinite_variable (hdeviations ▸ hnorm) howns
  have hstart : ∀ i (hi : i < (a.linkage initial c.turning).members.size),
      ((a.linkage initial c.turning).members[i]).StartsFinite :=
    fun i hi => Linkage.startsFinite_members hkept.startsFinite _ (Array.getElem_mem hi)
  refine ⟨isFinite_error h hf, isFinite_of_norm hnorm, ?_, ?_⟩
  · intro x hx
    rw [hpositions] at hx
    obtain ⟨i, hi, heq⟩ := Linkage.of_mem_entries (·.position) hx
    rw [heq]
    refine Linkage.isFinite_position ?_ fun j hj => hvariable i j hj.owns
    rw [Linkage.startPose_eq hi]
    exact (hstart i hi).position
  · intro x hx
    rw [horientations] at hx
    obtain ⟨i, hi, heq⟩ := Linkage.of_mem_entries (·.orientation) hx
    rw [heq]
    refine Linkage.isFinite_orientation ?_ fun j hj => hvariable i j hj.owns
    rw [Linkage.startPose_eq hi]
    exact (hstart i hi).orientation

/-- A narrow triangle: the arm is asked for two lengths from points that are all
but in one direction from it. -/
def sliver : Assembly (Flat Float) where
  metadata := ⟨⟨0⟩, "sliver", 1, ⟨⟨2000, 1, 1⟩, 0, 0⟩, ⟨⟨2000, 1, 1⟩, 0, 0⟩⟩
  components := [
    ⟨"base", ⟨0, 0, 0⟩, .identity, .empty⟩,
    ⟨"post", ⟨0, 1e143, 0⟩, .identity, .empty⟩,
    ⟨"arm", ⟨1e150, 0, 0⟩, .identity, .empty⟩]
  constraints := [
    ⟨"ground", .fixed "base", none, 1⟩,
    ⟨"foundation", .fixed "post", none, 1⟩,
    ⟨"flat", .pair .parallel "base" "arm", none, 1⟩,
    ⟨"short", .pair (.distance 1e150) "base" "arm", none, 1⟩,
    ⟨"long", .pair (.distance 2e150) "post" "arm", none, 1⟩]

/-- Settings that take all but the smallest pivots, for one iteration. -/
def fine : Settings (Flat Float) :=
  { Settings.standard with pivotThreshold := 1e-300, maxIterations := 1 }

/-- A solve in which the error of a trial overflows. -/
theorem results_finite_sliver : ∃ o,
    solve fine sliver .empty = .ok o ∧
      (∃ r ∈ o.history, isFinite r.trialError = false) ∧ isFinite o.error = true ∧
      (∀ d ∈ o.deviations, isFinite d = true) ∧
      (∀ x ∈ o.positions.entries, x.2.isFinite = true) ∧
      ∀ x ∈ o.orientations.entries, x.2.isFinite = true := by
  have hsolve : (solve fine sliver .empty).toOption.any (fun o =>
      isFinite o.initialError && o.history.any fun r => !isFinite r.trialError) = true := by
    decide +kernel
  obtain ⟨o, ho, hsolve⟩ := exists_eq_ok hsolve
  obtain ⟨hf, hoverflow⟩ := (Bool.and_eq_true _ _).mp hsolve
  obtain ⟨r, hr, hoverflow⟩ := Array.any_eq_true'.1 hoverflow
  rw [Bool.not_eq_true'] at hoverflow
  exact ⟨o, ho, ⟨r, hr, hoverflow⟩, results_finite fine sliver .empty o ho hf⟩

end Joinery.Newton
