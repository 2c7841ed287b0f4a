import Joinery.Assembly.InputError
/-!
# Settings of a solve

What a solve may do before it gives up, and when it is content. Settings are
checked in a fixed order, and the first that is out of range is the one named.
-/

namespace Joinery.Newton

structure Settings (α : Type) where
  /-- The error below which a solve has converged. -/
  tolerance : α
  maxIterations : Nat
  /-- The share of a step that is taken at first. -/
  damping : α
  /-- How many iterations without improvement are borne before the best point
  is taken up again. -/
  rollbackThreshold : Nat
  /-- What damping is multiplied by after an improvement. -/
  dampingGrowth : α
  /-- What damping is multiplied by without one. -/
  dampingShrink : α
  /-- What damping does not fall below. -/
  minDamping : α
  /-- How many growing errors in a row at the least damping end a solve. -/
  divergenceWindow : Nat
  /-- How far a number is moved to measure a slope. -/
  slopeStep : α
  /-- What a pivot has to reach. -/
  pivotThreshold : α
  /-- Whether the rows of the slopes are brought to length one. -/
  precondition : Bool
  /-- Whether components may turn. -/
  turning : Bool
deriving Repr, BEq

namespace Settings

variable {α : Type} [Arithmetic α]

/-- The settings a solve has unless told otherwise. -/
def standard : Settings α where
  tolerance := 1e-6
  maxIterations := 100
  damping := 1
  rollbackThreshold := 5
  dampingGrowth := 1.05
  dampingShrink := 0.7
  minDamping := 1e-3
  divergenceWindow := 5
  slopeStep := 1e-6
  pivotThreshold := 1e-12
  precondition := true
  turning := false

private def requirePositive (name : String) (value : α) : Except (InputError α) Unit :=
  if Arithmetic.isFinite value ∧ 0 < value then .ok ()
  else .error (.invalidSettings (.notPositive name value))

private def require (rule : Prop) [Decidable rule] (reason : Reason α) :
    Except (InputError α) Unit :=
  if rule then .ok () else .error (.invalidSettings reason)

/-- Refuses settings that are out of range. -/
def check (c : Settings α) : Except (InputError α) Unit := do
  requirePositive "tolerance" c.tolerance
  requirePositive "fd_step" c.slopeStep
  requirePositive "pivot_threshold" c.pivotThreshold
  requirePositive "min_damping" c.minDamping
  require (c.minDamping ≤ c.damping ∧ c.damping ≤ 1) (.damping c.minDamping c.damping)
  require (Arithmetic.isFinite c.dampingGrowth ∧ 1 ≤ c.dampingGrowth) (.growth c.dampingGrowth)
  require (0 < c.dampingShrink ∧ c.dampingShrink < 1) (.shrink c.dampingShrink)
  require (c.divergenceWindow ≠ 0) .noWindow

/-- Settings that are not refused. -/
structure InRange (c : Settings α) : Prop where
  tolerance : Arithmetic.isFinite c.tolerance = true ∧ 0 < c.tolerance
  slopeStep : Arithmetic.isFinite c.slopeStep = true ∧ 0 < c.slopeStep
  pivotThreshold : Arithmetic.isFinite c.pivotThreshold = true ∧ 0 < c.pivotThreshold
  minDamping : Arithmetic.isFinite c.minDamping = true ∧ 0 < c.minDamping
  damping : c.minDamping ≤ c.damping ∧ c.damping ≤ 1
  growth : Arithmetic.isFinite c.dampingGrowth = true ∧ 1 ≤ c.dampingGrowth
  shrink : 0 < c.dampingShrink ∧ c.dampingShrink < 1
  window : c.divergenceWindow ≠ 0

private theorem ite_bind_eq_ok {ε : Type} {p : Prop} [Decidable p] {e : ε}
    {rest : Except ε Unit} :
    ((if p then .ok () else .error e) >>= fun _ => rest) = .ok () ↔ p ∧ rest = .ok () := by
  by_cases hp : p
  · simp only [hp, true_and]
    rfl
  · simp only [hp, false_and, iff_false]
    intro h
    cases h

/-- Settings are accepted exactly when all their numbers are in range. -/
theorem check_eq_ok_iff {c : Settings α} : c.check = .ok () ↔ c.InRange := by
  unfold check requirePositive require
  iterate 7 rw [ite_bind_eq_ok]
  constructor
  · rintro ⟨tolerance, slopeStep, pivotThreshold, minDamping, damping, growth, shrink, h⟩
    split at h
    case isTrue window =>
      exact ⟨tolerance, slopeStep, pivotThreshold, minDamping, damping, growth, shrink, window⟩
    case isFalse => cases h
  · rintro ⟨tolerance, slopeStep, pivotThreshold, minDamping, damping, growth, shrink, window⟩
    exact ⟨tolerance, slopeStep, pivotThreshold, minDamping, damping, growth, shrink, if_pos window⟩

end Settings

end Joinery.Newton
