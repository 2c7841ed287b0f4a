import Joinery.Newton.Run
/-!
# Outcomes

The outcome of a solve describes the best point of its run, which need not be
the last one. `solve` refuses settings that are out of range, then assemblies
with problems, and answers an outcome in every other case, whether or not the
run converged.
-/

namespace Joinery.Newton

open Joinery.Dense

/-- How one constraint came out. -/
structure ConstraintReport (α : Type) where
  id : String
  deviation : α
  satisfied : Bool
deriving Repr, BEq

structure Outcome (α : Type) where
  positions : PositionMap α
  orientations : OrientationMap α
  /-- One weighted deviation per constraint. -/
  deviations : Array α
  reports : List (ConstraintReport α)
  iterations : Nat
  converged : Bool
  status : Status
  /-- The length of the deviations. -/
  error : α
  initialError : α
  message : String
  history : Array (Record α)
deriving BEq

namespace Outcome

variable {α : Type}

/-- The constraints that are not satisfied. -/
def unsatisfied (o : Outcome α) : List String :=
  (o.reports.filter fun r => !r.satisfied).map (·.id)

/-- Moves and turns the components of an assembly as the outcome says. -/
def applyTo? (o : Outcome α) (now : Stamp) (a : Assembly α) : Except Breach (Assembly α) := do
  let moved ← a.applyPositions? now o.positions
  moved.applyOrientations? now o.orientations

end Outcome

variable {α : Type} [Scalar α]

/-- How one constraint came out: satisfied if its deviation is within its own
tolerance, or within that of the settings if it has none. -/
def ConstraintReport.of (c : Settings α) (constraint : Constraint Nat α) (deviation : α) :
    ConstraintReport α :=
  ⟨constraint.id, deviation,
    decide (Arithmetic.abs deviation ≤ constraint.tolerance.getD c.tolerance)⟩

/-- The sentence that sums up a run. -/
def summary [Readout α] (L : Linkage α) (status : Status) (iterations : Nat) (error : α) : String :=
  let error := Readout.brief error
  match status with
  | .converged => s!"converged in {iterations} iteration(s), error {error}"
  | .maxIterationsReached =>
    if L.size = 0 then s!"no free variables to adjust, error {error}"
    else s!"not converged after {iterations} iteration(s), best error {error}"
  | .diverged => s!"diverged after {iterations} iteration(s), best error {error}"
  | .initializing => "stopped in non-terminal state Initializing"
  | .iterating => "stopped in non-terminal state Iterating"

variable [Readout α]

/-- The outcome of a run that is over. -/
def Run.outcome (L : Linkage α) (c : Settings α) (initialError : α) (r : Run α) : Outcome α :=
  let deviations := L.deviations r.best
  let error := norm deviations
  let iterations := r.history.size
  { positions := L.positions r.best
    orientations := L.orientations r.best
    deviations
    reports := List.zipWith (ConstraintReport.of c) L.constraints deviations.toList
    iterations
    converged := r.status = .converged
    status := r.status
    error
    initialError
    message := summary L r.status iterations error
    history := r.history }

/-- The outcome of solving a linkage. -/
def solveLinkage? (L : Linkage α) (c : Settings α) : Except Breach (Outcome α) := do
  let first ← Run.start? L c
  let last ← first.iterate? L c c.maxIterations
  return last.outcome L c first.error

/-- Moves the components of an assembly so that its constraints hold, starting
from the given positions. -/
def solve (c : Settings α) (a : Assembly α) (initial : PositionMap α) :
    Except (Failure α) (Outcome α) := do
  c.check.mapError .rejected
  let L ← a.link? initial c.turning
  Failure.ofBreach (solveLinkage? L c)

end Joinery.Newton
