import Joinery.Linkage.Slope
import Joinery.Newton.Correction
import Joinery.Newton.Settings
/-!
# Runs

A run starts from the initial state of a linkage and takes damped corrections
until its error is below the tolerance, its iterations are used up, or its
error keeps growing at the least damping. `Run.probe?` computes what the next
step leads to; `Run.absorb` is all that a run remembers of it: where it stands
now, the best point so far, the damping and the counters.

The best point only changes together with the best error, and the error of a
trial counts as an improvement only if it is finite and below the best one.
-/

namespace Joinery.Newton

open Joinery.Dense

inductive Status
  | initializing
  | iterating
  | converged
  | maxIterationsReached
  | diverged
deriving Repr, DecidableEq

/-- Whether a run with this status is over. -/
def Status.isTerminal : Status → Bool
  | initializing | iterating => false
  | converged | maxIterationsReached | diverged => true

/-- What is kept of one iteration. -/
structure Record (α : Type) where
  iteration : Nat
  /-- The error at the trial point. -/
  trialError : α
  /-- The best error so far, this iteration included. -/
  bestError : α
  /-- The damping of this step. -/
  damping : α
  accepted : Bool
  rolledBack : Bool
  method : Method
  singularPivots : Nat
  rowsUsed : Nat
deriving Repr, BEq

/-- A point that a run can stand at, with its deviations. -/
structure Stand (α : Type) where
  point : Array α
  deviations : Array α
deriving Repr, BEq

/-- Where the next step leads: nowhere if the correction is zero. -/
structure Trial (α : Type) where
  correction : Correction α
  stand? : Option (Stand α)
  error : α

/-- A run under way. -/
structure Run (α : Type) where
  status : Status
  stand : Stand α
  /-- The error where the run stands. -/
  error : α
  best : Array α
  bestError : α
  damping : α
  /-- Iterations without improvement since the last one or the last rollback. -/
  stalled : Nat
  /-- Growing errors in a row at the least damping. -/
  growing : Nat
  lastTrialError : α
  history : Array (Record α)

variable {α : Type} [Scalar α]

namespace Run

/-- A run before its first step. It may be over at once. -/
def start? (L : Linkage α) (c : Settings α) : Except Breach (Run α) := do
  let point := L.initialState
  let deviations ← L.deviations? point
  let error := norm deviations
  let status :=
    if !Arithmetic.isFinite error then .diverged
    else if error < c.tolerance then .converged
    else if L.size = 0 then .maxIterationsReached
    else .iterating
  return {
    status, stand := ⟨point, deviations⟩, error, best := point, bestError := error
    damping := c.damping, stalled := 0, growing := 0, lastTrialError := error, history := #[] }

/-- The next step: the correction where the run stands, and the damped move. -/
def probe? (L : Linkage α) (c : Settings α) (r : Run α) : Except Breach (Trial α) := do
  let slopes ← L.slopes? r.stand.point c.slopeStep
  let (slopes, deviations) :=
    if c.precondition then balanced slopes r.stand.deviations
    else (slopes, r.stand.deviations)
  let correction ← correction? slopes deviations c.pivotThreshold
  if correction.isZero then return ⟨correction, none, r.error⟩
  else
    let point := addScaled r.damping correction.step r.stand.point
    let deviations ← L.deviations? point
    return ⟨correction, some ⟨point, deviations⟩, norm deviations⟩

/-- Whether a trial is better than all before. -/
def improves (r : Run α) (t : Trial α) : Bool :=
  Arithmetic.isFinite t.error && decide (t.error < r.bestError)

/-- Whether the error of a trial is worse than the last one, at the least
damping and without improvement. -/
def grows (c : Settings α) (r : Run α) (t : Trial α) : Bool :=
  !r.improves t && decide (r.damping ≤ c.minDamping)
    && (!Arithmetic.isFinite t.error || decide (r.lastTrialError < t.error))

/-- The run after an improvement: it stands at the trial point, which is the
best one. -/
def accept (c : Settings α) (r : Run α) (t : Trial α) : Run α :=
  { r with
    stand := t.stand?.getD r.stand
    best := (t.stand?.map (·.point)).getD r.best
    error := t.error
    bestError := t.error
    damping := Arithmetic.min (r.damping * c.dampingGrowth) 1
    stalled := 0 }

/-- The run after a step without improvement. It goes on from the trial point
all the same, if the error there is finite. -/
def drift (c : Settings α) (r : Run α) (t : Trial α) : Run α :=
  let stalled :=
    { r with
      stalled := r.stalled + 1
      damping := Arithmetic.max (r.damping * c.dampingShrink) c.minDamping }
  match t.stand? with
  | some stand =>
    if Arithmetic.isFinite t.error then { stalled with stand, error := t.error } else stalled
  | none => stalled

/-- The run back at its best point. -/
def rollback (L : Linkage α) (r : Run α) : Run α :=
  { r with stand := ⟨r.best, L.deviations r.best⟩, error := r.bestError, stalled := 0 }

/-- Whether too many iterations went by without improvement. -/
def isOverdue (c : Settings α) (r : Run α) : Bool := c.rollbackThreshold < r.stalled

/-- The status after a step. -/
def settle (c : Settings α) (r : Run α) : Run α :=
  if r.error < c.tolerance then { r with status := .converged }
  else if c.divergenceWindow ≤ r.growing then { r with status := .diverged }
  else r

/-- The run after a trial. -/
def absorb (L : Linkage α) (c : Settings α) (r : Run α) (t : Trial α) : Run α :=
  let accepted := r.improves t
  let moved := if accepted then r.accept c t else r.drift c t
  let rolledBack := moved.isOverdue c
  let placed := if rolledBack then moved.rollback L else moved
  settle c { placed with
    growing := if r.grows c t then r.growing + 1 else 0
    lastTrialError := t.error
    history := r.history.push {
      iteration := r.history.size + 1
      trialError := t.error
      bestError := placed.bestError
      damping := r.damping
      accepted, rolledBack
      method := t.correction.method
      singularPivots := t.correction.singularPivots
      rowsUsed := t.correction.rowsUsed } }

/-- The run after at most `n` more iterations, and over. -/
def iterate? (L : Linkage α) (c : Settings α) : Nat → Run α → Except Breach (Run α)
  | 0, r => .ok (if r.status = .iterating then { r with status := .maxIterationsReached } else r)
  | n + 1, r =>
    if r.status = .iterating then do
      let trial ← r.probe? L c
      iterate? L c n (r.absorb L c trial)
    else .ok r

end Run

end Joinery.Newton
