import Joinery.Exchange.Geometry
import Joinery.Newton.Outcome
/-!
# Settings and outcomes in JSON

Every setting may be missing and has its standard value then. Of an outcome
nothing may be missing.
-/

namespace Joinery.Exchange

open Newton

variable {α : Type} (form : NumberForm α)

/-! ## Settings -/

def writeSettings (c : Settings α) : Json :=
  .ofMembers
    [("tolerance", form.write c.tolerance), ("max_iterations", .ofNat c.maxIterations),
      ("damping", form.write c.damping), ("rollback_threshold", .ofNat c.rollbackThreshold),
      ("damping_growth", form.write c.dampingGrowth),
      ("damping_shrink", form.write c.dampingShrink), ("min_damping", form.write c.minDamping),
      ("divergence_window", .ofNat c.divergenceWindow), ("fd_step", form.write c.slopeStep),
      ("pivot_threshold", form.write c.pivotThreshold), ("precondition", .bool c.precondition),
      ("solve_orientations", .bool c.turning)]

def readSettings? [Arithmetic α] (j : Json) : Option (Settings α) := do
  let f ← fields?
    ["tolerance", "max_iterations", "damping", "rollback_threshold", "damping_growth",
      "damping_shrink", "min_damping", "divergence_window", "fd_step", "pivot_threshold",
      "precondition", "solve_orientations"] j
  let standard : Settings α := .standard
  return {
    tolerance := ← f.withDefault "tolerance" form.read standard.tolerance
    maxIterations := ← f.withDefault "max_iterations" count? standard.maxIterations
    damping := ← f.withDefault "damping" form.read standard.damping
    rollbackThreshold := ← f.withDefault "rollback_threshold" count? standard.rollbackThreshold
    dampingGrowth := ← f.withDefault "damping_growth" form.read standard.dampingGrowth
    dampingShrink := ← f.withDefault "damping_shrink" form.read standard.dampingShrink
    minDamping := ← f.withDefault "min_damping" form.read standard.minDamping
    divergenceWindow := ← f.withDefault "divergence_window" count? standard.divergenceWindow
    slopeStep := ← f.withDefault "fd_step" form.read standard.slopeStep
    pivotThreshold := ← f.withDefault "pivot_threshold" form.read standard.pivotThreshold
    precondition := ← f.withDefault "precondition" bool? standard.precondition
    turning := ← f.withDefault "solve_orientations" bool? standard.turning }

/-! ## Names -/

def statusName : Status → String
  | .initializing => "Initializing"
  | .iterating => "Iterating"
  | .converged => "Converged"
  | .maxIterationsReached => "MaxIterationsReached"
  | .diverged => "Diverged"

def statuses : List (String × Status) :=
  [.initializing, .iterating, .converged, .maxIterationsReached, .diverged].map fun s =>
    (statusName s, s)

def methodName : Method → String
  | .empty => "Empty"
  | .direct => "Direct"
  | .normalEquations => "NormalEquations"
  | .minimumNorm => "MinimumNorm"

def methods : List (String × Method) :=
  [.empty, .direct, .normalEquations, .minimumNorm].map fun m => (methodName m, m)

/-! ## Outcomes -/

def writeRecord (r : Record α) : Json :=
  .ofMembers
    [("iteration", .ofNat r.iteration), ("trial_error", form.write r.trialError),
      ("best_error", form.write r.bestError), ("damping", form.write r.damping),
      ("accepted", .bool r.accepted), ("rolled_back", .bool r.rolledBack),
      ("method", .ofText (methodName r.method)), ("singular_pivots", .ofNat r.singularPivots),
      ("rows_used", .ofNat r.rowsUsed)]

def readRecord? (j : Json) : Option (Record α) := do
  let f ← fields?
    ["iteration", "trial_error", "best_error", "damping", "accepted", "rolled_back", "method",
      "singular_pivots", "rows_used"] j
  return {
    iteration := ← f.required "iteration" count?
    trialError := ← f.required "trial_error" form.read
    bestError := ← f.required "best_error" form.read
    damping := ← f.required "damping" form.read
    accepted := ← f.required "accepted" bool?
    rolledBack := ← f.required "rolled_back" bool?
    method := ← f.required "method" (choice? methods)
    singularPivots := ← f.required "singular_pivots" count?
    rowsUsed := ← f.required "rows_used" count? }

def writeConstraintReport (r : ConstraintReport α) : Json :=
  .ofMembers
    [("id", .ofText r.id), ("residual", form.write r.deviation), ("satisfied", .bool r.satisfied)]

def readConstraintReport? (j : Json) : Option (ConstraintReport α) := do
  let f ← fields? ["id", "residual", "satisfied"] j
  return ⟨← f.required "id" text?, ← f.required "residual" form.read,
    ← f.required "satisfied" bool?⟩

def writeOutcome (o : Outcome α) : Json :=
  .ofMembers
    [("positions", writeMap (writePoint form) o.positions),
      ("orientations", writeMap (writeAngles form) o.orientations),
      ("residuals", .array (o.deviations.toList.map form.write)),
      ("constraint_reports", .array (o.reports.map (writeConstraintReport form))),
      ("iterations", .ofNat o.iterations), ("converged", .bool o.converged),
      ("status", .ofText (statusName o.status)), ("error", form.write o.error),
      ("initial_error", form.write o.initialError), ("message", .ofText o.message),
      ("history", .array (o.history.toList.map (writeRecord form)))]

def readOutcome? (j : Json) : Option (Outcome α) := do
  let f ← fields?
    ["positions", "orientations", "residuals", "constraint_reports", "iterations", "converged",
      "status", "error", "initial_error", "message", "history"] j
  return {
    positions := ← f.required "positions" (readMap? (readPoint? form))
    orientations := ← f.required "orientations" (readMap? (readAngles? form))
    deviations := (← f.required "residuals" (list? form.read)).toArray
    reports := ← f.required "constraint_reports" (list? (readConstraintReport? form))
    iterations := ← f.required "iterations" count?
    converged := ← f.required "converged" bool?
    status := ← f.required "status" (choice? statuses)
    error := ← f.required "error" form.read
    initialError := ← f.required "initial_error" form.read
    message := ← f.required "message" text?
    history := (← f.required "history" (list? (readRecord? form))).toArray }

end Joinery.Exchange
