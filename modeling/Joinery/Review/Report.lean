import Joinery.Dense.SingularValues
import Joinery.Newton.Settings
import Joinery.Review.Conflict
import Joinery.Review.Finding
import Joinery.Review.Freedom
import Joinery.Review.Rank
/-!
# Reports

A review looks at an assembly without solving it. `review?` collects, in this
order: structural problems, constraints of a component with itself, conflicting
targets, constraints on directions where nothing turns, a missing anchor, the
balance of freedom, and redundant rows at the initial state. The last needs a
linkage, so it is left out if there are structural problems.
-/

namespace Joinery.Review

structure Report where
  /-- Whether there are no errors. -/
  isValid : Bool
  errors : List Finding
  warnings : List Finding
  /-- The freedom that remains. -/
  freedom : Int
  /-- The rank of the slopes at the initial state, if there is a linkage. -/
  rank : Option Nat
deriving Repr, DecidableEq

namespace Report

def errorMessages (r : Report) : List String := r.errors.map (·.message)

def hasError (r : Report) (topic : Topic) : Bool := r.errors.any (·.topic = topic)

def hasWarning (r : Report) (topic : Topic) : Bool := r.warnings.any (·.topic = topic)

/-- Sorts findings by severity. -/
def ofFindings (findings : List Finding) (freedom : Int) (rank : Option Nat) : Report :=
  let errors := findings.filter (·.severity = .error)
  ⟨errors.isEmpty, errors, findings.filter (·.severity = .warning), freedom, rank⟩

end Report

variable {α : Type} [Scalar α] [Readout α]

/-- The finding for a constraint between a component and itself. -/
def selfReference? (c : Constraint String α) : Option Finding :=
  if c.bond.second? = some c.bond.first then
    some (.error .selfReference
      s!"{c.bond.name} constraint '{c.id}' references '{c.bond.first}' twice" c.id)
  else none

def Conflict.finding (c : Conflict α) : Finding :=
  let s := c.subject
  let earlier := s!"'{c.earlier}' ({Readout.plain c.earlierTarget})"
  let later := s!"'{c.later}' ({Readout.plain c.laterTarget})"
  .error .conflictingConstraints
    s!"{s.kind} constraints {earlier} and {later} disagree on '{s.first}'/'{s.second}'" c.later

/-- The finding for a constraint on directions. -/
def inert? (c : Constraint String α) : Option Finding :=
  if c.bond.isDirectional then
    some (.warning .inertConstraint
      (s!"{c.bond.name} constraint '{c.id}' depends only on orientations, which are not "
        ++ "solved; enable solve_orientations to enforce it") c.id)
  else none

/-- The finding for an assembly of which nothing is fixed. -/
def anchorFindings (a : Assembly α) : List Finding :=
  if !a.components.isEmpty && !(a.constraints.any (·.bond.isFixed)) then
    [.error .noFixedConstraint "no fixed constraint: the assembly can drift as a rigid body" none]
  else []

/-- The finding for freedom that is overdrawn or left. -/
def freedomFindings (a : Assembly α) (freedom : Int) : List Finding :=
  if freedom < 0 then
    [.error .overConstrained s!"over-constrained by {-freedom} degree(s) of freedom" none]
  else if 0 < freedom ∧ !a.components.isEmpty then
    let count := a.constraints.length
    [.warning .underConstrained
      s!"{freedom} degree(s) of freedom remain after {count} constraint(s)" none]
  else []

/-- The finding for rows that follow from others. -/
def redundancyFindings (rank telling : Nat) : List Finding :=
  if rank < telling then
    let count := telling - rank
    [.warning .redundantConstraints
      (s!"{count} constraint row(s) are linearly dependent at the initial guess "
        ++ s!"(rank {rank} of {telling})") none]
  else []

/-- What can be found without a linkage, apart from structural problems. -/
def plainFindings (c : Newton.Settings α) (a : Assembly α) : List Finding :=
  a.constraints.filterMap selfReference?
    ++ (conflicts a).map Conflict.finding
    ++ (if c.turning then [] else a.constraints.filterMap inert?)
    ++ anchorFindings a
    ++ freedomFindings a (a.freedom c.turning)

section SingularValues

variable (singularValues? : Dense.Matrix α → Except Breach (List α))

/-- The findings that need a linkage, and the rank. -/
def rankFindings? (c : Newton.Settings α) (a : Assembly α) :
    Except Breach (List Finding × Option Nat) :=
  match a.link? .empty c.turning with
  | .ok L => do
    let slopes ← L.slopes? L.initialState c.slopeStep
    let (rank, telling) ← rankOf? singularValues? slopes
    return (redundancyFindings rank telling, some rank)
  | .error (.rejected e) => return ([.ofInputError e], none)
  | .error (.broken breach) => .error breach

/-- Reviews an assembly for a solve with the given settings, by the singular values
that `singularValues?` finds. -/
def reviewBy? (c : Newton.Settings α) (a : Assembly α) : Except Breach Report := do
  let problems := a.problems
  let (late, rank) ← if problems.isEmpty then rankFindings? singularValues? c a else .ok ([], none)
  return .ofFindings (problems.map .ofInputError ++ plainFindings c a ++ late)
    (a.freedom c.turning) rank

end SingularValues

/-- Reviews an assembly for a solve with the given settings. -/
def review? (c : Newton.Settings α) (a : Assembly α) : Except Breach Report :=
  reviewBy? Dense.Matrix.singularValues? c a

end Joinery.Review
