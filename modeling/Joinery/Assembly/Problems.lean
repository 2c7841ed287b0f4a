import Joinery.Assembly.Basic
import Joinery.Assembly.InputError
/-!
# Problems of an assembly

`Assembly.problems` lists everything that is structurally wrong, in the order
of the components and then of the constraints. Identifiers count as repeated
from their second use on. Only the first defect of the numbers of a constraint
is listed.
-/

namespace Joinery

variable {α : Type} [Scalar α]

namespace Component

/-- What is wrong with the radius. -/
def radiusProblem? (c : Component α) : Option (InputError α) :=
  if !Arithmetic.isFinite c.radius then some (.nonFiniteInput c.id)
  else if c.radius < 0 then some (.invalidComponent c.id (.negativeRadius c.radius))
  else none

/-- The problems of components, after those with the identifiers `seen`. -/
def problems (seen : List String) : List (Component α) → List (InputError α)
  | [] => []
  | c :: rest =>
    (if seen.contains c.id then [.duplicateComponent c.id] else [])
      ++ c.radiusProblem?.toList
      ++ problems (c.id :: seen) rest

end Component

namespace Relation

/-- What is wrong with the number of a relation. -/
def defect? : Relation α → Option (Reason α)
  | .distance target =>
    if !Arithmetic.isFinite target ∨ target < 0 then some (.distanceTarget target) else none
  | .angle target =>
    if !Arithmetic.isFinite target then some (.angleTarget target) else none
  | .symmetric plane =>
    if !Arithmetic.isFinite plane.offset then some (.planeOffset plane.offset) else none
  | _ => none

end Relation

namespace Constraint

variable {ρ : Type}

/-- What is wrong with the numbers of a constraint: with the weight, else with
the tolerance, else with the relation. -/
def defect? (c : Constraint ρ α) : Option (Reason α) :=
  if !Arithmetic.isFinite c.weight ∨ c.weight ≤ 0 then some (.notPositive "weight" c.weight)
  else
    match c.tolerance with
    | some tolerance =>
      if !Arithmetic.isFinite tolerance ∨ tolerance < 0 then some (.tolerance tolerance)
      else ofBond c.bond
    | none => ofBond c.bond
where
  ofBond : Bond ρ α → Option (Reason α)
    | .fixed _ => none
    | .pair relation _ _ => relation.defect?

/-- The problems of constraints between components with the identifiers
`known`, after constraints with the identifiers `seen`. -/
def problems (known seen : List String) : List (Constraint String α) → List (InputError α)
  | [] => []
  | c :: rest =>
    (if seen.contains c.id then [.duplicateConstraint c.id] else [])
      ++ (c.bond.ends.filter fun id => !known.contains id).map (.unknownComponent c.id)
      ++ (c.defect?.map (.invalidConstraint c.id)).toList
      ++ problems known (c.id :: seen) rest

end Constraint

/-- Every structural problem, in the order of discovery. -/
def Assembly.problems (a : Assembly α) : List (InputError α) :=
  (if a.components.isEmpty && !a.constraints.isEmpty then
      [.emptyAssembly a.constraints.length] else [])
    ++ Component.problems [] a.components
    ++ Constraint.problems (a.components.map (·.id)) [] a.constraints

end Joinery
