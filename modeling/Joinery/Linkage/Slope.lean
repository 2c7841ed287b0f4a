import Joinery.Dense.Matrix
import Joinery.Linkage.Basic
/-!
# Slopes

The matrix of slopes has a row for each constraint and a column for each number
of the state: how fast the deviation changes with it. Distances have a slope in
closed form, the direction from one end to the other. All else is measured, by
moving a number of the state a little both ways.
-/

namespace Joinery

variable {α : Type} [Scalar α]

namespace Linkage

/-- The component of a displacement along variable `j`, for the position of
member `i`. -/
def along (L : Linkage α) (i : Nat) (d : Displacement α) (j : Nat) : α :=
  match L.layout.coordinate? i j with
  | some k => d.toList.getD k 0
  | none => 0

/-- The unit displacement from one member to another. Where they meet there is
none; members that are to be apart are then moved along the first axis. -/
def heading? (L : Linkage α) (s : Array α) (a b : Nat) (apart : Bool) : Option (Displacement α) :=
  let d := (L.pose s b).position - (L.pose s a).position
  if 1e-12 < d.length then some (d / d.length)
  else if apart then some .xUnit
  else none

/-- The slopes of the distance between two members, times a weight. -/
def separationRow (L : Linkage α) (s : Array α) (weight : α) (a b : Nat) (apart : Bool) : Array α :=
  match L.heading? s a b apart with
  | none => Array.replicate L.size 0
  | some unit =>
    let pull := unit * weight
    Array.ofFn fun j : Fin L.size => L.along a (-pull) j + L.along b pull j

/-- The slope of a constraint with variable `j`, between the states a step to
either side. The step grows with the number, so that it is not lost in a large
one. -/
def measuredSlope (L : Linkage α) (s : Array α) (step : α) (c : Constraint Nat α) (j : Nat) : α :=
  let x := s.getD j 0
  let h := step * Arithmetic.max (Arithmetic.abs x) 1
  (L.deviation (s.setIfInBounds j (x + h)) c - L.deviation (s.setIfInBounds j (x - h)) c)
    / Arithmetic.twice h

/-- The measured slopes with the variables of the ends; all others are zero. -/
def measuredRow (L : Linkage α) (s : Array α) (step : α) (c : Constraint Nat α) : Array α :=
  Array.ofFn fun j : Fin L.size =>
    if c.bond.ends.any fun i => L.layout.owns i j then L.measuredSlope s step c j else 0

/-- The slopes of one constraint. -/
def slopeRow (L : Linkage α) (s : Array α) (step : α) (c : Constraint Nat α) : Array α :=
  match c.bond with
  | .pair .coincident a b => L.separationRow s c.weight a b false
  | .pair (.distance _) a b => L.separationRow s c.weight a b true
  | .pair .tangent a b => L.separationRow s c.weight a b true
  | _ => L.measuredRow s step c

/-- The slopes of all constraints. -/
def slopes (L : Linkage α) (s : Array α) (step : α) : Dense.Matrix α :=
  .ofRows L.size (L.constraints.map (L.slopeRow s step)).toArray

@[simp]
theorem rows_slopes (L : Linkage α) (s : Array α) (step : α) :
    (L.slopes s step).rows = L.constraints.length := by
  simp [slopes, Dense.Matrix.ofRows]

@[simp]
theorem cols_slopes (L : Linkage α) (s : Array α) (step : α) :
    (L.slopes s step).cols = L.size := rfl

def slopes? (L : Linkage α) (s : Array α) (step : α) : Except Breach (Dense.Matrix α) :=
  Breach.unless (L.canRead s) .outOfRange (L.slopes s step)

end Linkage

end Joinery
