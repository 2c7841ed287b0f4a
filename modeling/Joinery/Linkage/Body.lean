import Joinery.Assembly.Constraint
import Joinery.Space.Orientation
/-!
# Deviations

How far two bodies are from the relation they should have, as one signed
number that is zero when they have it.
-/

namespace Joinery

/-- Where a component is and how it is turned. -/
structure Pose (α : Type) where
  position : Point α
  orientation : EulerAngles α
deriving Repr, BEq, DecidableEq

/-- A component as a deviation sees it. -/
structure Body (α : Type) where
  pose : Pose α
  radius : α
deriving Repr, BEq, DecidableEq

variable {α : Type} [Scalar α]

namespace Body

def direction (b : Body α) : Displacement α := b.pose.orientation.direction

/-- How far two bodies are apart. -/
def separation (a b : Body α) : α := (b.pose.position - a.pose.position).length

end Body

/-- How far two bodies are from a relation. Parallels deviate by what the
cosine lacks of one, either way; angles deviate in degrees. -/
def Relation.deviation (relation : Relation α) (a b : Body α) : α :=
  match relation with
  | coincident => a.separation b
  | distance target => a.separation b - target
  | parallel => Arithmetic.abs (a.direction.cosine b.direction) - 1
  | perpendicular => a.direction.cosine b.direction
  | angle target => a.direction.angle b.direction * Scalar.radian - target
  | tangent => a.separation b - (a.radius + b.radius)
  | symmetric plane => b.pose.position.distance (plane.mirror a.pose.position)

/-- The deviation of a bond between bodies. What is fixed does not deviate. -/
def Bond.deviation : Bond (Body α) α → α
  | fixed _ => 0
  | pair relation a b => relation.deviation a b

/-- The deviation of a bond whose ends are given as bodies, zero without a
second one. -/
def Bond.deviationOf {ρ : Type} (bond : Bond ρ α) (a : Body α) (b : Option (Body α)) : α :=
  match bond, b with
  | pair relation _ _, some b => relation.deviation a b
  | _, _ => 0

end Joinery
