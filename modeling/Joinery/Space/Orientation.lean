import Joinery.Space.Point
/-!
# Orientations

An orientation is three angles in radians. The rotation they stand for turns
by `roll` about the first axis, then by `pitch` about the second, then by `yaw`
about the third. Its matrix is built in full, and the direction of a component
is the whole product of that matrix with the first unit displacement, so a
value that is not a number anywhere in a row reaches the direction.
-/

namespace Joinery

/-- Angles in radians about the three axes. -/
structure EulerAngles (α : Type) where
  roll : α
  pitch : α
  yaw : α
deriving Repr, BEq, DecidableEq

/-- A matrix of rotation, row by row. -/
structure Rotation (α : Type) where
  first : Displacement α
  second : Displacement α
  third : Displacement α
deriving Repr

namespace Rotation

variable {α : Type} [Arithmetic α]

/-- The rotated displacement. -/
def apply (r : Rotation α) (d : Displacement α) : Displacement α :=
  ⟨r.first.dot d, r.second.dot d, r.third.dot d⟩

def rows (r : Rotation α) : List (Displacement α) := [r.first, r.second, r.third]

end Rotation

namespace EulerAngles

variable {α : Type} [Scalar α]

def identity : EulerAngles α := ⟨0, 0, 0⟩

/-- A turn about the third axis alone. -/
def ofYawDegrees (degrees : α) : EulerAngles α := ⟨0, 0, degrees * Scalar.degree⟩

def isFinite (e : EulerAngles α) : Bool :=
  Arithmetic.isFinite e.roll && Arithmetic.isFinite e.pitch && Arithmetic.isFinite e.yaw

/-- The angles in order. -/
def toList (e : EulerAngles α) : List α := [e.roll, e.pitch, e.yaw]

def rotation (e : EulerAngles α) : Rotation α :=
  let sr := Scalar.sin e.roll
  let cr := Scalar.cos e.roll
  let sp := Scalar.sin e.pitch
  let cp := Scalar.cos e.pitch
  let sy := Scalar.sin e.yaw
  let cy := Scalar.cos e.yaw
  { first := ⟨cy * cp, cy * sp * sr - sy * cr, cy * sp * cr + sy * sr⟩
    second := ⟨sy * cp, sy * sp * sr + cy * cr, sy * sp * cr - cy * sr⟩
    third := ⟨-sp, cp * sr, cp * cr⟩ }

/-- Where the first axis of a component points. -/
def direction (e : EulerAngles α) : Displacement α := e.rotation.apply .xUnit

end EulerAngles

end Joinery
