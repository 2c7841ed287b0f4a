import Joinery.Scalar.Basic
/-!
# Points and displacements

A point is a place, a displacement leads from one place to another. The
difference of two points is a displacement, and a displacement moves a point.
-/

namespace Joinery

/-- A place in space. -/
structure Point (α : Type) where
  x : α
  y : α
  z : α
deriving Repr, BEq, DecidableEq

/-- A way from one place to another, or a direction. -/
structure Displacement (α : Type) where
  x : α
  y : α
  z : α
deriving Repr, BEq, DecidableEq

variable {α : Type} [Arithmetic α]

namespace Displacement

def zero : Displacement α := ⟨0, 0, 0⟩

/-- The unit displacement along the first axis. -/
def xUnit : Displacement α := ⟨1, 0, 0⟩

instance : Add (Displacement α) := ⟨fun a b => ⟨a.x + b.x, a.y + b.y, a.z + b.z⟩⟩
instance : Sub (Displacement α) := ⟨fun a b => ⟨a.x - b.x, a.y - b.y, a.z - b.z⟩⟩
instance : Neg (Displacement α) := ⟨fun a => ⟨-a.x, -a.y, -a.z⟩⟩
instance : HMul (Displacement α) α (Displacement α) := ⟨fun a s => ⟨a.x * s, a.y * s, a.z * s⟩⟩
instance : HMul α (Displacement α) (Displacement α) := ⟨fun s a => ⟨s * a.x, s * a.y, s * a.z⟩⟩
instance : HDiv (Displacement α) α (Displacement α) := ⟨fun a s => ⟨a.x / s, a.y / s, a.z / s⟩⟩

def dot (a b : Displacement α) : α := a.x * b.x + a.y * b.y + a.z * b.z

def cross (a b : Displacement α) : Displacement α :=
  ⟨a.y * b.z - a.z * b.y, a.z * b.x - a.x * b.z, a.x * b.y - a.y * b.x⟩

def lengthSquared (a : Displacement α) : α := a.dot a

def isFinite (a : Displacement α) : Bool :=
  Arithmetic.isFinite a.x && Arithmetic.isFinite a.y && Arithmetic.isFinite a.z

/-- The coordinates in order. -/
def toList (a : Displacement α) : List α := [a.x, a.y, a.z]

end Displacement

namespace Point

def origin : Point α := ⟨0, 0, 0⟩

instance : HAdd (Point α) (Displacement α) (Point α) :=
  ⟨fun p d => ⟨p.x + d.x, p.y + d.y, p.z + d.z⟩⟩
instance : HSub (Point α) (Point α) (Displacement α) :=
  ⟨fun p q => ⟨p.x - q.x, p.y - q.y, p.z - q.z⟩⟩
instance : HSub (Point α) (Displacement α) (Point α) :=
  ⟨fun p d => ⟨p.x - d.x, p.y - d.y, p.z - d.z⟩⟩

def isFinite (p : Point α) : Bool :=
  Arithmetic.isFinite p.x && Arithmetic.isFinite p.y && Arithmetic.isFinite p.z

/-- The coordinates in order. -/
def toList (p : Point α) : List α := [p.x, p.y, p.z]

end Point

/-! ## Lengths and angles -/

section Metric

variable {α : Type} [Scalar α]

namespace Displacement

def length (a : Displacement α) : α := Scalar.sqrt a.lengthSquared

/-- The unit displacement in the same direction; none for a length that is all
but zero. -/
def normalized? (a : Displacement α) : Option (Displacement α) :=
  if a.length < 1e-15 then none else some (a / a.length)

/-- The cosine of the angle between two displacements. If one is all but zero
they count as aligned. -/
def cosine (a b : Displacement α) : α :=
  let product := a.length * b.length
  if product < 1e-15 then 1 else Arithmetic.clamp (a.dot b / product) (-1) 1

/-- The angle between two displacements in radians, from nothing to half a
turn. It stays accurate where the cosine is flat. -/
def angle (a b : Displacement α) : α := Scalar.atan2 (a.cross b).length (a.dot b)

end Displacement

/-- How far it is from one point to another. -/
def Point.distance (p q : Point α) : α := (q - p).length

end Metric

end Joinery
