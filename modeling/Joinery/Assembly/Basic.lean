import Joinery.Assembly.Constraint
import Joinery.Assembly.IdMap
import Joinery.Breach
import Joinery.Identity.Uuid
import Joinery.Space.Orientation
import Joinery.Time.Stamp
/-!
# Assemblies

An assembly is a list of components and a list of constraints between them,
with a record of who it is and how often it was edited. Every edit goes through
`touch?`: it counts up the version and notes the time. A version that cannot be
counted up breaks the edit.
-/

namespace Joinery

abbrev PositionMap (α : Type) := IdMap (Point α)

abbrev OrientationMap (α : Type) := IdMap (EulerAngles α)

/-- A rigid part. -/
structure Component (α : Type) where
  id : String
  position : Point α
  orientation : EulerAngles α
  /-- Numbers by name, such as the radius. -/
  properties : IdMap α
deriving BEq

/-- Who an assembly is and when it was edited. -/
structure Metadata where
  id : Uuid
  name : String
  version : UInt32
  created : Stamp
  modified : Stamp
deriving BEq

structure Assembly (α : Type) where
  metadata : Metadata
  components : List (Component α)
  constraints : List (Constraint String α)
deriving BEq

namespace Component

variable {α : Type} [Scalar α]

/-- A component that is not turned. -/
def placed (id : String) (position : Point α) : Component α :=
  ⟨id, position, .identity, .empty⟩

/-- The property that tangency reads. -/
def radiusKey : String := "radius"

/-- The radius; a component without one counts as a point. -/
def radius (c : Component α) : α := (c.properties.get? radiusKey).getD 0

end Component

namespace Assembly

variable {α : Type}

/-- An assembly without parts. -/
def blank (id : Uuid) (now : Stamp) (name : String) : Assembly α :=
  ⟨⟨id, name, 1, now, now⟩, [], []⟩

def isEmpty (a : Assembly α) : Bool := a.components.isEmpty && a.constraints.isEmpty

/-- The first component with the identifier. -/
def component? (a : Assembly α) (id : String) : Option (Component α) :=
  a.components.find? fun c => c.id == id

/-- The constraint with the index. -/
def constraint? (a : Assembly α) (i : Nat) : Except Breach (Constraint String α) :=
  match a.constraints[i]? with
  | some c => .ok c
  | none => .error .outOfRange

/-- Where the components are. -/
def positions (a : Assembly α) : PositionMap α :=
  IdMap.ofList (a.components.map fun c => (c.id, c.position))

/-! ## Edits -/

/-- Counts an edit. -/
def touch? (a : Assembly α) (now : Stamp) : Except Breach (Assembly α) :=
  if a.metadata.version = 4294967295 then .error .exhausted
  else
    let metadata := { a.metadata with version := a.metadata.version + 1, modified := now }
    .ok { a with metadata := metadata }

/-- Adds a component at the end, and answers its index. -/
def addComponent? (a : Assembly α) (now : Stamp) (c : Component α) :
    Except Breach (Assembly α × Nat) := do
  let edited ← { a with components := a.components ++ [c] }.touch? now
  return (edited, a.components.length)

/-- Adds a constraint at the end. -/
def addConstraint? (a : Assembly α) (now : Stamp) (c : Constraint String α) :
    Except Breach (Assembly α) :=
  { a with constraints := a.constraints ++ [c] }.touch? now

/-- Moves the components that the map names. -/
def applyPositions? (a : Assembly α) (now : Stamp) (positions : PositionMap α) :
    Except Breach (Assembly α) :=
  let moved := a.components.map fun c =>
    { c with position := (positions.get? c.id).getD c.position }
  { a with components := moved }.touch? now

/-- Turns the components that the map names. -/
def applyOrientations? (a : Assembly α) (now : Stamp) (orientations : OrientationMap α) :
    Except Breach (Assembly α) :=
  let turned := a.components.map fun c =>
    { c with orientation := (orientations.get? c.id).getD c.orientation }
  { a with components := turned }.touch? now

end Assembly

end Joinery
