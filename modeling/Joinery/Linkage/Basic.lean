import Joinery.Assembly.Problems
import Joinery.Dense.Vector
import Joinery.Linkage.Body
import Joinery.Linkage.Layout
/-!
# Linkages

A linkage is an assembly made ready for solving: identifiers are replaced by
indices, every component has the pose it starts from, and a layout says which
numbers of a state place it. `Assembly.link?` refuses what has problems or
starts from values that are not finite.

A state places every component that is not pinned; `deviations` has one
weighted number per constraint, in their order.
-/

namespace Joinery

/-- A component with the pose it starts from. -/
structure Member (α : Type) where
  id : String
  start : Pose α
  radius : α
deriving Repr, BEq

structure Linkage (α : Type) where
  members : Array (Member α)
  /-- Constraints between members, named by their index. -/
  constraints : List (Constraint Nat α)
  layout : Layout

variable {α : Type} [Scalar α]

/-- The member for a component: it starts from the initial position if there is
one, else from where it is. -/
def Component.member? (initial : PositionMap α) (c : Component α) : Except (Failure α) (Member α) :=
  let position := (initial.get? c.id).getD c.position
  if position.isFinite && c.orientation.isFinite && Arithmetic.isFinite c.radius then
    .ok ⟨c.id, ⟨position, c.orientation⟩, c.radius⟩
  else .error (.rejected (.nonFiniteInput c.id))

/-- The index of a component. -/
def indexOf? (ids : List String) (id : String) : Except (Failure α) Nat :=
  match ids.findIdx? (· == id) with
  | some i => .ok i
  | none => .error (.broken .danglingReference)

/-- The constraint with indices for identifiers. -/
def Constraint.link? (ids : List String) (c : Constraint String α) :
    Except (Failure α) (Constraint Nat α) := do
  let bond ← c.bond.traverse (indexOf? ids)
  return ⟨c.id, bond, c.tolerance, c.weight⟩

/-- Whether some constraint fixes member `i`. -/
def isFixedBy (constraints : List (Constraint Nat α)) (i : Nat) : Bool :=
  constraints.any fun c => c.bond.isFixed && c.bond.first == i

/-- The linkage of an assembly. The first problem stands for all. -/
def Assembly.link? (a : Assembly α) (initial : PositionMap α) (turning : Bool) :
    Except (Failure α) (Linkage α) :=
  match a.problems with
  | error :: _ => .error (.rejected error)
  | [] => do
    let members ← a.components.mapM (Component.member? initial)
    let constraints ← a.constraints.mapM (Constraint.link? (a.components.map (·.id)))
    let pinned := (List.range members.length).map (isFixedBy constraints)
    return ⟨members.toArray, constraints, .ofPinned turning pinned⟩

namespace Linkage

/-- How many numbers a state has. -/
def size (L : Linkage α) : Nat := L.layout.size

/-- The numbers of a pose that a state holds. -/
def coordinates (turning : Bool) (p : Pose α) : List α :=
  p.position.toList ++ if turning then p.orientation.toList else []

/-- The pose that member `i` starts from. -/
def startPose (L : Linkage α) (i : Nat) : Pose α :=
  (L.members[i]?.map (·.start)).getD ⟨.origin, .identity⟩

/-- The state that gives the members the poses `pose`, as far as a state can. -/
def stateOf (L : Linkage α) (pose : Nat → Pose α) : Array α :=
  ((List.range L.members.size).flatMap fun i =>
    if L.layout.isPinned i then [] else coordinates L.layout.turning (pose i)).toArray

/-- The state in which every member has the pose it starts from. -/
def initialState (L : Linkage α) : Array α := L.stateOf L.startPose

/-- The pose of member `i`. What the state does not place has the pose it
starts from. -/
def pose (L : Linkage α) (s : Array α) (i : Nat) : Pose α :=
  match L.layout.offset? i with
  | none => L.startPose i
  | some k =>
    { position := ⟨s.getD k 0, s.getD (k + 1) 0, s.getD (k + 2) 0⟩
      orientation :=
        if L.layout.turning then ⟨s.getD (k + 3) 0, s.getD (k + 4) 0, s.getD (k + 5) 0⟩
        else (L.startPose i).orientation }

def body (L : Linkage α) (s : Array α) (i : Nat) : Body α :=
  ⟨L.pose s i, (L.members[i]?.map (·.radius)).getD 0⟩

/-- The weighted deviation of a constraint. -/
def deviation (L : Linkage α) (s : Array α) (c : Constraint Nat α) : α :=
  c.weight * (c.bond.map (L.body s)).deviation

/-- The weighted deviations of all constraints. -/
def deviations (L : Linkage α) (s : Array α) : Array α :=
  (L.constraints.map (L.deviation s)).toArray

/-- The poses of all members with their identifiers. -/
def poses (L : Linkage α) (s : Array α) : List (String × Pose α) :=
  L.members.toList.zipIdx.map fun m => (m.1.id, L.pose s m.2)

def positions (L : Linkage α) (s : Array α) : PositionMap α :=
  IdMap.ofList ((L.poses s).map fun x => (x.1, x.2.position))

def orientations (L : Linkage α) (s : Array α) : OrientationMap α :=
  IdMap.ofList ((L.poses s).map fun x => (x.1, x.2.orientation))

@[simp]
theorem size_deviations (L : Linkage α) (s : Array α) :
    (L.deviations s).size = L.constraints.length := by
  simp [deviations]

/-! ## Checked forms -/

/-- Whether all that is read of a state is there: the state is long enough, and
every end of a constraint is a member. -/
def canRead (L : Linkage α) (s : Array α) : Bool :=
  L.size ≤ s.size && L.constraints.all fun c => c.bond.ends.all (· < L.members.size)

def deviations? (L : Linkage α) (s : Array α) : Except Breach (Array α) :=
  Breach.unless (L.canRead s) .outOfRange (L.deviations s)

end Linkage

/-! ## Deviations in an assembly -/

/-- The weighted deviation of a constraint with the components of an assembly.
Components that the map does not place are where they are. The first end that
is not there is an error. -/
def Constraint.errorIn (c : Constraint String α) (a : Assembly α) (positions : PositionMap α) :
    Except (InputError α) α := do
  let bond ← c.bond.traverse fun id =>
    match a.component? id with
    | some part =>
      .ok ⟨⟨(positions.get? id).getD part.position, part.orientation⟩, part.radius⟩
    | none => .error (.unknownComponent c.id id)
  return c.weight * bond.deviation

end Joinery
