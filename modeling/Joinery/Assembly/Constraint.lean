import Joinery.Space.Mirror
/-!
# Constraints

A constraint either fixes one component where it starts or relates two
components. What the ends of a constraint are is left open: identifiers in an
assembly (`String`), places in a list once the identifiers were looked up, and
bodies in space when the deviation is measured. `Bond.traverse` goes from one
to the next, the first end first.
-/

namespace Joinery

/-- How two components have to stand to each other. -/
inductive Relation (α : Type)
  /-- In the same place. -/
  | coincident
  /-- A distance apart. -/
  | distance (target : α)
  /-- Pointing the same way or opposite ways. -/
  | parallel
  /-- Pointing at right angles. -/
  | perpendicular
  /-- Pointing an angle apart, given in degrees. -/
  | angle (target : α)
  /-- As far apart as their radii together. -/
  | tangent
  /-- Mirror images of each other. -/
  | symmetric (plane : MirrorPlane α)
deriving Repr, BEq, DecidableEq

namespace Relation

variable {α : Type}

def name : Relation α → String
  | coincident => "coincident"
  | distance _ => "distance"
  | parallel => "parallel"
  | perpendicular => "perpendicular"
  | angle _ => "angle"
  | tangent => "tangent"
  | symmetric _ => "symmetric"

/-- The number that distances and angles are held to. -/
def target? : Relation α → Option α
  | distance target => some target
  | angle target => some target
  | _ => none

/-- Whether only the orientations of the two components matter. -/
def isDirectional : Relation α → Bool
  | parallel | perpendicular | angle _ => true
  | _ => false

/-- How many ways to move the relation takes away. Directions take none away
where components do not turn. -/
def freedomRemoved (turning : Bool) : Relation α → Nat
  | coincident | symmetric _ => 3
  | distance _ | tangent => 1
  | parallel => if turning then 2 else 0
  | perpendicular | angle _ => if turning then 1 else 0

end Relation

/-- How many numbers place a component: its position, and its orientation where
components turn. -/
def freedomOfPart (turning : Bool) : Nat := if turning then 6 else 3

/-- What a constraint holds on to, with ends of type `ρ`. -/
inductive Bond (ρ α : Type)
  /-- The component stays where it starts. -/
  | fixed (a : ρ)
  | pair (relation : Relation α) (a b : ρ)
deriving Repr, BEq, DecidableEq

namespace Bond

variable {ρ σ α : Type}

def name : Bond ρ α → String
  | fixed _ => "fixed"
  | pair relation _ _ => relation.name

def first : Bond ρ α → ρ
  | fixed a => a
  | pair _ a _ => a

def second? : Bond ρ α → Option ρ
  | fixed _ => none
  | pair _ _ b => some b

/-- The ends, the first one first. -/
def ends : Bond ρ α → List ρ
  | fixed a => [a]
  | pair _ a b => [a, b]

def target? : Bond ρ α → Option α
  | fixed _ => none
  | pair relation _ _ => relation.target?

def isFixed : Bond ρ α → Bool
  | fixed _ => true
  | pair .. => false

def isDirectional : Bond ρ α → Bool
  | fixed _ => false
  | pair relation _ _ => relation.isDirectional

def freedomRemoved (turning : Bool) : Bond ρ α → Nat
  | fixed _ => freedomOfPart turning
  | pair relation _ _ => relation.freedomRemoved turning

def map (f : ρ → σ) : Bond ρ α → Bond σ α
  | fixed a => fixed (f a)
  | pair relation a b => pair relation (f a) (f b)

/-- Looks up the ends, and fails as the first end fails that does. -/
def traverse {ε : Type} (f : ρ → Except ε σ) : Bond ρ α → Except ε (Bond σ α)
  | fixed a => do return fixed (← f a)
  | pair relation a b => do
    let a ← f a
    let b ← f b
    return pair relation a b

end Bond

/-- A bond with a name, a weight for its deviation and perhaps a tolerance of
its own. -/
structure Constraint (ρ α : Type) where
  id : String
  bond : Bond ρ α
  tolerance : Option α
  weight : α
deriving Repr, BEq, DecidableEq

end Joinery
