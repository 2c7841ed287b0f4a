import Joinery.Assembly.Basic
/-!
# Freedom

How many ways an assembly can still move: what its components have, less what
its constraints take away. Fixing a component again takes nothing more away.
-/

namespace Joinery

variable {α : Type}

/-- What constraints take away, after the components `pinned` were fixed. -/
def freedomRemoved (turning : Bool) (pinned : List String) :
    List (Constraint String α) → Nat
  | [] => 0
  | c :: rest =>
    if c.bond.isFixed then
      if pinned.contains c.bond.first then freedomRemoved turning pinned rest
      else c.bond.freedomRemoved turning + freedomRemoved turning (c.bond.first :: pinned) rest
    else c.bond.freedomRemoved turning + freedomRemoved turning pinned rest

/-- The freedom that remains; below zero if more is taken away than there is. -/
def Assembly.freedom (a : Assembly α) (turning : Bool) : Int :=
  freedomOfPart turning * a.components.length - freedomRemoved turning [] a.constraints

end Joinery
