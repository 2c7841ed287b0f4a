import Joinery.Space.Point
/-!
# Mirror planes

A mirror plane stands upright on one of the three axes.
-/

namespace Joinery

inductive Axis
  | x
  | y
  | z
deriving Repr, BEq, DecidableEq

/-- The plane across `axis` that meets it at `offset`. -/
structure MirrorPlane (α : Type) where
  axis : Axis
  offset : α
deriving Repr, BEq, DecidableEq

namespace MirrorPlane

variable {α : Type} [Arithmetic α]

/-- The plane across the first axis through the origin: left and right of a
cabinet that is centred. -/
def centre : MirrorPlane α := ⟨.x, 0⟩

/-- The mirror image of a point. -/
def mirror (m : MirrorPlane α) (p : Point α) : Point α :=
  let twice := Arithmetic.twice m.offset
  match m.axis with
  | .x => ⟨twice - p.x, p.y, p.z⟩
  | .y => ⟨p.x, twice - p.y, p.z⟩
  | .z => ⟨p.x, p.y, twice - p.z⟩

end MirrorPlane

end Joinery
