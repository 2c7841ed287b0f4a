import Joinery.Scalar.Basic
/-!
# Doubles as scalars

The scalars the library runs on. Every operation rounds on its own; the two
factors between degrees and radians are rounded once, from the double nearest
to pi.
-/

namespace Joinery

instance : Arithmetic Float where
  zero := 0.0
  one := 1.0
  natCast n := Float.ofNat n
  decLt := inferInstance
  decLe := inferInstance
  abs := Float.abs
  isFinite := Float.isFinite

/-- The double nearest to pi. -/
def Double.pi : Float := 3.141592653589793

instance : Scalar Float where
  sqrt := Float.sqrt
  sin := Float.sin
  cos := Float.cos
  atan2 := Float.atan2
  degree := Double.pi / 180.0
  radian := 180.0 / Double.pi

end Joinery
