import Joinery.Scalar.Basic
/-!
# Vectors

A vector is an array of scalars. Sums run from the first entry to the last;
where two lengths differ, the shorter decides.
-/

namespace Joinery.Dense

variable {α : Type} [Arithmetic α]

def dot (a b : Array α) : α := (Array.zipWith (· * ·) a b).foldl (· + ·) 0

/-- `y + s · x`; entries of `y` beyond the end of `x` stay. -/
def addScaled (s : α) (x y : Array α) : Array α :=
  y.mapIdx fun i v => match x[i]? with
    | some w => v + s * w
    | none => v

def scale (a : Array α) (s : α) : Array α := a.map (· * s)

def allFinite (a : Array α) : Bool := a.all Arithmetic.isFinite

/-- The Euclidean length. -/
def norm {α : Type} [Scalar α] (a : Array α) : α := Scalar.sqrt (dot a a)

@[simp]
theorem size_addScaled (s : α) (x y : Array α) : (addScaled s x y).size = y.size := by
  simp [addScaled]

@[simp]
theorem size_scale (a : Array α) (s : α) : (scale a s).size = a.size := by
  simp [scale]

end Joinery.Dense
