import Joinery.Dense.Vector
/-!
# Reflections

A reflection turns everything over in the plane at right angles to its axis. It
keeps lengths, so a matrix keeps its singular values when its rows or its
columns are reflected. `Reflection.leveling` finds the reflection that takes a
vector to a multiple of the first unit vector. One for the first row and one
for what then stands below it in the first column, again and again, leave
nothing of a matrix but its diagonal and the diagonal below (`band`).
-/

namespace Joinery.Dense

/-- The map that takes `x` to `x - factor · (axis · x) · axis`. With a factor of
two over the squared length of the axis it is a reflection, with a factor of
zero it changes nothing. -/
structure Reflection (α : Type) where
  axis : Array α
  factor : α

variable {α : Type} [Scalar α]

namespace Reflection

/-- The reflection that takes `x` to a multiple of the first unit vector, and
that multiple. Its sign is the one that makes the axis long. -/
def leveling (x : Array α) : Reflection α × α :=
  let length := norm x
  if length == 0 then (⟨x, 0⟩, 0)
  else
    let first := x.getD 0 0
    let image := if first < 0 then length else -length
    let axis := x.setIfInBounds 0 (first - image)
    (⟨axis, Arithmetic.twice 1 / dot axis axis⟩, image)

/-- The image of a vector. -/
def apply (r : Reflection α) (x : Array α) : Array α :=
  let s := r.factor * dot r.axis x
  Array.zipWith (fun v a => v - s * a) x r.axis

/-- The sum of the rows, each times its entry of the axis. -/
def combine (r : Reflection α) (rows : List (Array α)) : Array α :=
  match rows with
  | [] => #[]
  | row :: _ =>
    (List.zip r.axis.toList rows).foldl
      (fun sum x => Array.zipWith (fun v a => v + x.1 * a) sum x.2)
      (Array.replicate row.size 0)

/-- The rows of a matrix of which all columns are reflected. -/
def applyDown (r : Reflection α) (rows : List (Array α)) : List (Array α) :=
  let sum := r.combine rows
  List.zipWith
    (fun w row =>
      let s := r.factor * w
      Array.zipWith (fun v a => v - s * a) row sum)
    r.axis.toList rows

theorem length_applyDown_le (r : Reflection α) (rows : List (Array α)) :
    (r.applyDown rows).length ≤ rows.length := by
  rw [applyDown, List.length_zipWith]
  exact Nat.min_le_right _ _

end Reflection

/-- The first corner of a matrix once its first row and the column below are
levelled. -/
structure Corner (α : Type) where
  entry : α
  /-- The entry below. -/
  below : α
  /-- The rows below, without the first column. -/
  rest : List (Array α)

/-- Levels the first row, then what stands below it in the first column. -/
def Corner.ofRows (first : Array α) (rows : List (Array α)) : Corner α :=
  let across := Reflection.leveling first
  let turned := rows.map across.1.apply
  let down := Reflection.leveling (turned.map fun row => row.getD 0 0).toArray
  ⟨across.2, down.2, down.1.applyDown (turned.map fun row => row.extract 1 row.size)⟩

theorem Corner.length_rest_le (first : Array α) (rows : List (Array α)) :
    (Corner.ofRows first rows).rest.length ≤ rows.length := by
  refine Nat.le_trans (Reflection.length_applyDown_le _ _) ?_
  simp

/-- The two diagonals that reflections leave of a matrix, given by its rows:
in turn an entry of the diagonal and the one below it, with a zero below the
last. -/
def band : List (Array α) → List α
  | [] => []
  | first :: rows =>
    let corner := Corner.ofRows first rows
    corner.entry :: corner.below :: band corner.rest
  termination_by rows => rows.length
  decreasing_by exact Nat.lt_succ_of_le (Corner.length_rest_le first rows)

end Joinery.Dense
