import Joinery.Dense.Matrix
/-!
# Elimination

A square matrix is reduced column by column to two triangles kept in one
matrix: multipliers below the diagonal, the reduced rows from the diagonal on.
In each column the largest candidate is brought to the diagonal, the first of
equals. A column whose candidates are all too small is called singular: it is
left out of the elimination, nothing is divided by its pivot, and solving gives
its unknown the value zero.
-/

namespace Joinery.Dense

/-- The two triangles of a matrix whose rows were put in another order. -/
structure Factors (α : Type) where
  entries : Matrix α
  /-- Which row of the matrix stands at each place. -/
  order : Array Nat
  /-- The columns without a usable pivot. -/
  singular : Array Bool

variable {α : Type} [Arithmetic α]

/-- The row from the diagonal down with the largest magnitude in column `k`,
and that magnitude. -/
def Matrix.pivot (m : Matrix α) (k : Nat) : Nat × α :=
  (List.range' (k + 1) (m.rows - (k + 1))).foldl
    (fun best i =>
      let size := Arithmetic.abs (m.entry i k)
      if best.2 < size then (i, size) else best)
    (k, Arithmetic.abs (m.entry k k))

/-- Zeros below the diagonal in column `k`. -/
def Matrix.clearBelow (m : Matrix α) (k : Nat) : Matrix α :=
  ofFn m.rows m.cols fun i j => if j = k ∧ k < i then 0 else m.entry i j

/-- Takes from every row below row `k` the multiple of row `k` that clears
column `k`, and keeps the multiplier there. A multiplier of zero takes nothing. -/
def Matrix.reduceBelow (m : Matrix α) (k : Nat) : Matrix α :=
  let multipliers := Array.ofFn fun i : Fin m.rows => m.entry i k / m.entry k k
  ofFn m.rows m.cols fun i j =>
    if i ≤ k ∨ j < k then m.entry i j
    else
      let c := multipliers.getD i 0
      if j = k then c
      else if c == 0 then m.entry i j
      else m.entry i j - c * m.entry k j

namespace Factors

/-- The work on column `k`. -/
def eliminate (threshold : α) (f : Factors α) (k : Nat) : Factors α :=
  let best := f.entries.pivot k
  if Arithmetic.isNaN best.2 ∨ best.2 < threshold then
    { f with entries := f.entries.clearBelow k, singular := f.singular.setIfInBounds k true }
  else
    { f with
      entries := (f.entries.swapRows k best.1).reduceBelow k
      order := f.order.swapIfInBounds k best.1 }

/-- The factors of a square matrix. A pivot is usable when its magnitude
reaches `pivotThreshold` times the largest entry, or `pivotThreshold` itself
where all entries are below one. -/
def ofMatrix (m : Matrix α) (pivotThreshold : α) : Factors α :=
  let threshold := pivotThreshold * Arithmetic.max m.maxAbs 1
  (List.range m.rows).foldl (eliminate threshold)
    ⟨m, Array.range m.rows, Array.replicate m.rows false⟩

def singularCount (f : Factors α) : Nat := f.singular.count true

def isSingular (f : Factors α) : Bool := f.singular.any id

/-- The right-hand side in the new order, with the multipliers applied. -/
def forward (f : Factors α) (b : Array α) : Array α :=
  (List.range f.entries.rows).foldl
    (fun y i => y.push <|
      (List.range i).foldl (fun sum j => sum - f.entries.entry i j * y.getD j 0)
        (b.getD (f.order.getD i 0) 0))
    #[]

/-- The unknowns, found from the last to the first. -/
def backward (f : Factors α) (y : Array α) : List α :=
  (List.range f.entries.rows).foldr
    (fun i later =>
      (if f.singular.getD i false then 0
       else
         (later.zipIdx (i + 1)).foldl (fun sum x => sum - f.entries.entry i x.2 * x.1) (y.getD i 0)
           / f.entries.entry i i) :: later)
    []

/-- A solution of the system with right-hand side `b`, zero at every singular
column. -/
def solve (f : Factors α) (b : Array α) : Array α := (f.backward (f.forward b)).toArray

@[simp]
theorem rows_eliminate (threshold : α) (f : Factors α) (k : Nat) :
    (f.eliminate threshold k).entries.rows = f.entries.rows := by
  unfold eliminate
  dsimp only
  split <;> rfl

/-- The factors have the size of the matrix. -/
@[simp]
theorem rows_ofMatrix (m : Matrix α) (pivotThreshold : α) :
    (ofMatrix m pivotThreshold).entries.rows = m.rows := by
  have keep : ∀ (threshold : α) (l : List Nat) (f : Factors α),
      (l.foldl (eliminate threshold) f).entries.rows = f.entries.rows := by
    intro threshold l
    induction l with
    | nil => intro f; rfl
    | cons k rest ih => intro f; rw [List.foldl_cons, ih, rows_eliminate]
  exact keep _ _ _

/-- A solution has one value for every unknown. -/
@[simp]
theorem size_solve (f : Factors α) (b : Array α) : (f.solve b).size = f.entries.rows := by
  have count : ∀ (g : Nat → List α → α) (l : List Nat),
      (l.foldr (fun i later => g i later :: later) []).length = l.length := by
    intro g l
    induction l with
    | nil => rfl
    | cons i rest ih => simp [ih]
  unfold solve backward
  rw [List.size_toArray, count, List.length_range]

/-! ## Checked forms -/

def ofMatrix? (m : Matrix α) (pivotThreshold : α) : Except Breach (Factors α) :=
  Breach.unless (m.rows = m.cols) .notSquare (ofMatrix m pivotThreshold)

def solve? (f : Factors α) (b : Array α) : Except Breach (Array α) :=
  Breach.unless (b.size = f.entries.rows) .sizes (f.solve b)

end Factors

end Joinery.Dense
