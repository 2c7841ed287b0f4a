import Joinery.Breach
import Joinery.Dense.Vector
/-!
# Matrices

A matrix keeps its entries row by row in one array, whose size is part of the
type. `ofFn` builds every matrix from its entries, and `entry_ofFn` reads them
back. The forms with a question mark check their arguments against the array
itself: a place is legal when its index in the array is, so a column index may
run into the next row.
-/

namespace Joinery.Dense

/-- A matrix by rows. -/
structure Matrix (α : Type) where
  rows : Nat
  cols : Nat
  data : Array α
  size_data : data.size = rows * cols

namespace Matrix

variable {α : Type}

/-- The matrix with the entries `f i j`. -/
def ofFn (rows cols : Nat) (f : Nat → Nat → α) : Matrix α :=
  ⟨rows, cols, Array.ofFn fun k : Fin (rows * cols) => f (k.val / cols) (k.val % cols), by simp⟩

@[simp]
theorem rows_ofFn (rows cols : Nat) (f : Nat → Nat → α) : (ofFn rows cols f).rows = rows := rfl

@[simp]
theorem cols_ofFn (rows cols : Nat) (f : Nat → Nat → α) : (ofFn rows cols f).cols = cols := rfl

/-- The matrix of the given data, if their number fits. -/
def ofData? (rows cols : Nat) (data : Array α) : Option (Matrix α) :=
  if h : data.size = rows * cols then some ⟨rows, cols, data, h⟩ else none

def isSquare (m : Matrix α) : Bool := m.rows = m.cols

/-- Row `i` of the array. -/
def row (m : Matrix α) (i : Nat) : Array α := m.data.extract (i * m.cols) ((i + 1) * m.cols)

variable [Arithmetic α]

/-- The entry in row `i` and column `j`. -/
def entry (m : Matrix α) (i j : Nat) : α := m.data.getD (i * m.cols + j) 0

theorem index_lt {rows cols i j : Nat} (hi : i < rows) (hj : j < cols) :
    i * cols + j < rows * cols := by
  calc i * cols + j < i * cols + cols := by omega
    _ = (i + 1) * cols := by rw [Nat.add_mul, Nat.one_mul]
    _ ≤ rows * cols := Nat.mul_le_mul_right cols hi

/-- A matrix has the entries it was built from. -/
theorem entry_ofFn {rows cols i j : Nat} (f : Nat → Nat → α) (hi : i < rows) (hj : j < cols) :
    (ofFn rows cols f).entry i j = f i j := by
  have hk := index_lt hi hj
  have hdiv : (i * cols + j) / cols = i := by
    rw [Nat.mul_comm, Nat.mul_add_div (by omega), Nat.div_eq_of_lt hj, Nat.add_zero]
  have hmod : (i * cols + j) % cols = j := by
    rw [Nat.mul_comm, Nat.mul_add_mod, Nat.mod_eq_of_lt hj]
  simp [entry, ofFn, Array.getD, hk, hdiv, hmod]

def zeros (rows cols : Nat) : Matrix α := ofFn rows cols fun _ _ => 0

def identity (n : Nat) : Matrix α := ofFn n n fun i j => if i = j then 1 else 0

/-- The symmetric matrix with the entries `f i j` from the diagonal to the right. -/
def ofUpper (n : Nat) (f : Nat → Nat → α) : Matrix α :=
  let upper := ofFn n n fun i j => if i ≤ j then f i j else 0
  ofFn n n fun i j => if i ≤ j then upper.entry i j else upper.entry j i

/-- Below the diagonal it has the entries from above. -/
theorem entry_ofUpper {n i j : Nat} (f : Nat → Nat → α) (hi : i < n) (hj : j < n) :
    (ofUpper n f).entry i j = if i ≤ j then f i j else f j i := by
  rw [ofUpper, entry_ofFn _ hi hj]
  split
  case isTrue h => rw [entry_ofFn _ hi hj, if_pos h]
  case isFalse h => rw [entry_ofFn _ hj hi, if_pos (Nat.le_of_not_le h)]

/-- The matrix of the given rows, which are cut or filled up to `cols` entries. -/
def ofRows (cols : Nat) (rows : Array (Array α)) : Matrix α :=
  ofFn rows.size cols fun i j => (rows.getD i #[]).getD j 0

/-- The largest magnitude of an entry, zero without entries. -/
def maxAbs (m : Matrix α) : α :=
  m.data.foldl (fun largest v => Arithmetic.max largest (Arithmetic.abs v)) 0

def isFinite (m : Matrix α) : Bool := allFinite m.data

def transpose (m : Matrix α) : Matrix α := ofFn m.cols m.rows fun i j => m.entry j i

/-- The listed rows in the listed order. -/
def selectRows (m : Matrix α) (indices : Array Nat) : Matrix α :=
  ofFn indices.size m.cols fun i j => m.entry (indices.getD i 0) j

def swapRows (m : Matrix α) (a b : Nat) : Matrix α :=
  ofFn m.rows m.cols fun i j => m.entry (if i = a then b else if i = b then a else i) j

def scaleRow (m : Matrix α) (a : Nat) (s : α) : Matrix α :=
  ofFn m.rows m.cols fun i j => if i = a then m.entry i j * s else m.entry i j

@[simp]
theorem rows_transpose (m : Matrix α) : m.transpose.rows = m.cols := rfl

@[simp]
theorem cols_transpose (m : Matrix α) : m.transpose.cols = m.rows := rfl

theorem entry_transpose (m : Matrix α) {i j : Nat} (hi : i < m.cols) (hj : j < m.rows) :
    m.transpose.entry i j = m.entry j i := entry_ofFn _ hi hj

@[simp]
theorem rows_selectRows (m : Matrix α) (indices : Array Nat) :
    (m.selectRows indices).rows = indices.size := rfl

@[simp]
theorem cols_selectRows (m : Matrix α) (indices : Array Nat) :
    (m.selectRows indices).cols = m.cols := rfl

theorem entry_selectRows (m : Matrix α) {indices : Array Nat} {i j : Nat}
    (hi : i < indices.size) (hj : j < m.cols) :
    (m.selectRows indices).entry i j = m.entry indices[i] j := by
  rw [selectRows, entry_ofFn _ hi hj]
  simp [Array.getD, hi]

theorem entry_swapRows (m : Matrix α) (a b : Nat) {i j : Nat} (hi : i < m.rows) (hj : j < m.cols) :
    (m.swapRows a b).entry i j = m.entry (if i = a then b else if i = b then a else i) j :=
  entry_ofFn _ hi hj

theorem entry_scaleRow (m : Matrix α) (a : Nat) (s : α) {i j : Nat}
    (hi : i < m.rows) (hj : j < m.cols) :
    (m.scaleRow a s).entry i j = if i = a then m.entry i j * s else m.entry i j :=
  entry_ofFn _ hi hj

omit [Arithmetic α] in
/-- A row in the matrix has as many entries as the matrix has columns. -/
theorem size_row (m : Matrix α) {i : Nat} (hi : i < m.rows) : (m.row i).size = m.cols := by
  have hle : (i + 1) * m.cols ≤ m.data.size := by
    rw [m.size_data]
    exact Nat.mul_le_mul_right m.cols hi
  rw [row, Array.size_extract, Nat.min_eq_left hle, Nat.add_mul, Nat.one_mul]
  omega

/-- The entries of a row are those of the matrix. -/
theorem getD_row (m : Matrix α) {i j : Nat} (hi : i < m.rows) (hj : j < m.cols) :
    (m.row i).getD j 0 = m.entry i j := by
  have hrow : j < (m.row i).size := by rw [m.size_row hi]; exact hj
  have hdata : i * m.cols + j < m.data.size := by rw [m.size_data]; exact index_lt hi hj
  rw [entry, Array.getD, dif_pos hrow, Array.getD, dif_pos hdata]
  simp [row]

/-! ## Products -/

/-- The product with a column. -/
def mulVec (m : Matrix α) (v : Array α) : Array α :=
  Array.ofFn fun i : Fin m.rows => dot (m.row i) v

/-- The product of the transpose with a column. -/
def transposeMulVec (m : Matrix α) (v : Array α) : Array α :=
  Array.ofFn fun j : Fin m.cols =>
    (List.range m.rows).foldl (fun sum i => sum + v.getD i 0 * m.entry i j) 0

/-- One entry of the product of the transpose with the matrix. A row whose
first factor is zero adds nothing, even where the other factor is not finite. -/
def gramEntry (m : Matrix α) (i j : Nat) : α :=
  (List.range m.rows).foldl
    (fun sum k => if m.entry k i == 0 then sum else sum + m.entry k i * m.entry k j) 0

/-- The product of the transpose with the matrix. -/
def gram (m : Matrix α) : Matrix α := ofUpper m.cols m.gramEntry

/-- The product of the matrix with its transpose. -/
def outerGram (m : Matrix α) : Matrix α :=
  let rows := Array.ofFn fun i : Fin m.rows => m.row i
  ofUpper m.rows fun i j => dot (rows.getD i #[]) (rows.getD j #[])

@[simp]
theorem size_mulVec (m : Matrix α) (v : Array α) : (m.mulVec v).size = m.rows := by
  simp [mulVec]

@[simp]
theorem size_transposeMulVec (m : Matrix α) (v : Array α) :
    (m.transposeMulVec v).size = m.cols := by
  simp [transposeMulVec]

/-! ## Checked forms -/

def mulVec? (m : Matrix α) (v : Array α) : Except Breach (Array α) :=
  Breach.unless (v.size = m.cols) .sizes (m.mulVec v)

def transposeMulVec? (m : Matrix α) (v : Array α) : Except Breach (Array α) :=
  Breach.unless (v.size = m.rows) .sizes (m.transposeMulVec v)

def entry? (m : Matrix α) (i j : Nat) : Except Breach α :=
  Breach.unless (i * m.cols + j < m.data.size) .outOfRange (m.entry i j)

def setEntry? (m : Matrix α) (i j : Nat) (v : α) : Except Breach (Matrix α) :=
  if i * m.cols + j < m.data.size then
    .ok { m with
      data := m.data.setIfInBounds (i * m.cols + j) v
      size_data := by rw [Array.size_setIfInBounds]; exact m.size_data }
  else .error .outOfRange

/-- Whether all of row `i` lies in the array. A row without columns does. -/
def hasRow (m : Matrix α) (i : Nat) : Bool := (i + 1) * m.cols ≤ m.data.size

def row? (m : Matrix α) (i : Nat) : Except Breach (Array α) :=
  Breach.unless (m.hasRow i) .outOfRange (m.row i)

def selectRows? (m : Matrix α) (indices : Array Nat) : Except Breach (Matrix α) :=
  Breach.unless (indices.all m.hasRow) .outOfRange (m.selectRows indices)

def scaleRow? (m : Matrix α) (i : Nat) (s : α) : Except Breach (Matrix α) :=
  Breach.unless (m.hasRow i) .outOfRange (m.scaleRow i s)

/-- Rows with equal indices are not touched, so any index will do. -/
def swapRows? (m : Matrix α) (a b : Nat) : Except Breach (Matrix α) :=
  if a = b then .ok m
  else Breach.unless (m.hasRow a && m.hasRow b) .outOfRange (m.swapRows a b)

end Matrix

end Joinery.Dense
