import Joinery.Proofs.Dense.Blank
import Joinery.Proofs.Dense.Entries
/-!
# Loops that write in place

A matrix can be worked out in one array that is written place by place, with each place
found by its index in the array. What stands in the array between two rounds of a loop is a
matrix again, so a loop is told by its snapshots (`foldl_snapshots`). The loops here give
the forms of `Dense` entry for entry (`transposeInPlace_eq`, `gramInPlace_eq` and so on),
for scalars without any laws: they add up the same terms in the same order.
-/

namespace Joinery.Dense

/-! ## Rounds of a loop -/

section Rounds

variable {β : Type} {body : β → Nat → β} {first last : β} {n : Nat}

/-- A loop each of whose rounds leads from one snapshot to the next. -/
theorem foldl_snapshots {s : Nat} (snapshot : Nat → β) (hfirst : first = snapshot s)
    (hround : ∀ t, s ≤ t → t < s + n → body (snapshot t) t = snapshot (t + 1))
    (hlast : snapshot (s + n) = last) : (List.range' s n).foldl body first = last := by
  subst hfirst
  induction n generalizing s with
  | zero => exact hlast
  | succ n ih =>
    rw [List.range'_succ, List.foldl_cons, hround s (Nat.le_refl s) (by omega)]
    refine ih (fun t ht hlt => hround t (by omega) (by omega)) ?_
    rwa [Nat.add_right_comm, Nat.add_assoc]

theorem foldl_range_snapshots (snapshot : Nat → β) (hfirst : first = snapshot 0)
    (hround : ∀ t < n, body (snapshot t) t = snapshot (t + 1)) (hlast : snapshot n = last) :
    (List.range n).foldl body first = last := by
  rw [List.range_eq_range']
  refine foldl_snapshots snapshot hfirst (fun t _ hlt => hround t (by omega)) ?_
  rwa [Nat.zero_add]

end Rounds

namespace Matrix

variable {α : Type} {rows cols i j : Nat} {e : Nat → Nat → α}

theorem size_set (m : Matrix α) (i j : Nat) (x : α) :
    (m.data.setIfInBounds (i * m.cols + j) x).size = m.rows * m.cols := by
  rw [Array.size_setIfInBounds]
  exact m.size_data

/-- The matrix with something else at one place. -/
def set (m : Matrix α) (i j : Nat) (x : α) : Matrix α :=
  ⟨m.rows, m.cols, m.data.setIfInBounds (i * m.cols + j) x, size_set m i j x⟩

theorem set_ofFn (hj : j < cols) (x : α) :
    (ofFn rows cols e).set i j x =
      ofFn rows cols fun i' j' => if i' = i ∧ j' = j then x else e i' j' := by
  unfold set ofFn
  congr 1
  refine Array.ext (by simp) fun k hk hk' => ?_
  have hk : k < rows * cols := by simpa using hk'
  rw [Array.getElem_setIfInBounds (by simpa using hk), Array.getElem_ofFn, Array.getElem_ofFn]
  simp only [index_eq_iff hj]

variable [Arithmetic α]

/-! ## Products in place -/

section Products

/-- The transpose, written row of the matrix by row. -/
def transposeInPlace (m : Matrix α) : Matrix α :=
  (List.range m.rows).foldl
    (fun t i => (List.range m.cols).foldl (fun t j => t.set j i (m.entry i j)) t)
    (zeros m.cols m.rows)

theorem transposeInPlace_eq (m : Matrix α) : m.transposeInPlace = m.transpose := by
  -- a row of the matrix fills a column, from the top down
  refine foldl_range_snapshots
    (fun t => ofFn m.cols m.rows fun i j => if j < t then m.entry j i else 0)
    (ofFn_congr (by simp)) (fun r hr => ?_) (ofFn_congr (by grind))
  refine foldl_range_snapshots
    (fun t => ofFn m.cols m.rows fun i j => if j < r ∨ j = r ∧ i < t then m.entry j i else 0)
    (ofFn_congr (by grind)) (fun c hc => ?_) (ofFn_congr (by grind))
  rw [set_ofFn hr]
  exact ofFn_congr (by grind)

/-- Adds the products of one row with one of its entries to a triangle. -/
def addProducts (m : Matrix α) (k : Nat) (g : Matrix α) (i : Nat) : Matrix α :=
  if m.entry k i == 0 then g
  else (List.range' i (m.cols - i)).foldl
    (fun g j => g.set i j (g.entry i j + m.entry k i * m.entry k j)) g

/-- The product of the transpose with the matrix: summed up row by row from the diagonal to
the right, then copied to the other side. -/
def gramInPlace (m : Matrix α) : Matrix α :=
  let upper := (List.range m.rows).foldl
    (fun g k => (List.range m.cols).foldl (m.addProducts k) g) (zeros m.cols m.cols)
  (List.range m.cols).foldl
    (fun g i => (List.range i).foldl (fun g j => g.set i j (g.entry j i)) g) upper

/-- The product of the matrix with its transpose, each entry written on both sides. -/
def outerGramInPlace (m : Matrix α) : Matrix α :=
  (List.range m.rows).foldl
    (fun g i => (List.range' i (m.rows - i)).foldl
      (fun g j =>
        let x := dot (m.row i) (m.row j)
        (g.set i j x).set j i x)
      g)
    (zeros m.rows m.rows)

/-- The product of the transpose with a column, summed up row by row. -/
def transposeMulVecInPlace (m : Matrix α) (v : Array α) : Array α :=
  (List.range v.size).foldl (fun sum i => addScaled (v.getD i 0) (m.row i) sum)
    (Array.replicate m.cols 0)

theorem addProducts_ofFn (m : Matrix α) (k : Nat) {i : Nat} (hi : i < m.cols) :
    m.addProducts k (ofFn m.cols m.cols e) i = ofFn m.cols m.cols fun i' j =>
      if i' = i ∧ i ≤ j then
        if m.entry k i == 0 then e i' j else e i' j + m.entry k i * m.entry k j
      else e i' j := by
  unfold addProducts
  split
  case isTrue => exact ofFn_congr (by grind)
  case isFalse hne =>
    refine foldl_snapshots
      (fun t => ofFn m.cols m.cols fun i' j =>
        if i' = i ∧ i ≤ j ∧ j < t then e i' j + m.entry k i * m.entry k j else e i' j)
      (ofFn_congr (by grind)) (fun t _ ht => ?_) (ofFn_congr (by grind))
    have ht : t < m.cols := by omega
    rw [entry_ofFn _ hi ht, set_ofFn ht]
    exact ofFn_congr (by grind)

theorem ofUpper_eq (n : Nat) (f : Nat → Nat → α) :
    ofUpper n f = ofFn n n fun i j => if i ≤ j then f i j else f j i := by
  unfold ofUpper
  refine ofFn_congr fun i hi j hj => ?_
  rw [entry_ofFn _ hi hj, entry_ofFn _ hj hi]
  grind

/-- The part of an entry of `gram` that the first `k` rows make. -/
def gramSum (m : Matrix α) (k i j : Nat) : α :=
  (List.range k).foldl
    (fun sum r => if m.entry r i == 0 then sum else sum + m.entry r i * m.entry r j) 0

theorem gramSum_succ (m : Matrix α) (k i j : Nat) : m.gramSum (k + 1) i j =
    if m.entry k i == 0 then m.gramSum k i j
    else m.gramSum k i j + m.entry k i * m.entry k j := by
  rw [gramSum, List.range_succ, List.foldl_append]
  rfl

theorem gramInPlace_eq (m : Matrix α) : m.gramInPlace = m.gram := by
  have hupper : (List.range m.rows).foldl
      (fun g k => (List.range m.cols).foldl (m.addProducts k) g) (zeros m.cols m.cols) =
        ofFn m.cols m.cols fun i j => if i ≤ j then m.gramEntry i j else 0 := by
    refine foldl_range_snapshots
      (fun k => ofFn m.cols m.cols fun i j => if i ≤ j then m.gramSum k i j else 0)
      (ofFn_congr fun i _ j _ => (ite_self _).symm) (fun k hk => ?_) rfl
    refine foldl_range_snapshots
      (fun t => ofFn m.cols m.cols fun i j =>
        if i ≤ j then if i < t then m.gramSum (k + 1) i j else m.gramSum k i j else 0)
      (ofFn_congr (by grind)) (fun t ht => ?_) (ofFn_congr (by grind))
    rw [addProducts_ofFn m k ht]
    refine ofFn_congr fun i _ j _ => ?_
    have := gramSum_succ m k i j
    grind
  rw [gramInPlace, hupper, gram, ofUpper_eq]
  -- what is copied stands right of the diagonal, where nothing is written any more
  refine foldl_range_snapshots
    (fun t => ofFn m.cols m.cols fun i j =>
      if i ≤ j then m.gramEntry i j else if i < t then m.gramEntry j i else 0)
    (ofFn_congr (by grind)) (fun r hr => ?_) (ofFn_congr (by grind))
  refine foldl_range_snapshots
    (fun t => ofFn m.cols m.cols fun i j =>
      if i ≤ j then m.gramEntry i j
      else if i < r ∨ i = r ∧ j < t then m.gramEntry j i else 0)
    (ofFn_congr (by grind)) (fun c hc => ?_) (ofFn_congr (by grind))
  have hc' : c < m.cols := by omega
  rw [entry_ofFn _ hc' hr, set_ofFn hc']
  exact ofFn_congr (by grind)

theorem outerGramInPlace_eq (m : Matrix α) : m.outerGramInPlace = m.outerGram := by
  -- the entry on the diagonal is written twice, with the same value
  rw [outerGram, ofUpper_eq]
  refine foldl_range_snapshots
    (fun t => ofFn m.rows m.rows fun i j =>
      if i < t ∨ j < t then
        if i ≤ j then dot (m.row i) (m.row j) else dot (m.row j) (m.row i)
      else 0)
    (ofFn_congr (by simp)) (fun r hr => ?_) (ofFn_congr fun i hi j hj => ?_)
  · refine foldl_snapshots
      (fun t => ofFn m.rows m.rows fun i j =>
        if i < r ∨ j < r ∨ i = r ∧ j < t ∨ j = r ∧ i < t then
          if i ≤ j then dot (m.row i) (m.row j) else dot (m.row j) (m.row i)
        else 0)
      (ofFn_congr (by grind)) (fun t hle ht => ?_) (ofFn_congr (by grind))
    dsimp only
    rw [set_ofFn (by omega), set_ofFn hr]
    exact ofFn_congr (by grind)
  · rw [m.getD_rows hi, m.getD_rows hj, if_pos (.inl hi)]

theorem addScaled_ofFn {n : Nat} (s : α) {x : Array α} (hx : x.size = n) (y : Fin n → α) :
    addScaled s x (Array.ofFn y) = Array.ofFn fun j => y j + s * x.getD j 0 := by
  refine Array.ext (by simp) fun j hj hj' => ?_
  have hj : j < x.size := by simpa [hx] using hj'
  simp [addScaled, hj]

theorem transposeMulVecInPlace_eq (m : Matrix α) {v : Array α} (hv : v.size = m.rows) :
    m.transposeMulVecInPlace v = m.transposeMulVec v := by
  have hblank : Array.replicate m.cols (0 : α) = Array.ofFn fun _ : Fin m.cols => 0 :=
    Array.ext (by simp) fun _ _ _ => by simp
  rw [transposeMulVecInPlace, hv]
  refine foldl_range_snapshots
    (fun t => Array.ofFn fun j : Fin m.cols =>
      (List.range t).foldl (fun sum i => sum + v.getD i 0 * m.entry i j) 0)
    hblank (fun t ht => ?_) rfl
  rw [addScaled_ofFn _ (m.size_row ht)]
  refine congrArg Array.ofFn (funext fun j => ?_)
  rw [m.getD_row ht j.isLt, List.range_succ, List.foldl_append]
  rfl

end Products

/-! ## Elimination in place -/

section Elimination

variable {m : Matrix α} {k : Nat}

/-- Exchanges two rows place by place. -/
def swapRowsInPlace (m : Matrix α) (a b : Nat) : Matrix α :=
  if a = b then m
  else (List.range m.cols).foldl
    (fun f j => (f.set a j (f.entry b j)).set b j (f.entry a j)) m

def clearBelowInPlace (m : Matrix α) (k : Nat) : Matrix α :=
  (List.range' (k + 1) (m.rows - (k + 1))).foldl (fun f i => f.set i k 0) m

/-- Takes from row `i` the multiple of row `k` that clears column `k`. The quotient is
written over what it clears. -/
def reduceRow (k : Nat) (pivot : α) (f : Matrix α) (i : Nat) : Matrix α :=
  let c := f.entry i k / pivot
  let f := f.set i k c
  if c == 0 then f
  else (List.range' (k + 1) (f.cols - (k + 1))).foldl
    (fun f j => f.set i j (f.entry i j - c * f.entry k j)) f

def reduceBelowInPlace (m : Matrix α) (k : Nat) : Matrix α :=
  (List.range' (k + 1) (m.rows - (k + 1))).foldl (reduceRow k (m.entry k k)) m

theorem swapRowsInPlace_eq {a b : Nat} (ha : a < m.rows) (hb : b < m.rows) :
    m.swapRowsInPlace a b = m.swapRows a b := by
  unfold swapRowsInPlace
  split
  case isTrue heq => rw [← heq, swapRows_self]
  case isFalse hne =>
    refine foldl_range_snapshots
      (fun t => ofFn m.rows m.cols fun i j =>
        m.entry (if j < t then if i = a then b else if i = b then a else i else i) j)
      (m.ofFn_entry.symm.trans (ofFn_congr (by grind))) (fun t ht => ?_) (ofFn_congr (by grind))
    rw [entry_ofFn _ ha ht, entry_ofFn _ hb ht, set_ofFn ht, set_ofFn ht]
    exact ofFn_congr (by grind)

theorem clearBelowInPlace_eq (hk : k < m.cols) : m.clearBelowInPlace k = m.clearBelow k := by
  refine foldl_snapshots
    (fun t => ofFn m.rows m.cols fun i j => if j = k ∧ k < i ∧ i < t then 0 else m.entry i j)
    (m.ofFn_entry.symm.trans (ofFn_congr (by grind))) (fun t _ _ => ?_) (ofFn_congr (by grind))
  rw [set_ofFn hk]
  exact ofFn_congr (by grind)

theorem reduceRow_ofFn (hk : k < rows) (hk' : k < cols) (hi : i < rows) (pivot : α) :
    reduceRow k pivot (ofFn rows cols e) i = ofFn rows cols fun i' j =>
      if i' = i ∧ k ≤ j then
        if j = k then e i k / pivot
        else if e i k / pivot == 0 then e i j
        else e i j - e i k / pivot * e k j
      else e i' j := by
  unfold reduceRow
  rw [entry_ofFn _ hi hk']
  dsimp only
  rw [set_ofFn hk', cols_ofFn]
  split
  case isTrue => exact ofFn_congr (by grind)
  case isFalse =>
    refine foldl_snapshots
      (fun t => ofFn rows cols fun i' j =>
        if i' = i ∧ k ≤ j ∧ j < t then
          if j = k then e i k / pivot else e i j - e i k / pivot * e k j
        else e i' j)
      (ofFn_congr (by grind)) (fun t hle ht => ?_) (ofFn_congr (by grind))
    have ht : t < cols := by omega
    rw [entry_ofFn _ hi ht, entry_ofFn _ hk ht, set_ofFn ht]
    exact ofFn_congr (by grind)

theorem reduceBelowInPlace_eq (hk : k < m.rows) (hk' : k < m.cols) :
    m.reduceBelowInPlace k = m.reduceBelow k := by
  unfold reduceBelowInPlace reduceBelow
  refine foldl_snapshots
    (fun t => ofFn m.rows m.cols fun i j =>
      if i ≤ k ∨ t ≤ i ∨ j < k then m.entry i j
      else if j = k then m.entry i k / m.entry k k
      else if m.entry i k / m.entry k k == 0 then m.entry i j
      else m.entry i j - m.entry i k / m.entry k k * m.entry k j)
    (m.ofFn_entry.symm.trans (ofFn_congr (by grind))) (fun t _ ht => ?_)
    (ofFn_congr fun i hi j hj => ?_)
  · -- row `k` is above all rows that are written, so it is still the one of the matrix
    rw [reduceRow_ofFn hk hk' (by omega)]
    exact ofFn_congr (by grind)
  · have hmultiplier : (Array.ofFn fun i : Fin m.rows => m.entry i k / m.entry k k).getD i 0 =
        m.entry i k / m.entry k k := getD_ofFn _ hi
    rw [hmultiplier]
    grind

end Elimination

end Matrix

namespace Factors

variable {α : Type} [Arithmetic α] {f : Factors α} {k : Nat} {threshold : α}

/-- The work on column `k`, on the one matrix that holds both triangles. -/
def eliminateInPlace (threshold : α) (f : Factors α) (k : Nat) : Factors α :=
  let best := f.entries.pivot k
  if Arithmetic.isNaN best.2 ∨ best.2 < threshold then
    { f with
      entries := f.entries.clearBelowInPlace k
      singular := f.singular.setIfInBounds k true }
  else
    { f with
      entries := (f.entries.swapRowsInPlace k best.1).reduceBelowInPlace k
      order := f.order.swapIfInBounds k best.1 }

/-- The factors of a square matrix, worked out in a copy of it. -/
def ofMatrixInPlace (m : Matrix α) (pivotThreshold : α) : Factors α :=
  let threshold := pivotThreshold * Arithmetic.max m.maxAbs 1
  (List.range m.rows).foldl (eliminateInPlace threshold)
    ⟨m, Array.range m.rows, Array.replicate m.rows false⟩

theorem eliminateInPlace_eq (hk : k < f.entries.rows) (hk' : k < f.entries.cols) :
    f.eliminateInPlace threshold k = f.eliminate threshold k := by
  have hpivot := Matrix.pivot_lt hk
  unfold eliminateInPlace eliminate
  dsimp only
  rw [Matrix.clearBelowInPlace_eq hk', Matrix.swapRowsInPlace_eq hk hpivot,
    Matrix.reduceBelowInPlace_eq (by exact hk) (by exact hk')]

@[simp]
theorem cols_eliminate (threshold : α) (f : Factors α) (k : Nat) :
    (f.eliminate threshold k).entries.cols = f.entries.cols := by
  unfold eliminate
  dsimp only
  split <;> rfl

/-- In place, elimination gives the same factors. -/
theorem ofMatrixInPlace_eq {m : Matrix α} (hsquare : m.cols = m.rows) (pivotThreshold : α) :
    ofMatrixInPlace m pivotThreshold = ofMatrix m pivotThreshold := by
  have hsize : ∀ (threshold : α) (l : List Nat) (f : Factors α),
      (l.foldl (eliminate threshold) f).entries.rows = f.entries.rows ∧
        (l.foldl (eliminate threshold) f).entries.cols = f.entries.cols := by
    intro threshold l
    induction l with
    | nil => exact fun f => ⟨rfl, rfl⟩
    | cons k rest ih => exact fun f => by simpa using ih (f.eliminate threshold k)
  refine foldl_range_snapshots
    (fun t => (List.range t).foldl (eliminate (pivotThreshold * Arithmetic.max m.maxAbs 1))
      ⟨m, Array.range m.rows, Array.replicate m.rows false⟩)
    rfl (fun t ht => ?_) rfl
  obtain ⟨hrows, hcols⟩ := hsize (pivotThreshold * Arithmetic.max m.maxAbs 1) (List.range t)
    ⟨m, Array.range m.rows, Array.replicate m.rows false⟩
  rw [eliminateInPlace_eq (by rwa [hrows]) (by rwa [hcols, hsquare]), List.range_succ,
    List.foldl_append]
  rfl

end Factors

end Joinery.Dense
