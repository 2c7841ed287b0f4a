import Joinery.Dense.Elimination
import Joinery.Proofs.Checked
import Joinery.Proofs.Dense.Blank
import Joinery.Proofs.Dense.Entries
/-!
# Elimination with every index checked

The forms in `Dense` read a place that is not there as zero. The forms here check
every place before it is read or written, and every size where one is taken for
granted, and stop at the first that breaks. They never do: each is the form of the
same name in `Dense` (`factors?_eq`, `solve?_eq` and the products), because an
elimination keeps its matrix square, its order within the rows, and a flag for
every column (`Shaped`).
-/

namespace Joinery.Guarded

open Joinery.Dense

/-! ## Arrays -/

section Arrays

variable {β : Type} {v : Array β} {i j : Nat}

/-- What stands at a place. -/
def at? (v : Array β) (i : Nat) : Except Breach β :=
  match v[i]? with
  | some x => .ok x
  | none => .error .outOfRange

/-- The array with something else at a place. -/
def put? (v : Array β) (i : Nat) (x : β) : Except Breach (Array β) :=
  Breach.unless (i < v.size) .outOfRange (v.setIfInBounds i x)

/-- The array with two places exchanged. -/
def swap? (v : Array β) (i j : Nat) : Except Breach (Array β) :=
  Breach.unless (i < v.size ∧ j < v.size) .outOfRange (v.swapIfInBounds i j)

/-- The array with the values `f j` at the listed places. -/
def fill? (v : Array β) (places : List Nat) (f : Nat → Except Breach β) :
    Except Breach (Array β) :=
  places.foldlM (fun v j => do put? v j (← f j)) v

theorem at?_getElem (h : i < v.size) : at? v i = .ok v[i] := by
  simp [at?, h]

theorem at?_eq (h : i < v.size) (d : β) : at? v i = .ok (v.getD i d) := by
  simp [at?, h, Array.getD]

theorem put?_eq (h : i < v.size) (x : β) : put? v i x = .ok (v.setIfInBounds i x) := if_pos h

theorem fill?_ofFn {n : Nat} {places : List Nat} {f : Nat → Except Breach β} {g : Nat → β}
    (h : ∀ j ∈ places, j < n ∧ f j = .ok (g j)) (old : Nat → β) :
    fill? (Array.ofFn fun j : Fin n => old j) places f =
      .ok (Array.ofFn fun j : Fin n => if j.val ∈ places then g j else old j) := by
  induction places generalizing old with
  | nil => simp [fill?]
  | cons j rest ih =>
    obtain ⟨⟨hlt, hj⟩, hrest⟩ := List.forall_mem_cons.1 h
    have hput : (Array.ofFn fun k : Fin n => old k).setIfInBounds j (g j) =
        Array.ofFn fun k : Fin n => if k.val = j then g j else old k := by
      refine Array.ext (by simp) fun k hk _ => ?_
      have hk' : k < n := by simpa using hk
      rw [Array.getElem_setIfInBounds (by simpa using hk')]
      simp [eq_comm]
    have hfill := ih hrest fun k => if k = j then g j else old k
    rw [fill?, List.foldlM_cons, hj, ok_bind, put?_eq (by simpa using hlt), ok_bind, hput]
    refine hfill.trans (congrArg Except.ok (Array.ext (by simp) fun k _ _ => ?_))
    -- a place that is listed again gets the same value again
    by_cases hmem : k ∈ rest
    · simp [hmem]
    · by_cases heq : k = j <;> simp [hmem, heq]

theorem fill?_replicate {n : Nat} {places : List Nat} {f : Nat → Except Breach β} {g : Nat → β}
    (h : ∀ j ∈ places, j < n ∧ f j = .ok (g j)) (d : β) :
    fill? (Array.replicate n d) places f =
      .ok (Array.ofFn fun j : Fin n => if j.val ∈ places then g j else d) := by
  have hblank : Array.replicate n d = Array.ofFn fun _ : Fin n => d :=
    Array.ext (by simp) fun k _ _ => by simp
  rw [hblank]
  exact fill?_ofFn h fun _ => d

theorem swap?_eq (hi : i < v.size) (hj : j < v.size) :
    swap? v i j = .ok (v.swapIfInBounds i j) := if_pos ⟨hi, hj⟩

end Arrays

/-! ## Matrices -/

section Matrices

variable {α : Type} [Arithmetic α] {m : Matrix α} {i j : Nat}

/-- The matrix with the entries `f i j`, if all of them are there. -/
def build? (rows cols : Nat) (f : Nat → Nat → Except Breach α) : Except Breach (Matrix α) := do
  let data ← (List.range (rows * cols)).mapM fun k => f (k / cols) (k % cols)
  match Matrix.ofData? rows cols data.toArray with
  | some m => .ok m
  | none => .error .sizes

omit [Arithmetic α] in
theorem build?_eq {rows cols : Nat} {f : Nat → Nat → Except Breach α} {g : Nat → Nat → α}
    (h : ∀ i < rows, ∀ j < cols, f i j = .ok (g i j)) :
    build? rows cols f = .ok (Matrix.ofFn rows cols g) := by
  have hdata : (List.range (rows * cols)).mapM (fun k => f (k / cols) (k % cols)) =
      .ok ((List.range (rows * cols)).map fun k => g (k / cols) (k % cols)) := by
    refine mapM_eq_ok fun k hk => ?_
    have hk := List.mem_range.1 hk
    have hcols : 0 < cols := Nat.pos_of_mul_pos_left (Nat.zero_lt_of_lt hk)
    exact h _ ((Nat.div_lt_iff_lt_mul hcols).2 hk) _ (Nat.mod_lt _ hcols)
  have harray : ((List.range (rows * cols)).map fun k => g (k / cols) (k % cols)).toArray =
      (Matrix.ofFn rows cols g).data := by
    apply Array.ext <;> simp [Matrix.ofFn]
  have hsize : (Matrix.ofFn rows cols g).data.size = rows * cols :=
    (Matrix.ofFn rows cols g).size_data
  rw [build?, hdata, ok_bind, harray, Matrix.ofData?, dif_pos hsize]
  rfl

theorem entry?_eq (hi : i < m.rows) (hj : j < m.cols) : m.entry? i j = .ok (m.entry i j) := by
  refine if_pos ?_
  rw [m.size_data]
  exact Matrix.index_lt hi hj

omit [Arithmetic α] in
theorem hasRow_of_lt (hi : i < m.rows) : m.hasRow i = true := by
  rw [Matrix.hasRow, decide_eq_true_iff, m.size_data]
  exact Nat.mul_le_mul_right m.cols hi

omit [Arithmetic α] in
theorem row?_eq (hi : i < m.rows) : m.row? i = .ok (m.row i) := if_pos (hasRow_of_lt hi)

theorem swapRows?_eq (hi : i < m.rows) (hj : j < m.rows) :
    m.swapRows? i j = .ok (m.swapRows i j) := by
  unfold Matrix.swapRows?
  split
  case isTrue heq =>
    rw [← heq, Matrix.swapRows_self]
  case isFalse => simp [Breach.unless, hasRow_of_lt hi, hasRow_of_lt hj]

/-- A row of a matrix read at a column. -/
theorem at?_row (hi : i < m.rows) (hj : j < m.cols) : at? (m.row i) j = .ok (m.entry i j) := by
  rw [at?_eq (by rw [m.size_row hi]; exact hj) 0, m.getD_row hi hj]

end Matrices

/-! ## Elimination -/

section Elimination

variable {α : Type} [Arithmetic α] {m : Matrix α} {k : Nat}

/-- The largest candidate for the pivot of column `k`. -/
def pivot? (m : Matrix α) (k : Nat) : Except Breach (Nat × α) := do
  let first ← m.entry? k k
  (List.range' (k + 1) (m.rows - (k + 1))).foldlM
    (fun best i => do
      let size := Arithmetic.abs (← m.entry? i k)
      return if best.2 < size then (i, size) else best)
    (k, Arithmetic.abs first)

theorem pivot?_eq (hk : k < m.rows) (hk' : k < m.cols) : pivot? m k = .ok (m.pivot k) := by
  rw [pivot?, entry?_eq hk hk', ok_bind]
  refine foldlM_eq_ok fun best i hi => ?_
  have hi := List.mem_range'_1.1 hi
  rw [entry?_eq (by omega) hk']
  rfl

def clearBelow? (m : Matrix α) (k : Nat) : Except Breach (Matrix α) :=
  build? m.rows m.cols fun i j => if j = k ∧ k < i then return 0 else m.entry? i j

theorem clearBelow?_eq (m : Matrix α) (k : Nat) : clearBelow? m k = .ok (m.clearBelow k) := by
  refine build?_eq fun i hi j hj => ?_
  split
  · rfl
  · exact entry?_eq hi hj

def reduceBelow? (m : Matrix α) (k : Nat) : Except Breach (Matrix α) := do
  let multipliers ← (List.range m.rows).mapM fun i => do
    return (← m.entry? i k) / (← m.entry? k k)
  build? m.rows m.cols fun i j =>
    if i ≤ k ∨ j < k then m.entry? i j
    else do
      let c ← at? multipliers.toArray i
      if j = k then return c
      else if c == 0 then m.entry? i j
      else return (← m.entry? i j) - c * (← m.entry? k j)

theorem reduceBelow?_eq (hk : k < m.rows) (hk' : k < m.cols) :
    reduceBelow? m k = .ok (m.reduceBelow k) := by
  have hmultipliers : (List.range m.rows).mapM (fun i => do
      return (← m.entry? i k) / (← m.entry? k k)) =
      .ok ((List.range m.rows).map fun i => m.entry i k / m.entry k k) := by
    refine mapM_eq_ok fun i hi => ?_
    rw [entry?_eq (List.mem_range.1 hi) hk', entry?_eq hk hk']
    rfl
  have harray : ((List.range m.rows).map fun i => m.entry i k / m.entry k k).toArray =
      Array.ofFn fun i : Fin m.rows => m.entry i k / m.entry k k := by
    apply Array.ext <;> simp
  rw [reduceBelow?, hmultipliers, ok_bind, harray, Matrix.reduceBelow]
  refine build?_eq fun i hi j hj => ?_
  rw [at?_eq (by simpa using hi) 0, entry?_eq hi hj, entry?_eq hk hj]
  simp only [ok_bind, return_eq_ok]
  split
  · rfl
  · split
    · rfl
    · split <;> rfl

/-- The work on column `k`. -/
def eliminate? (threshold : α) (f : Factors α) (k : Nat) : Except Breach (Factors α) := do
  let best ← pivot? f.entries k
  if Arithmetic.isNaN best.2 ∨ best.2 < threshold then
    return { f with
      entries := ← clearBelow? f.entries k
      singular := ← put? f.singular k true }
  else
    return { f with
      entries := ← reduceBelow? (← f.entries.swapRows? k best.1) k
      order := ← swap? f.order k best.1 }

/-- What elimination keeps of its factors: they are square, their order names rows,
and every column has its flag. -/
structure Shaped (f : Factors α) : Prop where
  square : f.entries.cols = f.entries.rows
  size_order : f.order.size = f.entries.rows
  order_lt : ∀ i ∈ f.order, i < f.entries.rows
  size_singular : f.singular.size = f.entries.rows

variable {f : Factors α} {threshold : α}

theorem Shaped.eliminate (h : Shaped f) (hk : k < f.entries.rows) :
    Shaped (f.eliminate threshold k) := by
  have hpivot := Matrix.pivot_lt hk
  unfold Factors.eliminate
  dsimp only
  split
  · exact ⟨h.square, h.size_order, h.order_lt, Array.size_setIfInBounds.trans h.size_singular⟩
  · refine ⟨h.square, Array.size_swapIfInBounds.trans h.size_order, ?_, h.size_singular⟩
    intro i hi
    rw [Array.swapIfInBounds_def, dif_pos (by rw [h.size_order]; exact hk),
      dif_pos (by rw [h.size_order]; exact hpivot)] at hi
    exact h.order_lt i ((Array.swap_perm _ _).mem_iff.1 hi)

theorem eliminate?_eq (h : Shaped f) (hk : k < f.entries.rows) :
    eliminate? threshold f k = .ok (f.eliminate threshold k) := by
  have hpivot := Matrix.pivot_lt hk
  have hcols : k < f.entries.cols := by rw [h.square]; exact hk
  have horder : ∀ {i}, i < f.entries.rows → i < f.order.size := fun hi => by rwa [h.size_order]
  unfold eliminate? Factors.eliminate
  rw [pivot?_eq hk hcols, ok_bind]
  dsimp only
  split
  · rw [clearBelow?_eq, put?_eq (by rw [h.size_singular]; exact hk)]
    rfl
  · rw [swapRows?_eq hk hpivot, ok_bind, reduceBelow?_eq (by exact hk) (by exact hcols),
      swap?_eq (horder hk) (horder hpivot)]
    rfl

/-- The factors of a square matrix. -/
def factors? (m : Matrix α) (pivotThreshold : α) : Except Breach (Factors α) :=
  if m.rows = m.cols then
    let threshold := pivotThreshold * Arithmetic.max m.maxAbs 1
    (List.range m.rows).foldlM (eliminate? threshold)
      ⟨m, Array.range m.rows, Array.replicate m.rows false⟩
  else .error .notSquare

theorem factors?_ok {m : Matrix α} (h : m.rows = m.cols) (pivotThreshold : α) :
    factors? m pivotThreshold = .ok (Factors.ofMatrix m pivotThreshold) ∧
      Shaped (Factors.ofMatrix m pivotThreshold) := by
  rw [factors?, if_pos h]
  have hfold := foldlM_range_eq_ok
    (f := eliminate? (pivotThreshold * Arithmetic.max m.maxAbs 1))
    (P := fun _ f => Shaped f ∧ f.entries.rows = m.rows)
    (n := m.rows) (y := ⟨m, Array.range m.rows, Array.replicate m.rows false⟩)
    ⟨⟨h.symm, by simp, by simp, by simp⟩, rfl⟩ fun k hk f ⟨hf, hrows⟩ =>
      ⟨eliminate?_eq hf (hrows ▸ hk), hf.eliminate (hrows ▸ hk),
        by rw [Factors.rows_eliminate, hrows]⟩
  exact ⟨hfold.1, hfold.2.1⟩

theorem factors?_eq (m : Matrix α) (pivotThreshold : α) :
    factors? m pivotThreshold = Factors.ofMatrix? m pivotThreshold := by
  unfold Factors.ofMatrix? Breach.unless
  split
  case isTrue h => exact (factors?_ok h pivotThreshold).1
  case isFalse h => exact if_neg h

end Elimination

/-! ## Substitution -/

section Substitution

variable {α : Type} [Arithmetic α] {f : Factors α} {b y : Array α}

def forward? (f : Factors α) (b : Array α) : Except Breach (Array α) :=
  (List.range f.entries.rows).foldlM
    (fun y i => do
      let first ← at? b (← at? f.order i)
      let sum ← (List.range i).foldlM
        (fun sum j => do return sum - (← f.entries.entry? i j) * (← at? y j)) first
      return y.push sum)
    #[]

theorem forward?_ok (h : Shaped f) (hb : b.size = f.entries.rows) :
    forward? f b = .ok (f.forward b) ∧ (f.forward b).size = f.entries.rows := by
  refine foldlM_range_eq_ok (P := fun i (y : Array α) => y.size = i) rfl
    fun i hi y hy => ⟨?_, by simp [hy]⟩
  have horder : f.order.getD i 0 < b.size := by
    have hi' : i < f.order.size := by rw [h.size_order]; exact hi
    rw [hb, Array.getD, dif_pos hi']
    exact h.order_lt _ (Array.getElem_mem hi')
  have hsum : ∀ first : α, (List.range i).foldlM
      (fun sum j => do return sum - (← f.entries.entry? i j) * (← at? y j)) first =
      (.ok ((List.range i).foldl (fun sum j => sum - f.entries.entry i j * y.getD j 0) first) :
        Except Breach α) := by
    intro first
    refine foldlM_eq_ok fun sum j hj => ?_
    have hj := List.mem_range.1 hj
    rw [entry?_eq hi (by rw [h.square]; omega), at?_eq (by omega) 0]
    rfl
  rw [at?_eq (by rw [h.size_order]; exact hi) 0, ok_bind, at?_eq horder 0, ok_bind, hsum]
  rfl

def backward? (f : Factors α) (y : Array α) : Except Breach (List α) :=
  (List.range f.entries.rows).foldrM
    (fun i later => do
      if ← at? f.singular i then return 0 :: later
      else
        let sum ← (later.zipIdx (i + 1)).foldlM
          (fun sum x => do return sum - (← f.entries.entry? i x.2) * x.1) (← at? y i)
        return sum / (← f.entries.entry? i i) :: later)
    []

theorem backward?_eq (h : Shaped f) (hy : y.size = f.entries.rows) :
    backward? f y = .ok (f.backward y) := by
  unfold backward? Factors.backward
  rw [List.range_eq_range']
  refine (foldrM_range'_eq_ok (P := fun i later => i + later.length = f.entries.rows) (by simp)
    fun i _ hi later hlater => ⟨?_, by simp; omega⟩).1
  have hi : i < f.entries.rows := by omega
  have hcols : ∀ {j}, j < f.entries.rows → j < f.entries.cols := fun hj => by rwa [h.square]
  have hsum : ∀ first : α, (later.zipIdx (i + 1)).foldlM
      (fun sum x => do return sum - (← f.entries.entry? i x.2) * x.1) first =
      (.ok ((later.zipIdx (i + 1)).foldl (fun sum x => sum - f.entries.entry i x.2 * x.1) first) :
        Except Breach α) := by
    intro first
    refine foldlM_eq_ok fun sum x hx => ?_
    have hx := List.snd_lt_add_of_mem_zipIdx hx
    rw [entry?_eq hi (hcols (by omega))]
    rfl
  rw [at?_eq (by rw [h.size_singular]; exact hi) false, ok_bind]
  split
  · rfl
  · rw [at?_eq (by rw [hy]; exact hi) 0, ok_bind, hsum, ok_bind, entry?_eq hi (hcols hi)]
    rfl

/-- A solution of the system with right-hand side `b`. -/
def solve? (f : Factors α) (b : Array α) : Except Breach (Array α) :=
  if b.size = f.entries.rows then do return (← backward? f (← forward? f b)).toArray
  else .error .sizes

theorem solve?_eq (h : Shaped f) (b : Array α) : solve? f b = f.solve? b := by
  unfold solve? Factors.solve? Breach.unless
  split
  case isTrue hb =>
    obtain ⟨hforward, hsize⟩ := forward?_ok h hb
    rw [hforward, ok_bind, backward?_eq h hsize]
    rfl
  case isFalse => rfl

end Substitution

/-! ## Products -/

section Products

variable {α : Type} [Arithmetic α] {m : Matrix α}

def gramAt? (m : Matrix α) (i j : Nat) : Except Breach α :=
  (List.range m.rows).foldlM
    (fun sum k => do
      let row ← m.row? k
      let x ← at? row i
      if x == 0 then return sum else return sum + x * (← at? row j)) 0

theorem gramAt?_eq {i j : Nat} (hi : i < m.cols) (hj : j < m.cols) :
    gramAt? m i j = .ok (m.gramEntry i j) := by
  refine foldlM_eq_ok fun sum k hk => ?_
  have hk := List.mem_range.1 hk
  rw [row?_eq hk, ok_bind, at?_row hk hi, ok_bind, at?_row hk hj]
  split <;> rfl

def ofUpper? (n : Nat) (f : Nat → Nat → Except Breach α) : Except Breach (Matrix α) := do
  let upper ← build? n n fun i j => if i ≤ j then f i j else return 0
  build? n n fun i j => if i ≤ j then upper.entry? i j else upper.entry? j i

theorem ofUpper?_eq {n : Nat} {f : Nat → Nat → Except Breach α} {g : Nat → Nat → α}
    (h : ∀ i < n, ∀ j < n, f i j = .ok (g i j)) : ofUpper? n f = .ok (Matrix.ofUpper n g) := by
  have hupper : build? n n (fun i j => if i ≤ j then f i j else return 0) =
      .ok (Matrix.ofFn n n fun i j => if i ≤ j then g i j else 0) := by
    refine build?_eq fun i hi j hj => ?_
    rw [h i hi j hj]
    split <;> rfl
  rw [ofUpper?, hupper, ok_bind, Matrix.ofUpper]
  refine build?_eq fun i hi j hj => ?_
  split
  · exact entry?_eq hi hj
  · exact entry?_eq hj hi

def gram? (m : Matrix α) : Except Breach (Matrix α) := ofUpper? m.cols (gramAt? m)

theorem gram?_eq (m : Matrix α) : gram? m = .ok m.gram :=
  ofUpper?_eq fun _ hi _ hj => gramAt?_eq hi hj

def outerGram? (m : Matrix α) : Except Breach (Matrix α) := do
  let rows ← (List.range m.rows).mapM m.row?
  ofUpper? m.rows fun i j => do return dot (← at? rows.toArray i) (← at? rows.toArray j)

theorem outerGram?_eq (m : Matrix α) : outerGram? m = .ok m.outerGram := by
  have hrows : (List.range m.rows).mapM m.row? = .ok ((List.range m.rows).map m.row) :=
    mapM_eq_ok fun i hi => row?_eq (List.mem_range.1 hi)
  have harray : ((List.range m.rows).map m.row).toArray =
      Array.ofFn fun i : Fin m.rows => m.row i := by
    apply Array.ext <;> simp
  rw [outerGram?, hrows, ok_bind, harray, Matrix.outerGram]
  refine ofUpper?_eq fun i hi j hj => ?_
  rw [at?_eq (by simpa using hi) #[], at?_eq (by simpa using hj) #[]]
  rfl

def transposeMulVec? (m : Matrix α) (v : Array α) : Except Breach (Array α) :=
  if v.size = m.rows then do
    let sums ← (List.range m.cols).mapM fun j =>
      (List.range m.rows).foldlM
        (fun sum i => do return sum + (← at? v i) * (← at? (← m.row? i) j)) 0
    return sums.toArray
  else .error .sizes

theorem transposeMulVec?_eq (m : Matrix α) (v : Array α) :
    transposeMulVec? m v = m.transposeMulVec? v := by
  unfold transposeMulVec? Matrix.transposeMulVec? Breach.unless
  split
  case isTrue hv =>
    have hsums : (List.range m.cols).mapM (fun j => (List.range m.rows).foldlM
        (fun sum i => do return sum + (← at? v i) * (← at? (← m.row? i) j)) 0) =
        .ok ((List.range m.cols).map fun j =>
          (List.range m.rows).foldl (fun sum i => sum + v.getD i 0 * m.entry i j) 0) := by
      refine mapM_eq_ok fun j hj => foldlM_eq_ok fun sum i hi => ?_
      have hi := List.mem_range.1 hi
      rw [at?_eq (by rw [hv]; exact hi) 0, ok_bind, row?_eq hi, ok_bind,
        at?_row hi (List.mem_range.1 hj)]
      rfl
    rw [hsums, ok_bind, Matrix.transposeMulVec]
    refine congrArg Except.ok ?_
    apply Array.ext <;> simp
  case isFalse => rfl

end Products

end Joinery.Guarded
