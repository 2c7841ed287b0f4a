import Mathlib
import Joinery.Proofs.Dense.Entries
import Joinery.Proofs.Linkage.Reads
import Joinery.Proofs.Newton.Lockstep
import Joinery.Proofs.Scalar.Exact
/-!
# What a correction is told

A correction looks at its rows one by one: each is balanced by itself, and those that
tell nothing are left out. So the correction in a state is that of the list of its
telling equations (`Linkage.correctionAt?_eq`), whatever stands between them.
-/

namespace Joinery.Newton

open Joinery.Dense

variable {α : Type} [Scalar α]

/-- What one constraint asks of a step: to undo its deviation along its row. -/
structure Equation (α : Type) where
  row : Array α
  deviation : α

namespace Equation

/-- Whether the row of an equation is more than all but zero. -/
def tells (e : Equation α) : Bool := decide (1e-14 < norm e.row)

/-- The equation divided by the length of its row. -/
def balanced (e : Equation α) : Equation α :=
  match divisor? e.row with
  | some length => ⟨e.row.map (· * (1 / length)), e.deviation / length⟩
  | none => e

@[simp]
theorem size_row_balanced (e : Equation α) : e.balanced.row.size = e.row.size := by
  unfold balanced
  split <;> simp

end Equation

/-- The equations of a system, one for each row. -/
def equations (slopes : Matrix α) (deviations : Array α) : List (Equation α) :=
  (List.range slopes.rows).map fun i => ⟨slopes.row i, deviations.getD i 0⟩

/-- The matrix of the rows of `n` entries that equations have. -/
def rowsOf (n : Nat) (told : List (Equation α)) : Matrix α :=
  .ofRows n (told.map (·.row)).toArray

/-- What a step should change the deviations by. -/
def targetOf (told : List (Equation α)) : Array α := (told.map fun e => -e.deviation).toArray

/-- The correction of `n` unknowns for equations that all tell something. -/
def correctionOf? (n : Nat) (told : List (Equation α)) (pivotThreshold : α) :
    Except Breach (Correction α) :=
  if n = 0 ∨ told.isEmpty then .ok (.none n)
  else do
    let (step, method, singularPivots) ← solveByShape (rowsOf n told) (targetOf told) pivotThreshold
    return ⟨Correction.onlyFinite step, method, singularPivots, told.length⟩

section Systems

variable {slopes : Matrix α} {deviations : Array α}

/-- The rows that a system selects are those of its telling equations. -/
theorem filter_equations (slopes : Matrix α) (deviations : Array α) :
    (equations slopes deviations).filter Equation.tells =
      (tellingRows slopes).toList.map fun i => ⟨slopes.row i, deviations.getD i 0⟩ := by
  rw [equations, List.filter_map, tellingRows]
  rfl

theorem selectRows_eq (deviations : Array α) :
    slopes.selectRows (tellingRows slopes) =
      rowsOf slopes.cols ((equations slopes deviations).filter Equation.tells) := by
  rw [filter_equations]
  refine Matrix.ext_entry (by simp [rowsOf, Matrix.ofRows]) rfl ?_
  intro i j hi hj
  have hi' : i < (tellingRows slopes).size := hi
  have hj' : j < slopes.cols := hj
  have hlt := tellingRows_lt (Array.getElem_mem hi')
  rw [Matrix.entry_selectRows slopes hi' hj', rowsOf, Matrix.ofRows,
    Matrix.entry_ofFn _ (by simpa using hi') hj', ← slopes.getD_row hlt hj']
  congr 1
  simp [Array.getD, hi']

/-- The correction of a system is that of its telling equations. -/
theorem correction?_eq (h : slopes.rows = deviations.size) (pivotThreshold : α) :
    correction? slopes deviations pivotThreshold =
      correctionOf? slopes.cols ((equations slopes deviations).filter Equation.tells)
        pivotThreshold := by
  have htarget : (tellingRows slopes).map (fun i => -deviations.getD i 0) =
      targetOf ((equations slopes deviations).filter Equation.tells) := by
    rw [filter_equations, targetOf, List.map_map]
    exact Array.toList_inj.1 (by simp)
  have hlength : ((equations slopes deviations).filter Equation.tells).length =
      (tellingRows slopes).size := by
    rw [filter_equations, List.length_map, Array.length_toList]
  have hempty : ((equations slopes deviations).filter Equation.tells).isEmpty =
      (tellingRows slopes).isEmpty := by
    rw [Bool.eq_iff_iff, List.isEmpty_iff_length_eq_zero, hlength, Array.isEmpty_iff_size_eq_zero]
  unfold correction? correctionOf?
  rw [if_neg (not_not_intro h), hempty, hlength, ← htarget, ← selectRows_eq deviations]
  dsimp only
  rw [selectRows?_tellingRows]
  rfl

section Balance

variable {i : Nat} (hi : i < slopes.rows)
include hi

theorem getD_lengths :
    (Array.ofFn fun i : Fin slopes.rows => divisor? (slopes.row i)).getD i none =
      divisor? (slopes.row i) := by
  simp [Array.getD, hi]

theorem row_balanced (deviations : Array α) :
    (balanced slopes deviations).1.row i =
      (Equation.balanced ⟨slopes.row i, deviations.getD i 0⟩).row := by
  have hsize := slopes.size_row hi
  unfold balanced Equation.balanced
  dsimp only
  rw [Matrix.row_ofFn _ hi, getD_lengths hi]
  cases divisor? (slopes.row i) with
  | none =>
    rw [← ofFn_getD hsize]
    exact congrArg Array.ofFn (funext fun j => (slopes.getD_row hi j.isLt).symm)
  | some length =>
    refine ext_getD (n := slopes.cols) (by simp) (by simpa using hsize) ?_
    intro j hj
    have hj' : j < (slopes.row i).size := by rwa [hsize]
    rw [getD_ofFn _ hj, getD_of_lt (by simpa using hj'), Array.getElem_map, ← slopes.getD_row hi hj,
      getD_of_lt hj']

theorem deviation_balanced (h : deviations.size = slopes.rows) :
    (balanced slopes deviations).2.getD i 0 =
      (Equation.balanced ⟨slopes.row i, deviations.getD i 0⟩).deviation := by
  unfold balanced Equation.balanced
  dsimp only
  rw [getD_of_lt (by simpa [h] using hi), getD_of_lt (by rwa [h]), Array.getElem_mapIdx,
    getD_lengths hi]
  cases divisor? (slopes.row i) <;> rfl

end Balance

/-- Balancing a system is balancing its equations. -/
theorem equations_balanced (h : deviations.size = slopes.rows) :
    equations (balanced slopes deviations).1 (balanced slopes deviations).2 =
      (equations slopes deviations).map Equation.balanced := by
  rw [equations, equations, List.map_map]
  refine List.map_congr_left fun i hi => ?_
  have hi' : i < slopes.rows := List.mem_range.1 hi
  rw [row_balanced hi', deviation_balanced hi' h]
  rfl

end Systems

end Joinery.Newton

/-! ## Linkages -/

namespace Joinery.Linkage

open Joinery.Dense Joinery.Newton

variable {α : Type} [Scalar α] {L : Linkage α} {c : Settings α} {s : Array α}

/-- What a constraint asks of a step in a state. -/
def equationAt (L : Linkage α) (c : Settings α) (s : Array α) (con : Constraint Nat α) :
    Equation α :=
  let plain : Equation α := ⟨L.slopeRow s c.slopeStep con, L.deviation s con⟩
  if c.precondition then plain.balanced else plain

/-- What a correction in a state is told. -/
def told (L : Linkage α) (c : Settings α) (s : Array α) : List (Equation α) :=
  (L.constraints.map (L.equationAt c s)).filter Equation.tells

@[simp]
theorem size_row_equationAt (L : Linkage α) (c : Settings α) (s : Array α)
    (con : Constraint Nat α) : (L.equationAt c s con).row.size = L.size := by
  unfold equationAt
  split <;> simp

/-- The system in a state has the equation of each constraint. -/
theorem equations_systemAt (L : Linkage α) (c : Settings α) (s : Array α) :
    equations (L.systemAt c s).1 (L.systemAt c s).2 = L.constraints.map (L.equationAt c s) := by
  have hsize : (L.deviations s).size = (L.slopes s c.slopeStep).rows := by simp
  have hplain : equations (L.slopes s c.slopeStep) (L.deviations s) =
      L.constraints.map fun con => ⟨L.slopeRow s c.slopeStep con, L.deviation s con⟩ := by
    rw [equations, rows_slopes]
    refine List.ext_getElem (by simp) ?_
    intro i hi _
    have hlt : i < L.constraints.length := by simpa using hi
    rw [List.getElem_map, List.getElem_range, List.getElem_map, row_slopes L s c.slopeStep hlt,
      deviations, getD_of_lt (by simpa using hlt)]
    simp
  unfold systemAt equationAt
  dsimp only
  split
  · rw [equations_balanced hsize, hplain, List.map_map]
    rfl
  · exact hplain

/-- The correction in a state is that of what it is told. -/
theorem correctionAt?_eq (L : Linkage α) (c : Settings α) (s : Array α) :
    L.correctionAt? c s = correctionOf? L.size (L.told c s) c.pivotThreshold := by
  have hsizes : (L.systemAt c s).1.rows = (L.systemAt c s).2.size ∧
      (L.systemAt c s).1.cols = L.size := by
    unfold systemAt
    dsimp only
    split
    · exact ⟨by simp [balanced], rfl⟩
    · exact ⟨by simp, rfl⟩
  rw [correctionAt?, correction?_eq hsizes.1, hsizes.2, equations_systemAt, told]

/-! ## Constraints that read nothing -/

section Inert

variable {L : Linkage ℝ} {con : Constraint Nat ℝ} (h : ∀ j, ¬con.bond.Reads L.layout j)
include h

theorem slopeRow_inert (s : Array ℝ) (step : ℝ) :
    L.slopeRow s step con = Array.replicate L.size 0 := by
  refine ext_getD (n := L.size) (by simp) (by simp) ?_
  intro j hj
  rw [Exact.blank_iff.1 (slopeRow_blank (.of_not_reads (h j)) step)]
  simp [Array.getD, hj]

/-- A constraint that reads nothing deviates the same in all states. -/
theorem deviation_inert (s s' : Array ℝ) : L.deviation s con = L.deviation s' con :=
  deviation_congr fun j hj => absurd hj (h j)

/-- Balanced or not, a constraint that reads nothing tells nothing. -/
theorem tells_inert (c : Settings ℝ) (s : Array ℝ) : (L.equationAt c s con).tells = false := by
  have hnorm : norm (L.slopeRow s c.slopeStep con) = 0 := by
    rw [slopeRow_inert h, Exact.norm_eq]
    simp
  have hdivisor : divisor? (L.slopeRow s c.slopeStep con) = none := by
    refine if_neg ?_
    rw [hnorm]
    exact not_lt.2 (by norm_num)
  have hrow : (L.equationAt c s con).row = L.slopeRow s c.slopeStep con := by
    unfold equationAt Equation.balanced
    dsimp only
    rw [hdivisor]
    split <;> rfl
  rw [Equation.tells, hrow, hnorm]
  exact decide_eq_false (not_lt.2 (by norm_num))

end Inert

/-- The correction is told the same without constraints that read nothing. -/
theorem told_filter {L : Linkage ℝ} {kept : Constraint Nat ℝ → Bool}
    (h : ∀ con ∈ L.constraints, kept con = false → ∀ j, ¬con.bond.Reads L.layout j)
    (c : Settings ℝ) (s : Array ℝ) :
    ((L.constraints.filter kept).map (L.equationAt c s)).filter Equation.tells = L.told c s := by
  rw [told, List.filter_map, List.filter_map, List.filter_filter]
  refine congrArg (List.map _) (List.filter_congr fun con hcon => ?_)
  cases hkept : kept con with
  | true => simp
  | false => simp [tells_inert (h con hcon hkept)]

end Joinery.Linkage
