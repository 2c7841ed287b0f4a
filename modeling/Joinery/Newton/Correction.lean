import Joinery.Dense.Bounded
import Joinery.Dense.Elimination
/-!
# Corrections

A correction is the step that would make all deviations zero if they were
straight: it solves `slopes · step = -deviations`. Rows that are all but zero
tell nothing and are left out. With as many rows as unknowns the system is
solved as it is; with more rows the squared error is made least; with fewer the
shortest step is taken.
-/

namespace Joinery.Newton

open Joinery.Dense

/-- How a correction was found. -/
inductive Method
  /-- No row tells anything, or there is nothing to move. -/
  | empty
  | direct
  | normalEquations
  | minimumNorm
deriving Repr, DecidableEq

structure Correction (α : Type) where
  step : Array α
  method : Method
  /-- How many columns of the factors had no usable pivot. -/
  singularPivots : Nat
  /-- How many rows took part. -/
  rowsUsed : Nat
deriving Repr, BEq

variable {α : Type} [Scalar α]

namespace Correction

def none (n : Nat) : Correction α := ⟨Array.replicate n 0, .empty, 0, 0⟩

/-- Whether the correction moves nothing. -/
def isZero (c : Correction α) : Bool := c.step.all (· == 0)

/-- A step that is not finite throughout is not taken at all. -/
def onlyFinite (step : Array α) : Array α :=
  if allFinite step then step else step.map fun _ => 0

end Correction

/-- The rows that tell something. -/
def tellingRows (slopes : Matrix α) : Array Nat :=
  ((List.range slopes.rows).filter fun i => 1e-14 < norm (slopes.row i)).toArray

/-- The solution of `slopes · step = target` by the method for its shape, with
the number of singular pivots. -/
def solveByShape (slopes : Matrix α) (target : Array α) (pivotThreshold : α) :
    Except Breach (Array α × Method × Nat) :=
  if slopes.rows = slopes.cols then do
    let factors ← Factors.ofMatrix? slopes pivotThreshold
    let step ← factors.solve? target
    return (step, .direct, factors.singularCount)
  else if slopes.cols < slopes.rows then do
    let factors ← Factors.ofMatrix? slopes.gram pivotThreshold
    let pulled ← slopes.transposeMulVec? target
    let step ← factors.solve? pulled
    return (step, .normalEquations, factors.singularCount)
  else do
    let factors ← Factors.ofMatrix? slopes.outerGram pivotThreshold
    let shares ← factors.solve? target
    let step ← slopes.transposeMulVec? shares
    return (step, .minimumNorm, factors.singularCount)

/-- The correction for the given slopes and deviations. -/
def correction? (slopes : Matrix α) (deviations : Array α) (pivotThreshold : α) :
    Except Breach (Correction α) :=
  if slopes.rows ≠ deviations.size then .error .sizes
  else
    let rows := tellingRows slopes
    if slopes.cols = 0 ∨ rows.isEmpty then .ok (.none slopes.cols)
    else do
      let told ← slopes.selectRows? rows
      let target := rows.map fun i => -deviations.getD i 0
      let (step, method, singularPivots) ← solveByShape told target pivotThreshold
      return ⟨Correction.onlyFinite step, method, singularPivots, rows.size⟩

/-- The correction, unless its step has more numbers than an array can hold. -/
def boundedCorrection? (slopes : Matrix α) (deviations : Array α) (pivotThreshold : α) :
    Except Breach (Correction α) :=
  Bounded.below? Bounded.arrayLimit slopes.cols (correction? slopes deviations pivotThreshold)

/-! ## Balance -/

/-- The length a row is divided by; none for a row that is all but zero, which
keeps its length. -/
def divisor? (row : Array α) : Option α :=
  if 1e-12 < norm row then some (norm row) else .none

/-- Slopes and deviations with every row divided by its length. -/
def balanced (slopes : Matrix α) (deviations : Array α) : Matrix α × Array α :=
  let lengths := Array.ofFn fun i : Fin slopes.rows => divisor? (slopes.row i)
  (.ofFn slopes.rows slopes.cols fun i j =>
      match lengths.getD i .none with
      | some length => slopes.entry i j * (1 / length)
      | .none => slopes.entry i j,
    deviations.mapIdx fun i r =>
      match lengths.getD i .none with
      | some length => r / length
      | .none => r)

end Joinery.Newton
