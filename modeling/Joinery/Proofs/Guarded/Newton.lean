import Joinery.Decimal.Readout
import Joinery.Proofs.Guarded.Linkage
import Joinery.Proofs.Newton.Totality
import Joinery.Proofs.Scalar.Double
/-!
# Solves with every index checked

A solve in which nothing is taken for granted: every place is looked up, every
size is compared where it matters, and every counter is stopped before it would
not fit a word. It is the solve (`solve_guarded`), so nothing of this ever happens
in one. Counters stay below the number of steps, and that is capped by the
settings.
-/

namespace Joinery.Guarded

open Joinery.Dense Newton

variable {α : Type} [Scalar α]

/-- A counter one further. -/
def next? (n : Nat) : Except Breach Nat :=
  Breach.unless (n + 1 < Bounded.wordLimit) .exhausted (n + 1)

theorem next?_eq {n : Nat} (h : n + 1 < Bounded.wordLimit) : next? n = .ok (n + 1) := if_pos h

/-! ## Corrections -/

section Corrections

variable {slopes : Matrix α} {deviations target : Array α}

/-- The rows that tell something. -/
def tellingRows? (slopes : Matrix α) : Except Breach (Array Nat) :=
  (List.range slopes.rows).foldlM
    (fun rows i => do
      if 1e-14 < norm (← slopes.row? i) then return rows.push i else return rows)
    #[]

theorem tellingRows?_eq (slopes : Matrix α) : tellingRows? slopes = .ok (tellingRows slopes) := by
  have hpush : ∀ (l rows : List Nat), l.foldl
      (fun rows i => if 1e-14 < norm (slopes.row i) then rows.push i else rows) rows.toArray =
      (rows ++ l.filter fun i => 1e-14 < norm (slopes.row i)).toArray := by
    intro l
    induction l with
    | nil => simp
    | cons i rest ih =>
      intro rows
      rw [List.foldl_cons, List.filter_cons]
      by_cases hi : 1e-14 < norm (slopes.row i)
      · simp [hi, ih]
      · simp [hi, ih]
  rw [tellingRows?, foldlM_eq_ok
    (g := fun rows i => if 1e-14 < norm (slopes.row i) then rows.push i else rows)
    fun rows i hi => ?_]
  · exact congrArg Except.ok (hpush _ [])
  · rw [row?_eq (List.mem_range.1 hi), ok_bind]
    split <;> rfl

/-- The listed rows in the listed order. -/
def selectRows? (m : Matrix α) (indices : Array Nat) : Except Breach (Matrix α) :=
  build? indices.size m.cols fun i j => do m.entry? (← at? indices i) j

theorem selectRows?_eq {m : Matrix α} {indices : Array Nat} (h : ∀ i ∈ indices, i < m.rows) :
    selectRows? m indices = .ok (m.selectRows indices) := by
  refine build?_eq fun i hi j hj => ?_
  rw [at?_eq hi 0, ok_bind]
  refine entry?_eq ?_ hj
  rw [Array.getD, dif_pos hi]
  exact h _ (Array.getElem_mem hi)

/-- The solution of `slopes · step = target` by the method for its shape, with
the number of singular pivots. -/
def solveByShape? (slopes : Matrix α) (target : Array α) (pivotThreshold : α) :
    Except Breach (Array α × Method × Nat) :=
  if slopes.rows = slopes.cols then do
    let factors ← factors? slopes pivotThreshold
    let step ← solve? factors target
    return (step, .direct, factors.singularCount)
  else if slopes.cols < slopes.rows then do
    let factors ← factors? (← gram? slopes) pivotThreshold
    let pulled ← transposeMulVec? slopes target
    let step ← solve? factors pulled
    return (step, .normalEquations, factors.singularCount)
  else do
    let factors ← factors? (← outerGram? slopes) pivotThreshold
    let shares ← solve? factors target
    let step ← transposeMulVec? slopes shares
    return (step, .minimumNorm, factors.singularCount)

/-- Factoring and solving. -/
theorem factors?_solve? {β : Type} {m : Matrix α} (h : m.rows = m.cols) (pivotThreshold : α)
    (rest : (Array α → Except Breach (Array α)) → Factors α → Except Breach β) :
    (factors? m pivotThreshold >>= fun f => rest (solve? f) f) =
      (Factors.ofMatrix? m pivotThreshold >>= fun f => rest f.solve? f) := by
  obtain ⟨hfactors, hshaped⟩ := factors?_ok h pivotThreshold
  have hsolve : solve? (Factors.ofMatrix m pivotThreshold) =
      (Factors.ofMatrix m pivotThreshold).solve? := funext fun b => solve?_eq hshaped b
  rw [hfactors, ← factors?_eq, hfactors, ok_bind, ok_bind, hsolve]

theorem solveByShape?_eq (slopes : Matrix α) (target : Array α) (pivotThreshold : α) :
    solveByShape? slopes target pivotThreshold = solveByShape slopes target pivotThreshold := by
  unfold solveByShape? solveByShape
  rw [gram?_eq, outerGram?_eq, ok_bind, ok_bind]
  simp only [transposeMulVec?_eq]
  split
  case isTrue h =>
    exact factors?_solve? h pivotThreshold fun solve f => do
      return (← solve target, Method.direct, f.singularCount)
  case isFalse =>
    split
    · exact factors?_solve? (m := slopes.gram) rfl pivotThreshold fun solve f => do
        let pulled ← slopes.transposeMulVec? target
        return (← solve pulled, Method.normalEquations, f.singularCount)
    · exact factors?_solve? (m := slopes.outerGram) rfl pivotThreshold fun solve f => do
        let shares ← solve target
        return (← slopes.transposeMulVec? shares, Method.minimumNorm, f.singularCount)

/-- The correction for the given slopes and deviations. -/
def correction? (slopes : Matrix α) (deviations : Array α) (pivotThreshold : α) :
    Except Breach (Correction α) :=
  if slopes.rows ≠ deviations.size then .error .sizes
  else do
    let rows ← tellingRows? slopes
    if slopes.cols = 0 ∨ rows.isEmpty then return .none slopes.cols
    else
      let told ← selectRows? slopes rows
      let target ← rows.toList.mapM fun i => do return -(← at? deviations i)
      let (step, method, singularPivots) ← solveByShape? told target.toArray pivotThreshold
      return ⟨Correction.onlyFinite step, method, singularPivots, rows.size⟩

theorem correction?_eq (slopes : Matrix α) (deviations : Array α) (pivotThreshold : α) :
    correction? slopes deviations pivotThreshold =
      Newton.correction? slopes deviations pivotThreshold := by
  unfold correction? Newton.correction?
  split
  case isTrue => rfl
  case isFalse hrows =>
    have hlt : ∀ i ∈ tellingRows slopes, i < slopes.rows := fun i hi => tellingRows_lt hi
    have hselect : slopes.selectRows? (tellingRows slopes) =
        .ok (slopes.selectRows (tellingRows slopes)) :=
      if_pos (Array.all_eq_true'.2 fun i hi => hasRow_of_lt (hlt i hi))
    have htarget : (tellingRows slopes).toList.mapM (fun i => do return -(← at? deviations i)) =
        (.ok ((tellingRows slopes).toList.map fun i => -deviations.getD i 0) :
          Except Breach (List α)) := by
      refine mapM_eq_ok fun i hi => ?_
      have hi := hlt i (Array.mem_toList_iff.1 hi)
      rw [at?_eq (by omega) 0]
      rfl
    rw [tellingRows?_eq, ok_bind]
    dsimp only
    split
    case isTrue => rfl
    case isFalse =>
      rw [selectRows?_eq hlt, hselect, ok_bind, ok_bind, htarget, ok_bind, solveByShape?_eq,
        ← Array.toList_map, Array.toArray_toList]

/-- The lengths that the rows are divided by. -/
def divisors? (slopes : Matrix α) : Except Breach (Array (Option α)) := do
  let lengths ← (List.range slopes.rows).mapM fun i => do return divisor? (← slopes.row? i)
  return lengths.toArray

theorem divisors?_eq (slopes : Matrix α) :
    divisors? slopes = .ok (Array.ofFn fun i : Fin slopes.rows => divisor? (slopes.row i)) := by
  have hlengths : (List.range slopes.rows).mapM (fun i => do return divisor? (← slopes.row? i)) =
      (.ok ((List.range slopes.rows).map fun i => divisor? (slopes.row i)) :
        Except Breach (List (Option α))) := by
    refine mapM_eq_ok fun i hi => ?_
    rw [row?_eq (List.mem_range.1 hi)]
    rfl
  rw [divisors?, hlengths]
  exact congrArg Except.ok (Array.ext (by simp) fun i _ _ => by simp)

/-- Slopes and deviations with every row divided by its length. -/
def balanced? (slopes : Matrix α) (deviations : Array α) :
    Except Breach (Matrix α × Array α) := do
  let lengths ← divisors? slopes
  let rows ← build? slopes.rows slopes.cols fun i j => do
    match ← at? lengths i with
    | some length => return (← slopes.entry? i j) * (1 / length)
    | none => slopes.entry? i j
  let target ← (List.range deviations.size).mapM fun i => do
    match ← at? lengths i with
    | some length => return (← at? deviations i) / length
    | none => at? deviations i
  return (rows, target.toArray)

theorem balanced?_eq (h : slopes.rows = deviations.size) :
    balanced? slopes deviations = .ok (balanced slopes deviations) := by
  rw [balanced?, divisors?_eq, ok_bind, balanced]
  generalize hlengths : (Array.ofFn fun i : Fin slopes.rows => divisor? (slopes.row i)) = lengths
  have hsize : lengths.size = slopes.rows := by rw [← hlengths, Array.size_ofFn]
  rw [build?_eq (g := fun i j => match lengths.getD i .none with
      | some length => slopes.entry i j * (1 / length)
      | .none => slopes.entry i j) fun i hi j hj => ?_, ok_bind,
    mapM_eq_ok (g := fun i => match lengths.getD i .none with
      | some length => deviations.getD i 0 / length
      | .none => deviations.getD i 0) fun i hi => ?_]
  · refine congrArg Except.ok (Prod.ext rfl (Array.ext (by simp) fun i hi _ => ?_))
    have hi : i < deviations.size := by simpa using hi
    have hat : deviations.getD i 0 = deviations[i] := by simp [Array.getD, hi]
    cases hlength : lengths.getD i none <;>
      simp only [List.getElem_toArray, List.getElem_map, List.getElem_range, Array.getElem_mapIdx,
        hat, hlength]
  · have hi := List.mem_range.1 hi
    rw [at?_eq (hsize ▸ h ▸ hi) none, at?_eq hi 0, ok_bind]
    cases lengths.getD i none <;> rfl
  · rw [at?_eq (hsize ▸ hi) none, entry?_eq hi hj, ok_bind]
    cases lengths.getD i none <;> rfl

end Corrections

/-! ## Steps -/

section Steps

variable {L : Linkage α} {c : Settings α} {r : Run α} {t : Trial α}

/-- A run before its first step. -/
def start? (L : Linkage α) (c : Settings α) : Except Breach (Run α) := do
  let point ← initialState? L
  let deviations ← deviations? L point
  let error := norm deviations
  let status :=
    if !Arithmetic.isFinite error then .diverged
    else if error < c.tolerance then .converged
    else if L.size = 0 then .maxIterationsReached
    else .iterating
  return {
    status, stand := ⟨point, deviations⟩, error, best := point, bestError := error
    damping := c.damping, stalled := 0, growing := 0, lastTrialError := error, history := #[] }

theorem start?_eq (h : L.Sound) (c : Settings α) : start? L c = .ok (Run.first L c) := by
  rw [start?, initialState?_eq h, ok_bind,
    deviations?_eq h (Nat.le_of_eq h.regular.size_initialState.symm)]
  rfl

/-- What a run linearises where it stands. -/
def system? (L : Linkage α) (c : Settings α) (r : Run α) : Except Breach (Matrix α × Array α) := do
  let slopes ← slopes? L r.stand.point c.slopeStep
  if c.precondition then balanced? slopes r.stand.deviations
  else return (slopes, r.stand.deviations)

theorem system?_eq (hL : L.Sound) (h : r.Fits L) (c : Settings α) :
    system? L c r = .ok (r.system L c) := by
  have hrows := (L.rows_slopes r.stand.point c.slopeStep).trans h.size_deviations.symm
  rw [system?, slopes?_eq hL (Nat.le_of_eq h.size_point.symm), ok_bind, balanced?_eq hrows,
    Run.system]
  split <;> rfl

/-- The next step: the correction where the run stands, and the damped move. -/
def probe? (L : Linkage α) (c : Settings α) (r : Run α) : Except Breach (Trial α) := do
  let (slopes, deviations) ← system? L c r
  let correction ← correction? slopes deviations c.pivotThreshold
  if correction.isZero then return ⟨correction, none, r.error⟩
  else
    let point := addScaled r.damping correction.step r.stand.point
    let deviations ← deviations? L point
    return ⟨correction, some ⟨point, deviations⟩, norm deviations⟩

theorem probe?_eq (hL : L.Sound) (h : r.Fits L) (c : Settings α) :
    probe? L c r = r.probe? L c := by
  have hslopes : L.slopes? r.stand.point c.slopeStep = .ok (L.slopes r.stand.point c.slopeStep) :=
    if_pos (hL.canRead h.size_point)
  have hdeviations : ∀ step : Array α,
      deviations? L (addScaled r.damping step r.stand.point) =
        L.deviations? (addScaled r.damping step r.stand.point) := by
    intro step
    have hsize : (addScaled r.damping step r.stand.point).size = L.size := by
      rw [size_addScaled, h.size_point]
    rw [deviations?_eq hL (Nat.le_of_eq hsize.symm), hL.deviations?_eq hsize]
  unfold probe? Run.probe?
  rw [system?_eq hL h, hslopes, ok_bind, ok_bind]
  simp only [correction?_eq, hdeviations]
  rfl

/-- The run after a step without improvement. -/
def drift? (c : Settings α) (r : Run α) (t : Trial α) : Except Breach (Run α) := do
  let stalled := { r with
    stalled := ← next? r.stalled
    damping := Arithmetic.max (r.damping * c.dampingShrink) c.minDamping }
  match t.stand? with
  | some stand =>
    if Arithmetic.isFinite t.error then return { stalled with stand, error := t.error }
    else return stalled
  | none => return stalled

theorem drift?_eq (h : r.stalled + 1 < Bounded.wordLimit) (c : Settings α) (t : Trial α) :
    drift? c r t = .ok (r.drift c t) := by
  rw [drift?, next?_eq h, ok_bind, Run.drift]
  cases t.stand? with
  | none => rfl
  | some stand =>
    dsimp only
    split <;> rfl

/-- The run back at its best point. -/
def rollback? (L : Linkage α) (r : Run α) : Except Breach (Run α) := do
  return { r with
    stand := ⟨r.best, ← deviations? L r.best⟩, error := r.bestError, stalled := 0 }

theorem rollback?_eq (hL : L.Sound) (h : r.Fits L) : rollback? L r = .ok (r.rollback L) := by
  rw [rollback?, deviations?_eq hL (Nat.le_of_eq h.size_best.symm)]
  rfl

/-- The run after a trial, not yet back at its best point. -/
def moved? (c : Settings α) (r : Run α) (t : Trial α) : Except Breach (Run α) :=
  if r.improves t then return r.accept c t else drift? c r t

/-- The run after a trial, back at its best point if it is overdue. -/
def placed? (L : Linkage α) (c : Settings α) (moved : Run α) : Except Breach (Run α) :=
  if moved.isOverdue c then rollback? L moved else return moved

/-- The growing errors in a row after a trial. -/
def growing? (c : Settings α) (r : Run α) (t : Trial α) : Except Breach Nat :=
  if r.grows c t then next? r.growing else return 0

/-- The run after a trial. -/
def absorb? (L : Linkage α) (c : Settings α) (r : Run α) (t : Trial α) : Except Breach (Run α) := do
  let iteration ← next? r.history.size
  let moved ← moved? c r t
  let placed ← placed? L c moved
  let growing ← growing? c r t
  return Run.settle c { placed with
    growing
    lastTrialError := t.error
    history := r.history.push {
      iteration
      trialError := t.error
      bestError := placed.bestError
      damping := r.damping
      accepted := r.improves t
      rolledBack := moved.isOverdue c
      method := t.correction.method
      singularPivots := t.correction.singularPivots
      rowsUsed := t.correction.rowsUsed } }

/-- Counters of a run that are no further than its iterations. -/
structure Counts (r : Run α) : Prop where
  stalled_le : r.stalled ≤ r.history.size
  growing_le : r.growing ≤ r.history.size

theorem counts_first (L : Linkage α) (c : Settings α) : Counts (Run.first L c) :=
  ⟨Nat.le_refl 0, Nat.le_refl 0⟩

theorem Counts.absorb (h : Counts r) (L : Linkage α) (c : Settings α) (t : Trial α) :
    Counts (r.absorb L c t) := by
  have hplaced : (r.placed L c t).stalled ≤ r.history.size + 1 :=
    Run.placed_cases (P := fun s => s.stalled ≤ r.history.size + 1) (fun _ => Nat.zero_le _)
      (fun _ _ => by rw [Run.drift_stalled]; exact Nat.succ_le_succ h.stalled_le) fun _ _ => Nat.zero_le _
  refine ⟨by simpa using hplaced, ?_⟩
  rw [Run.absorb_growing, Run.absorb_history, Array.size_push]
  split
  · exact Nat.succ_le_succ h.growing_le
  · exact Nat.zero_le _

theorem absorb?_eq (hL : L.Sound) (h : r.Fits L) (ht : Run.LeadsTo L t) (hcounts : Counts r)
    (hnext : r.history.size + 1 < Bounded.wordLimit) (c : Settings α) :
    absorb? L c r t = .ok (r.absorb L c t) := by
  have hmoved : moved? c r t = .ok (if r.improves t then r.accept c t else r.drift c t) := by
    rw [moved?, drift?_eq (Nat.lt_of_le_of_lt (Nat.succ_le_succ hcounts.stalled_le) hnext)]
    split <;> rfl
  have hfits : (if r.improves t then r.accept c t else r.drift c t).Fits L := by
    split
    · exact h.accept ht c
    · exact h.drift ht c
  have hplaced : placed? L c (if r.improves t then r.accept c t else r.drift c t) =
      .ok (r.placed L c t) := by
    unfold placed? Run.placed
    rw [rollback?_eq hL hfits]
    generalize (if r.improves t then r.accept c t else r.drift c t) = moved
    dsimp only
    cases moved.isOverdue c <;> rfl
  have hgrowing : growing? c r t = .ok (if r.grows c t then r.growing + 1 else 0) := by
    rw [growing?, next?_eq (Nat.lt_of_le_of_lt (Nat.succ_le_succ hcounts.growing_le) hnext)]
    split <;> rfl
  rw [absorb?, next?_eq hnext, ok_bind, hmoved, ok_bind, hplaced, ok_bind, hgrowing]
  rfl

/-- The run after at most `n` more iterations, and over. -/
def iterate? (L : Linkage α) (c : Settings α) : Nat → Run α → Except Breach (Run α)
  | 0, r => .ok (if r.status = .iterating then { r with status := .maxIterationsReached } else r)
  | n + 1, r =>
    if r.status = .iterating then do
      let trial ← probe? L c r
      iterate? L c n (← absorb? L c r trial)
    else .ok r

theorem iterate?_eq (hL : L.Sound) (h : r.Fits L) (hcounts : Counts r) {n : Nat}
    (hn : r.history.size + n < Bounded.wordLimit) (c : Settings α) :
    iterate? L c n r = r.iterate? L c n := by
  induction n generalizing r with
  | zero => rfl
  | succ n ih =>
    unfold iterate? Run.iterate?
    split
    case isTrue =>
      obtain ⟨t, ht, hleads⟩ := Run.probe?_total hL h c
      rw [probe?_eq hL h, ht, ok_bind, ok_bind,
        absorb?_eq hL h hleads hcounts (by omega), ok_bind]
      exact ih (h.absorb hleads c) (hcounts.absorb L c t) (by simp; omega)
    case isFalse => rfl

end Steps

/-! ## Solves -/

section Solves

variable [Readout α] {L : Linkage α} {c : Settings α} {r : Run α}

/-- The outcome of a run that is over. -/
def outcome? (L : Linkage α) (c : Settings α) (initialError : α) (r : Run α) :
    Except Breach (Outcome α) := do
  let deviations ← deviations? L r.best
  let poses ← poses? L r.best
  let error := norm deviations
  let iterations := r.history.size
  return {
    positions := IdMap.ofList (poses.map fun x => (x.1, x.2.position))
    orientations := IdMap.ofList (poses.map fun x => (x.1, x.2.orientation))
    deviations
    reports := List.zipWith (ConstraintReport.of c) L.constraints deviations.toList
    iterations
    converged := r.status = .converged
    status := r.status
    error
    initialError
    message := summary L r.status iterations error
    history := r.history }

theorem outcome?_eq (hL : L.Sound) (h : r.Fits L) (c : Settings α) (initialError : α) :
    outcome? L c initialError r = .ok (r.outcome L c initialError) := by
  have hsize := Nat.le_of_eq h.size_best.symm
  rw [outcome?, deviations?_eq hL hsize, ok_bind, poses?_eq hL hsize]
  rfl

/-- The outcome of solving a linkage. -/
def solveLinkage? (L : Linkage α) (c : Settings α) : Except Breach (Outcome α) := do
  let first ← start? L c
  let last ← iterate? L c c.maxIterations first
  outcome? L c first.error last

theorem solveLinkage?_eq (hL : L.Sound) (hsteps : c.maxIterations < Bounded.wordLimit) :
    solveLinkage? L c = Newton.solveLinkage? L c := by
  have hfits := Run.fits_first hL c
  obtain ⟨last, hlast, hfits'⟩ := Run.iterate?_total hL c c.maxIterations hfits
  rw [solveLinkage?, Newton.solveLinkage?, start?_eq hL, Run.start?_total hL, ok_bind, ok_bind,
    iterate?_eq hL hfits (counts_first L c) (by simpa [Run.first] using hsteps), hlast, ok_bind,
    ok_bind]
  exact outcome?_eq hL hfits' c _

/-- Moves the components of an assembly so that its constraints hold, starting
from the given positions. -/
def solve (c : Settings α) (a : Assembly α) (initial : PositionMap α) :
    Except (Failure α) (Outcome α) := do
  c.check.mapError .rejected
  let L ← link? a initial c.turning
  Failure.ofBreach (solveLinkage? L c)

/-- Checking every index, size and counter changes nothing: a solve answers an
outcome or an error of the input. The number of iterations has to be a word, and
the components an array. -/
theorem solve_guarded (c : Settings α) (a : Assembly α) (initial : PositionMap α)
    (hsteps : c.maxIterations < Bounded.wordLimit)
    (hparts : a.components.length < Bounded.arrayLimit) :
    solve c a initial = Newton.solve c a initial ∧
      ((∃ o, solve c a initial = .ok o) ∨ ∃ e, solve c a initial = .error (.rejected e)) := by
  have hwords : 6 * a.components.length < Bounded.wordLimit := by
    unfold Bounded.wordLimit
    unfold Bounded.arrayLimit at hparts
    omega
  have heq : solve c a initial = Newton.solve c a initial := by
    unfold solve Newton.solve
    rw [link?_eq hwords]
    cases hL : a.link? initial c.turning with
    | error e => rfl
    | ok L =>
      obtain ⟨hwell, -, rfl⟩ := Assembly.link?_eq_ok_iff.1 hL
      simp only [ok_bind, solveLinkage?_eq (Linkage.sound_linkage hwell initial c.turning) hsteps]
  exact ⟨heq, heq ▸ solve_total c a initial⟩

end Solves

/-- A leg at a distance from its base that is also to be at a distance from itself. -/
def easel : Assembly Float where
  metadata := ⟨⟨0⟩, "easel", 1, ⟨⟨2000, 1, 1⟩, 0, 0⟩, ⟨⟨2000, 1, 1⟩, 0, 0⟩⟩
  components := [
    ⟨"base", ⟨0, 0, 0⟩, .identity, .empty⟩,
    ⟨"leg", ⟨3, 4, 0⟩, .identity, .empty⟩]
  constraints := [
    ⟨"ground", .fixed "base", none, 1⟩,
    ⟨"reach", .pair (.distance 10) "base" "leg", none, 1⟩,
    ⟨"loop", .pair (.distance 1) "leg" "leg", none, 1⟩]

/-- A solve on doubles that goes through its iterations with every index checked. -/
theorem solve_guarded_easel : ∃ o,
    solve { Settings.standard with turning := true, maxIterations := 2 } easel .empty = .ok o ∧
      o.iterations = 2 := by
  have hsolve : (Newton.solve { Settings.standard with turning := true, maxIterations := 2 }
      easel .empty).toOption.any (fun o => decide (o.iterations = 2)) = true := by
    decide +kernel
  obtain ⟨o, ho, hiterations⟩ := exists_eq_ok hsolve
  have hguarded := solve_guarded { Settings.standard with turning := true, maxIterations := 2 }
    easel .empty (by decide) (by decide)
  exact ⟨o, hguarded.1.trans ho, of_decide_eq_true hiterations⟩

end Joinery.Guarded
