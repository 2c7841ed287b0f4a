import Joinery.Proofs.Linkage.Layout
import Joinery.Proofs.Newton.Correction
import Joinery.Proofs.Newton.Steps
/-!
# Solves have a result

A solve can stop at a broken precondition in each of its steps. None of them does:
a run of a sound linkage keeps a state of the size the layout asks for and one
deviation for each constraint (`Run.Fits`), so the slopes can be taken, the
systems to be solved are square, and the next state can be read again. What is
left are the errors of the input.
-/

namespace Joinery.Newton

open Joinery.Dense

variable {α : Type} [Scalar α]

/-! ## Corrections -/

section Corrections

variable {slopes : Matrix α} {deviations target : Array α}

/-- The method for a system with so many rows and unknowns. -/
def Method.ofShape (rows unknowns : Nat) : Method :=
  if rows = unknowns then .direct
  else if unknowns < rows then .normalEquations
  else .minimumNorm

section Shapes

variable (h : target.size = slopes.rows) (pivotThreshold : α)
include h

/-- With as many rows as unknowns the rows themselves are factored. -/
theorem solveByShape_direct (hsquare : slopes.rows = slopes.cols) :
    solveByShape slopes target pivotThreshold =
      .ok ((Factors.ofMatrix slopes pivotThreshold).solve target, .direct,
        (Factors.ofMatrix slopes pivotThreshold).singularCount) := by
  have hfactors : Factors.ofMatrix? slopes pivotThreshold = .ok (.ofMatrix slopes pivotThreshold) :=
    if_pos hsquare
  have hsolve : (Factors.ofMatrix slopes pivotThreshold).solve? target =
      .ok ((Factors.ofMatrix slopes pivotThreshold).solve target) :=
    if_pos (by rw [h, Factors.rows_ofMatrix])
  unfold solveByShape
  rw [if_pos hsquare, hfactors, ok_bind, hsolve, ok_bind]
  rfl

/-- With more rows than unknowns the products of the columns are. -/
theorem solveByShape_tall (htall : slopes.cols < slopes.rows) :
    solveByShape slopes target pivotThreshold =
      .ok ((Factors.ofMatrix slopes.gram pivotThreshold).solve (slopes.transposeMulVec target),
        .normalEquations, (Factors.ofMatrix slopes.gram pivotThreshold).singularCount) := by
  have hfactors : Factors.ofMatrix? slopes.gram pivotThreshold =
      .ok (.ofMatrix slopes.gram pivotThreshold) := if_pos rfl
  have hpull : slopes.transposeMulVec? target = .ok (slopes.transposeMulVec target) := if_pos h
  have hsolve : (Factors.ofMatrix slopes.gram pivotThreshold).solve?
      (slopes.transposeMulVec target) = .ok ((Factors.ofMatrix slopes.gram pivotThreshold).solve
        (slopes.transposeMulVec target)) :=
    if_pos (by rw [Matrix.size_transposeMulVec, Factors.rows_ofMatrix]; rfl)
  unfold solveByShape
  rw [if_neg (Nat.ne_of_gt htall), if_pos htall, hfactors, ok_bind, hpull, ok_bind, hsolve, ok_bind]
  rfl

/-- With fewer rows than unknowns the products of the rows are. -/
theorem solveByShape_wide (hwide : slopes.rows < slopes.cols) :
    solveByShape slopes target pivotThreshold =
      .ok (slopes.transposeMulVec ((Factors.ofMatrix slopes.outerGram pivotThreshold).solve target),
        .minimumNorm, (Factors.ofMatrix slopes.outerGram pivotThreshold).singularCount) := by
  have hfactors : Factors.ofMatrix? slopes.outerGram pivotThreshold =
      .ok (.ofMatrix slopes.outerGram pivotThreshold) := if_pos rfl
  have hsolve : (Factors.ofMatrix slopes.outerGram pivotThreshold).solve? target =
      .ok ((Factors.ofMatrix slopes.outerGram pivotThreshold).solve target) :=
    if_pos (by rw [h, Factors.rows_ofMatrix]; rfl)
  have hpull : ∀ v : Array α, v.size = slopes.rows →
      slopes.transposeMulVec? v = .ok (slopes.transposeMulVec v) := fun v hv => if_pos hv
  unfold solveByShape
  rw [if_neg (Nat.ne_of_lt hwide), if_neg (Nat.lt_asymm hwide), hfactors, ok_bind, hsolve, ok_bind,
    hpull _ (by rw [Factors.size_solve, Factors.rows_ofMatrix]; rfl), ok_bind]
  rfl

/-- Systems are solved whatever their shape, for a value for every unknown. -/
theorem solveByShape_total :
    ∃ step singular,
      solveByShape slopes target pivotThreshold =
        .ok (step, .ofShape slopes.rows slopes.cols, singular) ∧
      step.size = slopes.cols := by
  unfold Method.ofShape
  rcases Nat.lt_trichotomy slopes.cols slopes.rows with htall | hsquare | hwide
  · rw [if_neg (Nat.ne_of_gt htall), if_pos htall, solveByShape_tall h pivotThreshold htall]
    exact ⟨_, _, rfl, by rw [Factors.size_solve, Factors.rows_ofMatrix]; rfl⟩
  · rw [if_pos hsquare.symm, solveByShape_direct h pivotThreshold hsquare.symm]
    exact ⟨_, _, rfl, by rw [Factors.size_solve, Factors.rows_ofMatrix, hsquare]⟩
  · rw [if_neg (Nat.ne_of_lt hwide), if_neg (Nat.lt_asymm hwide), solveByShape_wide h pivotThreshold hwide]
    exact ⟨_, _, rfl, Matrix.size_transposeMulVec slopes _⟩

end Shapes

theorem size_onlyFinite (step : Array α) : (Correction.onlyFinite step).size = step.size := by
  unfold Correction.onlyFinite
  split <;> simp

/-- A correction has a number for every unknown. -/
theorem correction?_total (h : slopes.rows = deviations.size) (pivotThreshold : α) :
    ∃ k, correction? slopes deviations pivotThreshold = .ok k ∧ k.step.size = slopes.cols := by
  unfold correction?
  rw [if_neg (not_not_intro h)]
  dsimp only
  split
  case isTrue => exact ⟨_, rfl, by simp [Correction.none]⟩
  case isFalse =>
    have htarget : ((tellingRows slopes).map fun i => -deviations.getD i 0).size =
        (slopes.selectRows (tellingRows slopes)).rows := Array.size_map
    obtain ⟨step, singular, hstep, hsize⟩ := solveByShape_total htarget pivotThreshold
    refine ⟨⟨Correction.onlyFinite step, .ofShape (tellingRows slopes).size slopes.cols, singular,
      (tellingRows slopes).size⟩, ?_, ?_⟩
    · rw [selectRows?_tellingRows, ok_bind, hstep]
      rfl
    · rw [size_onlyFinite, hsize, Matrix.cols_selectRows]

end Corrections

/-! ## Runs -/

variable {L : Linkage α} {c : Settings α} {r : Run α} {t : Trial α}

namespace Run

/-- A run whose points are states of its linkage. -/
structure Fits (L : Linkage α) (r : Run α) : Prop where
  size_point : r.stand.point.size = L.size
  size_deviations : r.stand.deviations.size = L.constraints.length
  size_best : r.best.size = L.size

theorem fits_first (h : L.Sound) (c : Settings α) : (first L c).Fits L :=
  have hsize := h.regular.size_initialState
  ⟨hsize, L.size_deviations _, hsize⟩

theorem start?_total (h : L.Sound) (c : Settings α) : start? L c = .ok (first L c) := by
  unfold start?
  dsimp only
  rw [h.deviations?_eq h.regular.size_initialState]
  rfl

/-- The system of a run has a row for every deviation and a column for every
variable. -/
theorem Fits.system (h : r.Fits L) (c : Settings α) :
    (r.system L c).1.rows = (r.system L c).2.size ∧ (r.system L c).1.cols = L.size := by
  have hrows := (L.rows_slopes r.stand.point c.slopeStep).trans h.size_deviations.symm
  unfold Run.system
  dsimp only
  split
  · exact ⟨by rw [balanced, Array.size_mapIdx]; exact hrows, rfl⟩
  · exact ⟨hrows, rfl⟩

/-- A trial that leads to a state of the linkage, if anywhere. -/
def LeadsTo (L : Linkage α) (t : Trial α) : Prop :=
  ∀ stand, t.stand? = some stand →
    stand.point.size = L.size ∧ stand.deviations.size = L.constraints.length

theorem probe?_total (hL : L.Sound) (h : r.Fits L) (c : Settings α) :
    ∃ t, r.probe? L c = .ok t ∧ LeadsTo L t := by
  obtain ⟨hrows, hcols⟩ := h.system c
  obtain ⟨k, hk, hsize⟩ := correction?_total hrows c.pivotThreshold
  have hslopes : L.slopes? r.stand.point c.slopeStep = .ok (L.slopes r.stand.point c.slopeStep) :=
    if_pos (hL.canRead h.size_point)
  have hpoint : (addScaled r.damping k.step r.stand.point).size = L.size := by
    rw [size_addScaled, h.size_point]
  unfold probe?
  rw [hslopes, ok_bind]
  show ∃ t, (correction? (r.system L c).1 (r.system L c).2 c.pivotThreshold >>= _) = _ ∧ _
  rw [hk, ok_bind]
  split
  case isTrue => exact ⟨_, rfl, fun _ hs => by cases hs⟩
  case isFalse =>
    dsimp only
    rw [hL.deviations?_eq hpoint]
    refine ⟨_, rfl, fun _ hs => ?_⟩
    cases hs
    exact ⟨hpoint, L.size_deviations _⟩

theorem leadsTo_of_probe? (hL : L.Sound) (h : r.Fits L) (ht : r.probe? L c = .ok t) :
    LeadsTo L t := by
  obtain ⟨_, ht', hleads⟩ := probe?_total hL h c
  cases ht.symm.trans ht'
  exact hleads

theorem Fits.accept (h : r.Fits L) (ht : LeadsTo L t) (c : Settings α) : (r.accept c t).Fits L := by
  cases hs : t.stand? with
  | none =>
    exact ⟨by simpa [Run.accept, hs] using h.size_point,
      by simpa [Run.accept, hs] using h.size_deviations,
      by simpa [Run.accept, hs] using h.size_best⟩
  | some stand =>
    obtain ⟨hpoint, hdeviations⟩ := ht stand hs
    exact ⟨by simpa [Run.accept, hs] using hpoint, by simpa [Run.accept, hs] using hdeviations,
      by simpa [Run.accept, hs] using hpoint⟩

theorem Fits.drift (h : r.Fits L) (ht : LeadsTo L t) (c : Settings α) : (r.drift c t).Fits L := by
  refine drift_cases (P := fun s => s.Fits L) ?_ ⟨h.size_point, h.size_deviations, h.size_best⟩
  intro stand hs _
  exact ⟨(ht stand hs).1, (ht stand hs).2, h.size_best⟩

theorem Fits.rollback (h : r.Fits L) : (r.rollback L).Fits L :=
  ⟨h.size_best, L.size_deviations _, h.size_best⟩

theorem Fits.absorb (h : r.Fits L) (ht : LeadsTo L t) (c : Settings α) :
    (r.absorb L c t).Fits L := by
  have hplaced : (r.placed L c t).Fits L :=
    placed_cases (fun _ => h.accept ht c) (fun _ _ => h.drift ht c)
      fun _ _ => (h.drift ht c).rollback
  exact ⟨by simpa using hplaced.size_point, by simpa using hplaced.size_deviations,
    by simpa using hplaced.size_best⟩

/-- A run comes to an end, whatever its number of steps. -/
theorem iterate?_total (hL : L.Sound) (c : Settings α) (n : Nat) (h : r.Fits L) :
    ∃ last, r.iterate? L c n = .ok last ∧ last.Fits L := by
  induction n generalizing r with
  | zero =>
    refine ⟨_, rfl, ?_⟩
    split
    · exact ⟨h.size_point, h.size_deviations, h.size_best⟩
    · exact h
  | succ n ih =>
    unfold iterate?
    split
    case isTrue =>
      obtain ⟨t, ht, hleads⟩ := probe?_total hL h c
      rw [ht, ok_bind]
      exact ih (h.absorb hleads c)
    case isFalse => exact ⟨r, rfl, h⟩

end Run

/-! ## Solves -/

theorem solveLinkage?_total [Readout α] (hL : L.Sound) (c : Settings α) :
    ∃ o, solveLinkage? L c = .ok o := by
  obtain ⟨last, hlast, -⟩ := Run.iterate?_total hL c c.maxIterations (Run.fits_first hL c)
  rw [solveLinkage?, Run.start?_total hL, ok_bind, hlast]
  exact ⟨_, rfl⟩

/-- An assembly that has a linkage has a solve, with settings in range. -/
theorem solve_of_linked [Readout α] {a : Assembly α} {initial : PositionMap α}
    (hc : c.check = .ok ()) (hL : a.link? initial c.turning = .ok L) :
    ∃ o, solve c a initial = .ok o := by
  obtain ⟨hwell, -, rfl⟩ := Assembly.link?_eq_ok_iff.1 hL
  obtain ⟨o, ho⟩ := solveLinkage?_total (Linkage.sound_linkage hwell initial c.turning) c
  refine ⟨o, ?_⟩
  unfold solve
  rw [hc, hL]
  show Failure.ofBreach _ = _
  rw [ho]
  rfl

/-- Over numbers that are all finite, a well-formed assembly has a solve. -/
theorem solve_of_finite [Readout α] (hfinite : ∀ x : α, Arithmetic.isFinite x = true)
    {a : Assembly α} (hc : c.check = .ok ()) (hwell : a.WellFormed) (initial : PositionMap α) :
    ∃ o, solve c a initial = .ok o :=
  solve_of_linked hc (Assembly.link?_of_finite hfinite hwell initial c.turning)

/-- An assembly without a linkage has no solve, for the same reason. -/
theorem solve_of_unlinked [Readout α] {a : Assembly α} {initial : PositionMap α} {e : Failure α}
    (hc : c.check = .ok ()) (he : a.link? initial c.turning = .error e) :
    solve c a initial = .error e := by
  unfold solve
  rw [hc, he]
  rfl

/-- The only errors of a linkage are those of the input. -/
theorem link?_total (a : Assembly α) (initial : PositionMap α) (turning : Bool) :
    (∃ L, a.link? initial turning = .ok L) ∨
      ∃ e, a.link? initial turning = .error (.rejected e) := by
  rw [a.link?_eq initial turning]
  split
  case h_1 e _ => exact .inr ⟨e, rfl⟩
  case h_2 =>
    split
    case h_1 => exact .inr ⟨_, rfl⟩
    case h_2 => exact .inl ⟨_, rfl⟩

/-- The only errors of a solve are those of the input. -/
theorem solve_total [Readout α] (c : Settings α) (a : Assembly α) (initial : PositionMap α) :
    (∃ o, solve c a initial = .ok o) ∨ ∃ e, solve c a initial = .error (.rejected e) := by
  cases hc : c.check with
  | error e =>
    refine .inr ⟨e, ?_⟩
    unfold solve
    rw [hc]
    rfl
  | ok _ =>
    rcases link?_total a initial c.turning with ⟨L, hL⟩ | ⟨e, he⟩
    · exact .inl (solve_of_linked hc hL)
    · exact .inr ⟨e, solve_of_unlinked hc he⟩

end Joinery.Newton
