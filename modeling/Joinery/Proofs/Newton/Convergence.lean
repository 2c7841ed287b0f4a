import Mathlib
import Joinery.Proofs.Newton.Best
import Joinery.Proofs.Scalar.Exact
/-!
# Convergence is told as it is

A run looks at the error where it stands, its outcome describes the best point.
The two agree on what has converged: the best error falls below the tolerance
only in a step that also ends there. On exact numbers no deviation is larger
than the error, so what has converged leaves unsatisfied only constraints that
ask for more than the settings do.
-/

namespace Joinery.Newton

open Joinery.Dense Joinery.Arithmetic LawfulOrder

namespace Run

variable {α : Type} [Scalar α] {L : Linkage α} {c : Settings α} {r : Run α} {t : Trial α}

/-- A run has converged exactly when its best error is below the tolerance. -/
def Truthful (c : Settings α) (r : Run α) : Prop :=
  r.status = .converged ↔ r.bestError < c.tolerance

theorem status_placed : (r.placed L c t).status = r.status := by
  refine placed_cases (P := fun p => p.status = r.status) ?_ ?_ ?_
  · intro _
    rfl
  · intro _ _
    exact drift_status c r t
  · intro _ _
    exact drift_status c r t

/-- A step of a run under way ends in convergence exactly when the error is below
the tolerance where the run then stands. -/
theorem status_absorb (hr : r.status = .iterating) :
    (r.absorb L c t).status = .converged ↔ (r.absorb L c t).error < c.tolerance := by
  have hstatus : (r.counted L c t).status = .iterating := status_placed.trans hr
  rw [absorb_error, absorb_eq]
  unfold settle
  split
  case isTrue h => exact iff_of_true rfl h
  case isFalse h =>
    refine iff_of_false ?_ h
    split
    · simp
    · simp [hstatus]

/-- Where the best error is below the tolerance after a step and was not before,
the run stands at its best point. -/
theorem error_placed (h : (r.placed L c t).bestError < c.tolerance)
    (hr : ¬r.bestError < c.tolerance) : (r.placed L c t).error < c.tolerance := by
  have hbest := r.bestError_placed (L := L) (c := c) t
  cases himp : r.improves t with
  | false =>
    rw [hbest, himp] at h
    exact absurd h hr
  | true =>
    revert h
    refine placed_cases (P := fun p => p.bestError < c.tolerance → p.error < c.tolerance) ?_ ?_ ?_
    · intro _ h
      exact h
    · intro hnot
      rw [himp] at hnot
      cases hnot
    · intro hnot
      rw [himp] at hnot
      cases hnot

theorem status_first : (first L c).status = .converged ↔
    isFinite (first L c).error = true ∧ (first L c).error < c.tolerance := by
  unfold first
  dsimp only
  split
  case isTrue h => simp at h; simp [h]
  case isFalse h =>
    have hf : isFinite (norm (L.deviations L.initialState)) = true := by simpa using h
    split
    case isTrue hlt => exact iff_of_true rfl ⟨hf, hlt⟩
    case isFalse hlt =>
      refine iff_of_false ?_ fun h => hlt h.2
      split <;> simp

theorem status_first_of_not_isFinite (h : isFinite (first L c).error = false) :
    (first L c).status = .diverged := by
  have hf : isFinite (norm (L.deviations L.initialState)) = false := h
  simp [first, hf]

variable [LawfulOrder α]

/-- A step keeps a run truthful: what it improves it also stands at. -/
theorem Truthful.absorb (h : r.Truthful c) (htracked : (r.absorb L c t).Tracked L)
    (hr : r.status = .iterating) : (r.absorb L c t).Truthful c := by
  have hbefore : ¬r.bestError < c.tolerance := fun hlt => by
    have := h.2 hlt
    rw [hr] at this
    cases this
  unfold Truthful
  rw [status_absorb hr]
  constructor
  · intro hlt
    exact lt_of_le_of_lt htracked.best_le hlt
  · intro hlt
    rw [absorb_bestError] at hlt
    rw [absorb_error]
    exact error_placed hlt hbefore

/-- A run that is over keeps track and is truthful. -/
theorem iterate?_truthful {n : Nat} {last : Run α}
    (h : (first L c).iterate? L c n = .ok last) (hf : isFinite (first L c).error = true) :
    last.Tracked L ∧ last.Truthful c := by
  refine iterate?_induction (P := fun r => r.Tracked L ∧ r.Truthful c) ?_ ?_ h ?_
  · rintro r t ⟨htracked, htruthful⟩ hr ht
    have := htracked.absorb (c := c) ht
    exact ⟨this, htruthful.absorb this hr⟩
  · rintro r ⟨htracked, htruthful⟩ hr
    refine ⟨{ htracked with }, iff_of_false (by simp) fun hlt => ?_⟩
    have := htruthful.2 hlt
    rw [hr] at this
    cases this
  · exact ⟨tracked_first hf, status_first.trans (and_iff_right hf)⟩

end Run

variable {α : Type} [Scalar α]

/-- A length that is not finite is below no tolerance. -/
theorem not_norm_lt [LawfulRoot α] {v : Array α} {tolerance : α} (h : isFinite (norm v) = false)
    (ht : isFinite tolerance = true) : ¬norm v < tolerance := by
  intro hlt
  have hnonneg : 0 ≤ norm v :=
    le_of_not_lt (isNaN_eq_false_iff.2 (refl_left (le_of_lt hlt)))
      (isNaN_of_isFinite LawfulArithmetic.isFinite_zero) (LawfulRoot.sqrt_not_neg _)
  have := LawfulArithmetic.isFinite_between LawfulArithmetic.isFinite_zero ht hnonneg (le_of_lt hlt)
  rw [h] at this
  cases this

section Outcome

variable [Readout α] [LawfulRoot α] {c : Settings α} {a : Assembly α} {initial : PositionMap α}
  {o : Outcome α}

theorem status_eq_converged_iff (h : solve c a initial = .ok o) :
    o.status = .converged ↔ o.error < c.tolerance := by
  have hrange := (solve_eq_ok_iff.1 h).1
  obtain ⟨last, hlast, rfl⟩ := solve_eq_ok h
  cases hf : isFinite (Run.first (a.linkage initial c.turning) c).error with
  | true =>
    obtain ⟨htracked, htruthful⟩ := Run.iterate?_truthful hlast hf
    rw [htracked.error_outcome]
    exact htruthful
  | false =>
    -- the run is over at its start
    have hstatus := Run.status_first_of_not_isFinite hf
    cases Run.iterate?_of_over hlast (by simp [hstatus])
    exact iff_of_false (by simp [Run.outcome, hstatus]) (not_norm_lt hf hrange.tolerance.1)

omit [LawfulRoot α] in
theorem converged_eq (h : solve c a initial = .ok o) :
    o.converged = true ↔ o.status = .converged := by
  obtain ⟨last, -, rfl⟩ := solve_eq_ok h
  exact decide_eq_true_iff

omit [LawfulRoot α] in
/-- The reports of an outcome go through the constraints and the deviations side
by side, and their length is the error. -/
theorem reports_eq (h : solve c a initial = .ok o) :
    o.error = norm o.deviations ∧ o.deviations.size = a.constraints.length ∧
      o.reports = List.zipWith
        (fun con d => ⟨con.id, d, decide (abs d ≤ con.tolerance.getD c.tolerance)⟩)
        a.constraints o.deviations.toList := by
  obtain ⟨last, -, rfl⟩ := solve_eq_ok h
  refine ⟨rfl, by simp [Run.outcome, Assembly.linkage], ?_⟩
  show List.zipWith _ (List.map _ _) _ = _
  rw [List.zipWith_map_left]
  rfl

end Outcome

/-! ## Exact numbers -/

section Exact

variable [Readout ℝ] {c : Settings ℝ} {a : Assembly ℝ} {initial : PositionMap ℝ} {o : Outcome ℝ}

/-- No deviation of what has converged reaches the tolerance. -/
theorem abs_lt_of_converged (h : solve c a initial = .ok o) (hconverged : o.converged = true) :
    ∀ d ∈ o.deviations.toList, |d| < c.tolerance := by
  have hlt := (status_eq_converged_iff h).1 ((converged_eq h).1 hconverged)
  intro d hd
  rw [(reports_eq h).1] at hlt
  exact LawfulOrder.lt_of_le_of_lt (Exact.abs_le_norm hd) hlt

/-- What has converged satisfies every constraint without a tolerance of its own. -/
theorem satisfied_of_converged (h : solve c a initial = .ok o) (hconverged : o.converged = true)
    {i : Nat} {con : Constraint String ℝ} (hi : a.constraints[i]? = some con)
    (hnone : con.tolerance = none) :
    ∃ report : ConstraintReport ℝ, o.reports[i]? = some report ∧ report.id = con.id ∧
      report.satisfied = true := by
  obtain ⟨-, hsize, hreports⟩ := reports_eq h
  have hd : i < o.deviations.toList.length := by
    rw [Array.length_toList, hsize]
    exact (List.getElem?_eq_some_iff.1 hi).1
  rw [hreports]
  refine ⟨_, List.getElem?_zipWith_eq_some.2
    ⟨con, _, hi, List.getElem?_eq_getElem hd, rfl⟩, rfl, ?_⟩
  rw [decide_eq_true_iff, hnone]
  exact LawfulOrder.le_of_lt (abs_lt_of_converged h hconverged _ (List.getElem_mem hd))

/-- What has converged leaves unsatisfied only constraints that ask for more than
the settings do. -/
theorem tolerance_lt_of_unsatisfied (h : solve c a initial = .ok o)
    (hconverged : o.converged = true) {id : String} (hid : id ∈ o.unsatisfied) :
    ∃ con ∈ a.constraints, con.id = id ∧
      ∃ tolerance, con.tolerance = some tolerance ∧ tolerance < c.tolerance := by
  obtain ⟨report, hmem, rfl⟩ := List.mem_map.1 hid
  obtain ⟨hmem, hunsatisfied⟩ := List.mem_filter.1 hmem
  rw [(reports_eq h).2.2] at hmem
  obtain ⟨i, hi⟩ := List.mem_iff_getElem?.1 hmem
  obtain ⟨con, d, hcon, hd, rfl⟩ := List.getElem?_zipWith_eq_some.1 hi
  refine ⟨con, List.mem_of_getElem? hcon, rfl, ?_⟩
  have hlarge : con.tolerance.getD c.tolerance < |d| := by
    rw [Bool.not_eq_true', decide_eq_false_iff_not] at hunsatisfied
    exact not_le.1 hunsatisfied
  have hsmall := abs_lt_of_converged h hconverged d (List.mem_of_getElem? hd)
  cases htolerance : con.tolerance with
  | none =>
    -- without a tolerance of its own it would be held to that of the settings
    rw [htolerance] at hlarge
    exact absurd hsmall (lt_asymm hlarge)
  | some tolerance =>
    rw [htolerance] at hlarge
    exact ⟨tolerance, rfl, lt_trans hlarge hsmall⟩

end Exact

/-- Whether a solve has converged is told by its error, in both directions, and
by its status. On exact numbers what has converged satisfies every constraint
without a tolerance of its own. -/
theorem convergence_truthful :
    (∀ (α : Type) [Scalar α] [Readout α] [LawfulRoot α] (c : Settings α) (a : Assembly α)
        (initial : PositionMap α) (o : Outcome α), solve c a initial = .ok o →
      (o.converged = true ↔ o.error < c.tolerance) ∧
        (o.converged = true ↔ o.status = .converged)) ∧
    ∀ [Readout ℝ] (c : Settings ℝ) (a : Assembly ℝ) (initial : PositionMap ℝ) (o : Outcome ℝ),
      solve c a initial = .ok o → o.converged = true →
        (∀ (i : Nat) (con : Constraint String ℝ), a.constraints[i]? = some con →
          con.tolerance = none → ∃ report : ConstraintReport ℝ, o.reports[i]? = some report ∧
            report.id = con.id ∧ report.satisfied = true) ∧
        ∀ id ∈ o.unsatisfied, ∃ con ∈ a.constraints, con.id = id ∧
          ∃ tolerance, con.tolerance = some tolerance ∧ tolerance < c.tolerance := by
  constructor
  · intro α _ _ _ c a initial o h
    exact ⟨(converged_eq h).trans (status_eq_converged_iff h), converged_eq h⟩
  · intro _ c a initial o h hconverged
    constructor
    · intro i con hi hnone
      exact satisfied_of_converged h hconverged hi hnone
    · intro id hid
      exact tolerance_lt_of_unsatisfied h hconverged hid

/-- An arm that reaches its distance at once. -/
def reach : Assembly Float where
  metadata := ⟨⟨0⟩, "reach", 1, ⟨⟨2000, 1, 1⟩, 0, 0⟩, ⟨⟨2000, 1, 1⟩, 0, 0⟩⟩
  components := [⟨"base", ⟨0, 0, 0⟩, .identity, .empty⟩, ⟨"arm", ⟨3, 4, 0⟩, .identity, .empty⟩]
  constraints := [
    ⟨"ground", .fixed "base", none, 1⟩,
    ⟨"reach", .pair (.distance 10) "base" "arm", none, 1⟩]

/-- Two components in one place that should be half a unit apart, once by the
tolerance of the settings and once by a smaller one. -/
noncomputable def slack : Assembly ℝ where
  metadata := ⟨⟨0⟩, "slack", 1, ⟨⟨2000, 1, 1⟩, 0, 0⟩, ⟨⟨2000, 1, 1⟩, 0, 0⟩⟩
  components := [⟨"base", .origin, .identity, .empty⟩, ⟨"arm", .origin, .identity, .empty⟩]
  constraints := [
    ⟨"loose", .pair (.distance (1 / 2)) "base" "arm", none, 1⟩,
    ⟨"strict", .pair (.distance (1 / 2)) "base" "arm", some (1 / 4), 1⟩]

/-- Settings that are content with an error below one. -/
noncomputable def coarse : Settings ℝ where
  tolerance := 1
  maxIterations := 1
  damping := 1
  rollbackThreshold := 1
  dampingGrowth := 1
  dampingShrink := 1 / 2
  minDamping := 1 / 2
  divergenceWindow := 1
  slopeStep := 1
  pivotThreshold := 1
  precondition := true
  turning := false

theorem inRange_coarse : coarse.InRange := by
  constructor <;> simp [coarse] <;> norm_num

theorem wellFormed_slack : slack.WellFormed := by
  constructor <;> simp [slack, Component.radiusProblem?, Component.radius, IdMap.get?, IdMap.empty,
    Constraint.defect?, Constraint.defect?.ofBond, Bond.ends, Relation.defect?]
  norm_num

noncomputable def slackLinkage : Linkage ℝ := slack.linkage .empty false

theorem deviations_slack :
    slackLinkage.deviations slackLinkage.initialState = #[-1 / 2, -1 / 2] := by
  have hlength : Body.separation (slackLinkage.body slackLinkage.initialState 0)
      (slackLinkage.body slackLinkage.initialState 1) = 0 := by
    show Real.sqrt ((0 - 0) * (0 - 0) + (0 - 0) * (0 - 0) + (0 - 0) * (0 - 0)) = 0
    norm_num
  have hdeviation : ∀ id tolerance, slackLinkage.deviation slackLinkage.initialState
      ⟨id, .pair (.distance (1 / 2)) 0 1, tolerance, 1⟩ = -1 / 2 := by
    intro id tolerance
    show 1 * (Body.separation _ _ - 1 / 2) = (-1 / 2 : ℝ)
    rw [hlength]
    show (1 : ℝ) * (0 - 1 / 2) = -1 / 2
    norm_num
  show #[slackLinkage.deviation _ _, slackLinkage.deviation _ _] = _
  exact congrArg₂ (fun x y => #[x, y]) (hdeviation _ _) (hdeviation _ _)

theorem status_slack : (Run.first slackLinkage coarse).status = .converged := by
  refine Run.status_first.2 ⟨rfl, ?_⟩
  show norm (slackLinkage.deviations slackLinkage.initialState) < 1
  rw [deviations_slack, Exact.norm_eq]
  refine (Real.sqrt_lt' one_pos).2 ?_
  norm_num

/-- The slack assembly has converged at its start. -/
theorem solve_slack [Readout ℝ] : solve coarse slack .empty =
    .ok ((Run.first slackLinkage coarse).outcome slackLinkage coarse
      (Run.first slackLinkage coarse).error) := by
  refine solve_eq_ok_iff.2 ⟨inRange_coarse, wellFormed_slack, fun _ _ => ⟨rfl, rfl, rfl⟩, ?_⟩
  refine solveLinkage?_of_over (by decide +kernel) fun hiterating => ?_
  cases status_slack.symm.trans hiterating

/-- A solve on doubles that converges in steps, and an exact one that has
converged at its start and leaves the strict constraint unsatisfied. -/
theorem convergence_truthful_slack :
    (∃ o, solve .standard reach .empty = .ok o ∧ 0 < o.iterations ∧ o.status = .converged ∧
      o.converged = true ∧ o.error < (Settings.standard : Settings Float).tolerance) ∧
    ∀ [Readout ℝ], ∃ o, solve coarse slack .empty = .ok o ∧
      (∃ report, o.reports[0]? = some report ∧ report.id = "loose" ∧ report.satisfied = true) ∧
      ∀ id ∈ o.unsatisfied, ∃ con ∈ slack.constraints, con.id = id ∧
        ∃ tolerance, con.tolerance = some tolerance ∧ tolerance < 1 := by
  constructor
  · have hsolve : (solve .standard reach .empty).toOption.any (fun o =>
        decide (0 < o.iterations ∧ o.status = .converged)) = true := by
      decide +kernel
    obtain ⟨o, ho, hsolve⟩ := exists_eq_ok hsolve
    obtain ⟨hsteps, hstatus⟩ := of_decide_eq_true hsolve
    obtain ⟨herror, hconverged⟩ := convergence_truthful.1 Float .standard reach .empty o ho
    exact ⟨o, ho, hsteps, hstatus, hconverged.2 hstatus, herror.1 (hconverged.2 hstatus)⟩
  · intro _
    obtain ⟨hsatisfied, hunsatisfied⟩ :=
      convergence_truthful.2 coarse slack .empty _ solve_slack (decide_eq_true status_slack)
    exact ⟨_, solve_slack, hsatisfied 0 _ rfl rfl, hunsatisfied⟩

end Joinery.Newton
