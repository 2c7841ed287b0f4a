import Mathlib
import Joinery.Proofs.Newton.Balance
import Joinery.Proofs.Newton.Gradient
/-!
# Balancing cancels weights

A weight multiplies the slopes of a constraint, in closed form or measured, and its deviation
alike. Dividing a row by its length takes the weight out again, whatever it is, as long as the
row is not so short that it is left alone. So where no row is faint, what a balanced
correction is told has no weights in it (`Linkage.told_eq`), and linkages that differ in
nothing else have the same corrections, with more rows than unknowns as well.
-/

namespace Joinery

open Joinery.Dense Joinery.Newton

/-! ## Equations times a number -/

theorem Dense.getD_scale (v : Array ℝ) (q : ℝ) (j : Nat) :
    (scale v q).getD j 0 = v.getD j 0 * q := by
  by_cases hj : j < v.size <;> simp [scale, Array.getD, hj]

theorem Dense.norm_scale (v : Array ℝ) {q : ℝ} (hq : 0 ≤ q) : norm (scale v q) = q * norm v := by
  have hsquares : ((scale v q).toList.map fun x => x * x).sum =
      q ^ 2 * (v.toList.map fun x => x * x).sum := by
    rw [scale, Array.toList_map, List.map_map, ← List.sum_map_mul_left]
    exact congrArg List.sum (List.map_congr_left fun x _ => by
      show x * q * (x * q) = q ^ 2 * (x * x)
      ring)
  rw [Exact.norm_eq, Exact.norm_eq, hsquares, Real.sqrt_mul (sq_nonneg q), Real.sqrt_sq hq]

namespace Newton.Equation

variable {e : Equation ℝ} {q : ℝ}

/-- An equation times a number. -/
noncomputable def times (q : ℝ) (e : Equation ℝ) : Equation ℝ := ⟨scale e.row q, q * e.deviation⟩

/-- An equation divided by the length of its row, however short that is. -/
noncomputable def unit (e : Equation ℝ) : Equation ℝ :=
  ⟨scale e.row (1 / norm e.row), e.deviation / norm e.row⟩

/-- Whether the row of an equation is not zero. -/
noncomputable def slopes (e : Equation ℝ) : Bool := decide (norm e.row ≠ 0)

/-- The row of an equation is zero, or long enough to be divided by its length. -/
def Bold (e : Equation ℝ) : Prop := norm e.row = 0 ∨ 1e-12 < norm e.row

theorem Bold.tells_eq_slopes (h : e.Bold) : e.tells = e.slopes := by
  rw [tells, slopes, decide_eq_decide]
  rcases h with hzero | hlong
  · rw [hzero]
    norm_num
  · have hlimits : (1e-14 : ℝ) < 1e-12 := by norm_num
    have hpos : (0 : ℝ) < 1e-12 := by norm_num
    exact iff_of_true (hlimits.trans hlong) (hpos.trans hlong).ne'

theorem Bold.balanced_eq_unit (h : e.Bold) (hslopes : e.slopes = true) : e.balanced = e.unit := by
  have hdivisor : divisor? e.row = some (norm e.row) :=
    if_pos (h.resolve_left (of_decide_eq_true hslopes))
  unfold balanced
  rw [hdivisor]
  rfl

theorem slopes_times (hq : 0 < q) (e : Equation ℝ) : (e.times q).slopes = e.slopes := by
  rw [slopes, slopes, times, norm_scale _ hq.le, decide_eq_decide, mul_ne_zero_iff]
  exact and_iff_right hq.ne'

/-- Division by the length takes a factor out. -/
theorem unit_times (hq : 0 < q) (e : Equation ℝ) : (e.times q).unit = e.unit := by
  have hcancel : ∀ x : ℝ, q * x / (q * norm e.row) = x / norm e.row := fun x =>
    mul_div_mul_left x _ hq.ne'
  rw [unit, times, norm_scale _ hq.le, hcancel]
  refine congrArg (Equation.mk · _) ?_
  rw [scale, scale, scale, Array.map_map]
  refine congrArg (Array.map · e.row) (funext fun x => ?_)
  show x * q * (1 / (q * norm e.row)) = x * (1 / norm e.row)
  rw [mul_one_div, mul_comm x, hcancel, mul_one_div]

end Newton.Equation

/-! ## Weights set aside -/

/-- The constraint with a weight of one. -/
noncomputable def Constraint.unweighted {ρ : Type} (con : Constraint ρ ℝ) : Constraint ρ ℝ :=
  { con with weight := 1 }

namespace Linkage

/-- The linkage with all weights one. Linkages that differ in nothing but weights have the
same one. -/
noncomputable def unweighted (L : Linkage ℝ) : Linkage ℝ :=
  { L with constraints := L.constraints.map (·.unweighted) }

/-- What a constraint asks of a step in a state, before it is balanced. -/
noncomputable def plainAt (L : Linkage ℝ) (s : Array ℝ) (step : ℝ) (con : Constraint Nat ℝ) :
    Equation ℝ := ⟨L.slopeRow s step con, L.deviation s con⟩

theorem deviation_eq_weight_mul (L : Linkage ℝ) (s : Array ℝ) (con : Constraint Nat ℝ) :
    L.deviation s con = con.weight * L.deviation s con.unweighted :=
  congrArg (con.weight * ·) (one_mul _).symm

theorem separationRow_eq_scale (L : Linkage ℝ) (s : Array ℝ) (weight : ℝ) (i i' : Nat)
    (apart : Bool) :
    L.separationRow s weight i i' apart = scale (L.separationRow s 1 i i' apart) weight := by
  cases hheading : L.heading? s i i' apart with
  | none =>
    unfold separationRow
    rw [hheading, scale, Array.map_replicate, zero_mul]
  | some unit =>
    rw [separationRow_of_heading hheading, separationRow_of_heading hheading]
    refine ext_getD (n := L.size) (by simp) (by simp) fun j hj => ?_
    rw [getD_scale, getD_pull_mul hj, getD_pull_mul hj, mul_one]

theorem measuredSlope_eq_mul (L : Linkage ℝ) (s : Array ℝ) (step : ℝ) (con : Constraint Nat ℝ)
    (j : Nat) :
    L.measuredSlope s step con j = L.measuredSlope s step con.unweighted j * con.weight := by
  unfold measuredSlope
  dsimp only
  rw [deviation_eq_weight_mul, deviation_eq_weight_mul L _ con, ← mul_sub, mul_div_assoc, mul_comm]

theorem measuredRow_eq_scale (L : Linkage ℝ) (s : Array ℝ) (step : ℝ) (con : Constraint Nat ℝ) :
    L.measuredRow s step con = scale (L.measuredRow s step con.unweighted) con.weight := by
  rw [measuredRow, measuredRow, scale, Array.map_ofFn]
  refine congrArg Array.ofFn (funext fun j => ?_)
  show (if (con.bond.ends.any fun i => L.layout.owns i j) = true then _ else (0 : ℝ)) =
    (if (con.bond.ends.any fun i => L.layout.owns i j) = true then _ else 0) * con.weight
  split
  · exact measuredSlope_eq_mul L s step con j
  · rw [zero_mul]

/-- Slopes, in closed form or measured, have the weight for a factor. -/
theorem slopeRow_eq_scale (L : Linkage ℝ) (s : Array ℝ) (step : ℝ) (con : Constraint Nat ℝ) :
    L.slopeRow s step con = scale (L.slopeRow s step con.unweighted) con.weight := by
  obtain ⟨id, bond, tolerance, weight⟩ := con
  cases bond with
  | fixed => exact measuredRow_eq_scale L s step _
  | pair relation i i' =>
    cases relation with
    | coincident | distance | tangent => exact separationRow_eq_scale L s weight i i' _
    | parallel | perpendicular | angle | symmetric => exact measuredRow_eq_scale L s step _

theorem plainAt_eq_times (L : Linkage ℝ) (s : Array ℝ) (step : ℝ) (con : Constraint Nat ℝ) :
    L.plainAt s step con = (L.unweighted.plainAt s step con.unweighted).times con.weight := by
  rw [plainAt, slopeRow_eq_scale, deviation_eq_weight_mul]
  rfl

end Linkage

/-! ## Faint rows -/

/-- No row is so short that balancing leaves it alone, but for those that are zero. -/
def Dense.Matrix.NoneFaint (m : Dense.Matrix ℝ) : Prop :=
  ∀ i < m.rows, (∃ j < m.cols, m.entry i j ≠ 0) → 1e-12 < norm (m.row i)

namespace Linkage

variable {L L' : Linkage ℝ} {s : Array ℝ} {con : Constraint Nat ℝ} {step : ℝ}

theorem bold_plainAt (h : (L.slopes s step).NoneFaint) (hcon : con ∈ L.constraints) :
    (L.plainAt s step con).Bold := by
  obtain ⟨i, hi, rfl⟩ := List.getElem_of_mem hcon
  have hrow := row_slopes L s step hi
  have hlt : i < (L.slopes s step).rows := by simpa using hi
  by_cases hsome : ∃ j < (L.slopes s step).cols, (L.slopes s step).entry i j ≠ 0
  · have hlong := h i hlt hsome
    rw [hrow] at hlong
    exact .inr hlong
  · have hvec : vec L.size (L.slopeRow s step L.constraints[i]) = 0 := by
      funext j
      rw [vec, ← hrow, (L.slopes s step).getD_row hlt j.isLt]
      by_contra hne
      exact hsome ⟨j, j.isLt, hne⟩
    rw [Equation.Bold, plainAt, norm_eq_vec (size_slopeRow _ _ _ _), hvec, zero_dotProduct,
      Real.sqrt_zero]
    exact .inl rfl

/-- A constraint on the separation of two members that are apart, with a weight that counts. -/
structure HoldsApart (L : Linkage ℝ) (s : Array ℝ) (con : Constraint Nat ℝ) : Prop where
  bond : ∃ relation i i', con.bond = .pair relation i i' ∧
    (relation = .coincident ∨ relation = .tangent ∨ ∃ t, relation = .distance t) ∧
      i ≠ i' ∧ 1e-12 < L.separation s i i'
  weight : 1e-12 < con.weight

/-- The row of such a constraint is zero if neither member moves, or no shorter than the
weight. -/
theorem HoldsApart.bold (h : L.HoldsApart s con) (hL : L.Regular) (step : ℝ) :
    (L.plainAt s step con).Bold := by
  obtain ⟨relation, i, i', hbond, hrelation, hne, hapart⟩ := h.bond
  have hpos : (0 : ℝ) < 1e-12 := by norm_num
  have hunit : (L.way s i i' / L.separation s i i').lengthSquared = 1 :=
    Displacement.lengthSquared_div_length (hpos.trans hapart).ne'
  have hsquare := hL.sq_norm_pull hne hunit con.weight
  rw [← slopeRow_apart hbond hrelation hapart step] at hsquare
  rcases freed_cases L i i' with hpinned | hfree
  · left
    rwa [hpinned, zero_mul, sq_eq_zero_iff] at hsquare
  · right
    have hnorm : 0 ≤ norm (L.slopeRow s step con) := Real.sqrt_nonneg _
    refine lt_of_lt_of_le h.weight (abs_le_of_sq_le_sq' ?_ hnorm).2
    rw [hsquare]
    exact le_mul_of_one_le_left (sq_nonneg _) hfree

/-- Where all constraints are such, but for those that fix something, no row is faint. -/
theorem noneFaint_of_holdsApart (hL : L.Regular)
    (h : ∀ con ∈ L.constraints, con.bond.isFixed = true ∨ L.HoldsApart s con) (step : ℝ) :
    (L.slopes s step).NoneFaint := by
  intro i hi hsome
  have hlt : i < L.constraints.length := by simpa using hi
  obtain ⟨j, hj, hne⟩ := hsome
  rw [row_slopes L s step hlt]
  rw [entry_slopes L s step (List.getElem?_eq_getElem hlt) hj] at hne
  rcases h _ (List.getElem_mem hlt) with hfixed | hholds
  · have hinert : ∀ j, ¬L.constraints[i].bond.Reads L.layout j := fun j hreads =>
      Bool.false_ne_true ((Bond.reads_iff.1 hreads).1.symm.trans hfixed)
    -- a row of zeros is no counterexample
    refine absurd ?_ hne
    rw [slopeRow_inert hinert]
    simp [Array.getD]
  · refine (hholds.bold hL step).resolve_left fun hzero => hne ?_
    have hmem : (L.slopeRow s step L.constraints[i]).getD j 0 ∈
        (L.slopeRow s step L.constraints[i]).toList := by
      rw [getD_of_lt (by simpa using hj)]
      simp
    exact abs_nonpos_iff.1 ((Exact.abs_le_norm hmem).trans_eq hzero)

/-- What a balanced correction is told has no weights in it: the equations of the linkage
without weights whose rows are not zero, each divided by the length of its row. -/
theorem told_eq {c : Settings ℝ} (hbalance : c.precondition = true)
    (hweight : ∀ con ∈ L.constraints, 0 < con.weight) (h : (L.slopes s c.slopeStep).NoneFaint) :
    L.told c s = ((L.unweighted.constraints.map (L.unweighted.plainAt s c.slopeStep)).filter
      Equation.slopes).map Equation.unit := by
  have hequation : ∀ con, L.equationAt c s con = (L.plainAt s c.slopeStep con).balanced :=
    fun con => if_pos hbalance
  have hplain : L.unweighted.constraints.map (L.unweighted.plainAt s c.slopeStep) =
      L.constraints.map fun con => L.unweighted.plainAt s c.slopeStep con.unweighted :=
    List.map_map ..
  have hslopes : ∀ con ∈ L.constraints, (L.plainAt s c.slopeStep con).slopes =
      (L.unweighted.plainAt s c.slopeStep con.unweighted).slopes := by
    intro con hcon
    rw [plainAt_eq_times, Equation.slopes_times (hweight con hcon)]
  have htells : ∀ con ∈ L.constraints, (L.equationAt c s con).tells =
      (L.unweighted.plainAt s c.slopeStep con.unweighted).slopes := by
    intro con hcon
    rw [hequation, Equation.tells_balanced, (bold_plainAt h hcon).tells_eq_slopes, hslopes con hcon]
  -- the same constraints pass both filters, and each then has the same equation
  rw [told, hplain, List.filter_map, List.filter_map, List.map_map,
    List.filter_congr (q := Equation.slopes ∘ fun con =>
      L.unweighted.plainAt s c.slopeStep con.unweighted) htells]
  refine List.map_congr_left fun con hcon => ?_
  obtain ⟨hmem, hsome⟩ := List.mem_filter.1 hcon
  rw [hequation, (bold_plainAt h hmem).balanced_eq_unit ((hslopes con hmem).trans hsome),
    plainAt_eq_times, Equation.unit_times (hweight con hmem)]
  rfl

/-! ## Corrections -/

theorem sound_of_link? {a : Assembly ℝ} {initial : PositionMap ℝ} {turning : Bool}
    (hlink : a.link? initial turning = .ok L) : L.Sound := by
  obtain ⟨hwell, -, rfl⟩ := Assembly.link?_eq_ok_iff.1 hlink
  exact sound_linkage hwell initial turning

/-- Only what has positive weights is compiled. -/
theorem weight_pos_of_link? {a : Assembly ℝ} {initial : PositionMap ℝ} {turning : Bool}
    (hlink : a.link? initial turning = .ok L) : ∀ con ∈ L.constraints, 0 < con.weight := by
  obtain ⟨hwell, -, rfl⟩ := Assembly.link?_eq_ok_iff.1 hlink
  intro con hcon
  obtain ⟨con', hcon', rfl⟩ := List.mem_map.1 hcon
  exact ((Assembly.wellFormed_iff_inOrder.1 hwell).numbers con' hcon').weight.2

/-- The correction for the slopes and the deviations in a state, which are balanced first. -/
noncomputable def balancedCorrection? (L : Linkage ℝ) (s : Array ℝ) (slopeStep pivotThreshold : ℝ) :
    Except Breach (Correction ℝ) := do
  let slopes ← L.slopes? s slopeStep
  let deviations ← L.deviations? s
  correction? (balanced slopes deviations).1 (balanced slopes deviations).2 pivotThreshold

theorem Sound.balancedCorrection?_eq (h : L.Sound) (hs : L.size ≤ s.size) {c : Settings ℝ}
    (hbalance : c.precondition = true) :
    L.balancedCorrection? s c.slopeStep c.pivotThreshold = L.correctionAt? c s := by
  have hread := h.canRead_of_le hs
  have hslopes : L.slopes? s c.slopeStep = .ok (L.slopes s c.slopeStep) := if_pos hread
  have hdeviations : L.deviations? s = .ok (L.deviations s) := if_pos hread
  have hsystem : L.systemAt c s = balanced (L.slopes s c.slopeStep) (L.deviations s) :=
    if_pos hbalance
  rw [balancedCorrection?, hslopes, ok_bind, hdeviations, ok_bind, correctionAt?, hsystem]

theorem correctionAt?_total (L : Linkage ℝ) (c : Settings ℝ) (s : Array ℝ) :
    ∃ k, L.correctionAt? c s = .ok k := by
  have hrows : (L.systemAt c s).1.rows = (L.systemAt c s).2.size := by
    unfold systemAt
    dsimp only
    split <;> simp [balanced]
  obtain ⟨k, hk, -⟩ := correction?_total hrows c.pivotThreshold
  exact ⟨k, hk⟩

/-- Linkages that differ in their weights have the same corrections where no row is faint. -/
theorem correctionAt?_unweighted {c : Settings ℝ} (hbalance : c.precondition = true)
    (hsame : L'.unweighted = L.unweighted) (hweight : ∀ con ∈ L.constraints, 0 < con.weight)
    (hweight' : ∀ con ∈ L'.constraints, 0 < con.weight) (h : (L.slopes s c.slopeStep).NoneFaint)
    (h' : (L'.slopes s c.slopeStep).NoneFaint) : L'.correctionAt? c s = L.correctionAt? c s := by
  have hsize : L'.unweighted.size = L.unweighted.size := by rw [hsame]
  rw [correctionAt?_eq, correctionAt?_eq, told_eq hbalance hweight h, told_eq hbalance hweight' h',
    hsame]
  exact congrArg (fun n => correctionOf? n _ c.pivotThreshold) hsize

end Linkage

/-! ## Steps -/

/-- Where a run stands, the next step takes the correction of the state. -/
theorem Newton.Run.Sited.probe?_eq {L : Linkage ℝ} {c : Settings ℝ} {r : Run ℝ} {k : Correction ℝ}
    (hr : r.Sited L) (hL : L.Sound) (hs : L.size ≤ r.stand.point.size)
    (hk : L.correctionAt? c r.stand.point = .ok k) : r.probe? L c = .ok (r.trial L k) := by
  have hslopes : L.slopes? r.stand.point c.slopeStep = .ok (L.slopes r.stand.point c.slopeStep) :=
    if_pos (hL.canRead_of_le hs)
  have hsystem : correction? (r.system L c).1 (r.system L c).2 c.pivotThreshold = .ok k := by
    rw [hr.system_eq]
    exact hk
  have hmoved : L.deviations? (addScaled r.damping k.step r.stand.point) =
      .ok (L.deviations (addScaled r.damping k.step r.stand.point)) :=
    if_pos (hL.canRead_of_le (by rwa [size_addScaled]))
  unfold Run.system at hsystem
  unfold Run.probe? Run.trial
  rw [hslopes, ok_bind]
  dsimp only at hsystem ⊢
  rw [hsystem, ok_bind, hmoved]
  split <;> rfl

/-- Where no row is faint, compiled linkages that differ in nothing but the weights of their
constraints have one balanced correction. Runs that stand at the same point take it, and with
the same damping they come to the same point. -/
theorem correction_without_weights {a a' : Assembly ℝ} {initial initial' : PositionMap ℝ}
    {turning turning' : Bool} {L L' : Linkage ℝ} (hlink : a.link? initial turning = .ok L)
    (hlink' : a'.link? initial' turning' = .ok L') (hsame : L'.unweighted = L.unweighted)
    {c : Settings ℝ} (hbalance : c.precondition = true) {s : Array ℝ} (hs : L.size ≤ s.size)
    (h : (L.slopes s c.slopeStep).NoneFaint) (h' : (L'.slopes s c.slopeStep).NoneFaint) :
    ∃ k, L.balancedCorrection? s c.slopeStep c.pivotThreshold = .ok k ∧
      L'.balancedCorrection? s c.slopeStep c.pivotThreshold = .ok k ∧
      ∀ r r' : Run ℝ, r.Sited L → r'.Sited L' → r.stand.point = s → r'.stand.point = s →
        ∃ t t', r.probe? L c = .ok t ∧ r'.probe? L' c = .ok t' ∧
          t.correction = k ∧ t'.correction = k ∧
          (r'.damping = r.damping → t'.stand?.map (·.point) = t.stand?.map (·.point)) := by
  have hsize : L'.unweighted.size = L.unweighted.size := by rw [hsame]
  have hs' : L'.size ≤ s.size := hsize.trans_le hs
  have hsound := Linkage.sound_of_link? hlink
  have hsound' := Linkage.sound_of_link? hlink'
  obtain ⟨k, hk⟩ := L.correctionAt?_total c s
  have hk' : L'.correctionAt? c s = .ok k := by
    rw [Linkage.correctionAt?_unweighted hbalance hsame (Linkage.weight_pos_of_link? hlink)
      (Linkage.weight_pos_of_link? hlink') h h', hk]
  refine ⟨k, by rw [hsound.balancedCorrection?_eq hs hbalance, hk],
    by rw [hsound'.balancedCorrection?_eq hs' hbalance, hk'], ?_⟩
  rintro r r' hr hr' rfl hpoint
  rw [← hpoint] at hs' hk'
  refine ⟨_, _, hr.probe?_eq hsound hs hk, hr'.probe?_eq hsound' hs' hk', ?_, ?_, fun hdamping => ?_⟩
  · unfold Run.trial
    split <;> rfl
  · unfold Run.trial
    split <;> rfl
  · unfold Run.trial
    rw [hdamping, hpoint]
    split <;> rfl

/-- A buoy that is pulled to four bollards around it, to one of them with a weight of its own.
There is no place at all four, and there are more pulls than ways to go. -/
noncomputable def moored (weight : ℝ) : Assembly ℝ where
  metadata := ⟨⟨0⟩, "moored", 1, ⟨⟨2000, 1, 1⟩, 0, 0⟩, ⟨⟨2000, 1, 1⟩, 0, 0⟩⟩
  components := [.placed "east" ⟨1, 0, 0⟩, .placed "west" ⟨-1, 0, 0⟩, .placed "north" ⟨0, 1, 0⟩,
    .placed "anchor" ⟨0, 0, -1⟩, .placed "buoy" .origin]
  constraints := [⟨"east", .fixed "east", none, 1⟩, ⟨"west", .fixed "west", none, 1⟩,
    ⟨"north", .fixed "north", none, 1⟩, ⟨"anchor", .fixed "anchor", none, 1⟩,
    ⟨"eastward", .pair (.distance 0) "east" "buoy", none, weight⟩,
    ⟨"westward", .pair (.distance 0) "west" "buoy", none, 1⟩,
    ⟨"northward", .pair (.distance 0) "north" "buoy", none, 1⟩,
    ⟨"downward", .pair (.distance 0) "anchor" "buoy", none, 1⟩]

theorem wellFormed_moored {weight : ℝ} (h : 0 < weight) : (moored weight).WellFormed := by
  constructor <;> simp [moored, Component.placed, Component.radiusProblem?, Component.radius,
    IdMap.get?, IdMap.empty, Constraint.defect?, Constraint.defect?.ofBond, Bond.ends,
    Relation.defect?, h]

theorem noneFaint_moored {weight : ℝ} (h : 1e-12 < weight) (step : ℝ) :
    (((moored weight).linkage .empty false).slopes #[0, 0, 0] step).NoneFaint := by
  have hunit : (1e-12 : ℝ) < 1 := by norm_num
  have hapart : ∀ i < 4, 1e-12 < ((moored weight).linkage .empty false).separation #[0, 0, 0] i 4 := by
    have hone : ∀ i < 4, ((moored weight).linkage .empty false).separation #[0, 0, 0] i 4 = 1 := by
      intro i hi
      interval_cases i
      · show Real.sqrt ((0 - 1) * (0 - 1) + (0 - 0) * (0 - 0) + (0 - 0) * (0 - 0)) = 1
        norm_num
      · show Real.sqrt ((0 - -1) * (0 - -1) + (0 - 0) * (0 - 0) + (0 - 0) * (0 - 0)) = 1
        norm_num
      · show Real.sqrt ((0 - 0) * (0 - 0) + (0 - 1) * (0 - 1) + (0 - 0) * (0 - 0)) = 1
        norm_num
      · show Real.sqrt ((0 - 0) * (0 - 0) + (0 - 0) * (0 - 0) + (0 - -1) * (0 - -1)) = 1
        norm_num
    intro i hi
    rw [hone i hi]
    exact hunit
  have hholds : ∀ i < 4, ∀ id w, 1e-12 < w →
      ((moored weight).linkage .empty false).HoldsApart #[0, 0, 0]
        ⟨id, .pair (.distance 0) i 4, none, w⟩ := fun i hi _ _ hw =>
    ⟨⟨_, i, 4, rfl, .inr (.inr ⟨0, rfl⟩), by omega, hapart i hi⟩, hw⟩
  refine Linkage.noneFaint_of_holdsApart (Linkage.regular_linkage _ _ _) ?_ step
  show ∀ con ∈ [(⟨"east", .fixed 0, none, 1⟩ : Constraint Nat ℝ), ⟨"west", .fixed 1, none, 1⟩,
    ⟨"north", .fixed 2, none, 1⟩, ⟨"anchor", .fixed 3, none, 1⟩,
    ⟨"eastward", .pair (.distance 0) 0 4, none, weight⟩,
    ⟨"westward", .pair (.distance 0) 1 4, none, 1⟩, ⟨"northward", .pair (.distance 0) 2 4, none, 1⟩,
    ⟨"downward", .pair (.distance 0) 3 4, none, 1⟩], _
  simp only [List.forall_mem_cons]
  exact ⟨.inl rfl, .inl rfl, .inl rfl, .inl rfl, .inr (hholds 0 (by omega) _ _ h),
    .inr (hholds 1 (by omega) _ _ hunit), .inr (hholds 2 (by omega) _ _ hunit),
    .inr (hholds 3 (by omega) _ _ hunit), List.forall_mem_nil _⟩

/-- The buoy is moved by the same first step if one of the pulls is twice as strong. -/
theorem correction_without_weights_moored : ∃ L L' k t t', (moored 1).link? .empty false = .ok L ∧
    (moored 2).link? .empty false = .ok L' ∧ L.size = 3 ∧
      (L.constraints.filter fun con => !con.bond.isFixed).length = 4 ∧
      L.balancedCorrection? #[0, 0, 0] 1e-6 1e-12 = .ok k ∧
      L'.balancedCorrection? #[0, 0, 0] 1e-6 1e-12 = .ok k ∧
      (Run.first L Settings.standard).probe? L Settings.standard = .ok t ∧
      (Run.first L' Settings.standard).probe? L' Settings.standard = .ok t' ∧
      t.correction = k ∧ t'.correction = k ∧
      t'.stand?.map (·.point) = t.stand?.map (·.point) := by
  have hlink := Assembly.link?_of_finite Exact.isFinite_eq (wellFormed_moored one_pos) .empty false
  have hlink' := Assembly.link?_of_finite Exact.isFinite_eq (wellFormed_moored two_pos) .empty false
  obtain ⟨k, hk, hk', hruns⟩ := correction_without_weights hlink hlink' rfl
    (c := Settings.standard) rfl (s := #[0, 0, 0]) le_rfl (noneFaint_moored (by norm_num) _)
    (noneFaint_moored (by norm_num) _)
  obtain ⟨t, t', ht, ht', hcorrection, hcorrection', hpoint⟩ :=
    hruns _ _ (Run.sited_first _ Settings.standard) (Run.sited_first _ Settings.standard) rfl rfl
  exact ⟨_, _, k, t, t', hlink, hlink', rfl, rfl, hk, hk', ht, ht', hcorrection, hcorrection',
    hpoint rfl⟩

end Joinery
