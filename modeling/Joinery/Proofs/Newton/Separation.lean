import Mathlib
import Joinery.Proofs.Linkage.Pull
import Joinery.Proofs.Newton.Contradiction
import Joinery.Proofs.Newton.Shortest
/-!
# Closing a separation

A linkage that holds two members to a separation, and others at most where they are, has
one equation to be solved. Its row is a pull along the line through the two members, and
the shortest step that makes up for the deviation moves them there by just that. Where
the first step is taken whole, the run is over after it, without any deviation.
-/

namespace Joinery

open Joinery.Dense Joinery.Newton

/-! ## One equation -/

namespace Newton

/-- The one pivot of a matrix with one entry is usable if the entry is large enough. -/
theorem singularCount_one {q pivotThreshold : ℝ} (hq : 0 ≤ q)
    (hpivot : pivotThreshold * max q 1 ≤ q) :
    (Factors.ofMatrix (Dense.Matrix.ofFn 1 1 fun _ _ => q) pivotThreshold).singularCount = 0 := by
  have hmax : (Dense.Matrix.ofFn 1 1 fun _ _ => q : Dense.Matrix ℝ).maxAbs = q := by
    show Arithmetic.max (0 : ℝ) |q| = q
    rw [abs_of_nonneg hq, Ordered.max_eq]
    exact max_eq_right hq
  have hpivoted : (Dense.Matrix.ofFn 1 1 fun _ _ => q : Dense.Matrix ℝ).pivot 0 = (0, q) := by
    show ((0, |q|) : Nat × ℝ) = _
    rw [abs_of_nonneg hq]
  have husable : ¬(Arithmetic.isNaN q = true ∨ q < pivotThreshold * Arithmetic.max q 1) := by
    rw [Ordered.max_eq, Exact.isNaN_eq]
    simpa using hpivot
  unfold Factors.ofMatrix
  rw [hmax]
  show (Factors.eliminate _ _ 0).singularCount = 0
  unfold Factors.eliminate
  dsimp only
  rw [hpivoted, if_neg husable]
  rfl

theorem outerGram_one {n : Nat} (e : Equation ℝ) :
    (rowsOf n [e]).outerGram = .ofFn 1 1 fun _ _ => vec n e.row ⬝ᵥ vec n e.row := by
  refine Dense.Matrix.ext_entry (rows_rowsOf (n := n)) (rows_rowsOf (n := n)) ?_
  intro i j hi hj
  have hi' : i < 1 := hi
  have hj' : j < 1 := hj
  obtain ⟨rfl, rfl⟩ : i = 0 ∧ j = 0 := ⟨by omega, by omega⟩
  have hfirst : (0 : Nat) = (0 : Fin [e].length) := rfl
  rw [hfirst, entry_outerGram]
  rfl

/-- With more unknowns than one, the correction for one equation has no singular pivot if the
row is long enough. -/
theorem singularPivots_one {n : Nat} {e : Equation ℝ} (hn : 1 < n) {pivotThreshold : ℝ}
    (hpivot : pivotThreshold * max (vec n e.row ⬝ᵥ vec n e.row) 1 ≤ vec n e.row ⬝ᵥ vec n e.row)
    {k : Correction ℝ} (hk : correctionOf? n [e] pivotThreshold = .ok k) :
    k.singularPivots = 0 := by
  have hrows : (rowsOf n [e]).rows = 1 := rows_rowsOf
  have hcols : (rowsOf n [e]).cols = n := rfl
  unfold correctionOf? solveByShape at hk
  rw [if_neg (by simp; omega), hrows, hcols, if_neg (by omega), if_neg (by omega),
    outerGram_one] at hk
  obtain ⟨⟨step, method, singular⟩, hs, hk⟩ := bind_eq_ok hk
  obtain ⟨factors, hf, hs⟩ := bind_eq_ok hs
  obtain ⟨-, rfl⟩ := unless_eq_ok hf
  obtain ⟨shares, -, hs⟩ := bind_eq_ok hs
  obtain ⟨step', -, hs⟩ := bind_eq_ok hs
  cases hs
  cases hk
  exact singularCount_one (Finset.sum_nonneg fun j _ => mul_self_nonneg _) hpivot

section One

variable {n : Nat} {e : Equation ℝ} (he : vec n e.row ⬝ᵥ vec n e.row = 1)
include he

/-- The shortest step for one equation with a row of length one goes along the row. -/
theorem isShortest_one : IsShortest [e] (-e.deviation • vec n e.row) := by
  constructor
  · intro w
    have hzero : e.residual (-e.deviation • vec n e.row) = 0 := by
      rw [Equation.residual, dotProduct_smul, he, smul_eq_mul, mul_one, neg_add_cancel]
    rw [List.map_singleton, List.sum_singleton, hzero, zero_mul]
  · intro w hw
    rw [smul_dotProduct, hw e (List.mem_singleton.2 rfl), smul_zero]

/-- With more unknowns than one, the correction for the equation takes this step. -/
theorem correctionOf?_one (hn : 1 < n) {pivotThreshold : ℝ} (hpivot : 0 < pivotThreshold)
    (hle : pivotThreshold ≤ 1) {k : Correction ℝ}
    (hk : correctionOf? n [e] pivotThreshold = .ok k) :
    k.singularPivots = 0 ∧ vec n k.step = -e.deviation • vec n e.row := by
  have hregular : k.singularPivots = 0 := by
    refine singularPivots_one hn ?_ hk
    rwa [he, max_self, mul_one]
  exact ⟨hregular,
    (isShortest_of_correctionOf? hpivot hk hregular).unique (isShortest_one he)⟩

end One

/-- Balancing an equation whose row is long enough makes the row one of length one. -/
theorem balanced_row {n : Nat} {e : Equation ℝ} (hsize : e.row.size = n)
    (hlong : 1e-12 < norm e.row) :
    e.balanced.deviation = e.deviation / norm e.row ∧
      vec n e.balanced.row = (1 / norm e.row) • vec n e.row ∧
      vec n e.balanced.row ⬝ᵥ vec n e.balanced.row = 1 := by
  have hdivisor : divisor? e.row = some (norm e.row) := if_pos hlong
  have hbalanced : e.balanced = ⟨e.row.map (· * (1 / norm e.row)), e.deviation / norm e.row⟩ := by
    unfold Equation.balanced
    rw [hdivisor]
  have hrow : vec n e.balanced.row = (1 / norm e.row) • vec n e.row := by
    rw [hbalanced]
    funext j
    have hj : j < e.row.size := hsize ▸ j.isLt
    show (e.row.map _).getD j 0 = 1 / norm e.row * e.row.getD j 0
    rw [getD_of_lt (by simpa using hj), getD_of_lt hj, Array.getElem_map, mul_comm]
  have hne : norm e.row ≠ 0 := by
    intro hzero
    rw [hzero] at hlong
    norm_num at hlong
  refine ⟨by rw [hbalanced], hrow, ?_⟩
  rw [hrow, smul_dotProduct, dotProduct_smul, ← sq_norm hsize, smul_eq_mul, smul_eq_mul]
  field_simp

end Newton

/-! ## Linkages with one separation -/

/-- A linkage that holds two members to a separation, and others at most where they
are. -/
structure Linkage.Single (L : Linkage ℝ) (con : Constraint Nat ℝ) (i i' : Nat) (target : ℝ) :
    Prop where
  sound : L.Sound
  alone : (L.constraints.filter fun con => !con.bond.isFixed) = [con]
  bond : ∃ relation : Relation ℝ, con.bond = .pair relation i i' ∧
    ∀ s, relation.demand? ((L.body s i).radius + (L.body s i').radius) = some (.separation, target)
  ne : i ≠ i'
  free : L.layout.isPinned i = false ∨ L.layout.isPinned i' = false
  weight : 1e-12 < con.weight
  target : 0 ≤ target

/-- Settings with which the first correction is that of balanced equations and is taken
whole. -/
structure Newton.Settings.Whole (c : Settings ℝ) : Prop where
  inRange : c.InRange
  balanced : c.precondition = true
  pivotThreshold : c.pivotThreshold ≤ 1
  damping : c.damping = 1

namespace Linkage

variable {L : Linkage ℝ} {c : Settings ℝ} {con : Constraint Nat ℝ} {i i' m : Nat} {target : ℝ}
  {s : Array ℝ}

/-- How far two members are apart in a state. -/
noncomputable def separation (L : Linkage ℝ) (s : Array ℝ) (i i' : Nat) : ℝ :=
  (L.body s i).separation (L.body s i')

/-- What the whole correction leads to: the separation is what it should be, no other
member moves and none turns. -/
structure Closed (L : Linkage ℝ) (i i' : Nat) (target : ℝ) (s s' : Array ℝ) : Prop where
  separation : L.separation s' i i' = target
  positions : ∀ m, m ≠ i → m ≠ i' → (L.pose s' m).position = (L.pose s m).position
  orientations : ∀ m, (L.pose s' m).orientation = (L.pose s m).orientation

/-- Whether a displacement of length one leads from one member to the other. -/
structure Heads (L : Linkage ℝ) (s : Array ℝ) (i i' : Nat) (unit : Displacement ℝ) : Prop where
  lengthSquared : unit.lengthSquared = 1
  way : ((L.pose s i').position - (L.pose s i).position : Displacement ℝ) =
    unit * L.separation s i i'

/-- A constraint that measures the separation deviates by it less what it asks for. -/
theorem deviation_of_demands {relation : Relation ℝ} (hbond : con.bond = .pair relation i i')
    (hdemand : ∀ s, relation.demand? ((L.body s i).radius + (L.body s i').radius) =
      some (.separation, target)) (s : Array ℝ) :
    L.deviation s con = con.weight * (L.separation s i i' - target) := by
  rw [deviation, hbond]
  exact congrArg (con.weight * ·) (Relation.deviation_of_demand (hdemand s))

/-- Members that are apart have a heading, and members that meet but are to be apart are
given one. -/
theorem exists_heading {apart : Bool}
    (hway : L.separation s i i' = 0 ∨ 1e-12 < L.separation s i i')
    (hapart : apart = true ∨ L.separation s i i' ≠ 0) :
    ∃ unit, L.Heads s i i' unit ∧ L.heading? s i i' apart = some unit := by
  unfold heading?
  dsimp only
  rcases hway with hzero | hlong
  · have hshort : ¬1e-12 < L.separation s i i' := by
      rw [hzero]
      norm_num
    refine ⟨.xUnit, ⟨?_, Displacement.eq_unit_mul (.inr hzero)⟩, ?_⟩
    · rw [Displacement.lengthSquared_eq]
      norm_num [Displacement.xUnit]
    · rw [hapart.resolve_right (not_not_intro hzero)]
      exact if_neg hshort
  · have hne : L.separation s i i' ≠ 0 := by
      intro hzero
      rw [hzero] at hlong
      norm_num at hlong
    exact ⟨_, ⟨Displacement.lengthSquared_div_length hne,
      Displacement.eq_unit_mul (.inl ⟨hne, rfl⟩)⟩, if_pos hlong⟩

/-- The slopes of the separation are a pull along the heading. -/
theorem separationRow_of_heading {unit : Displacement ℝ} {apart : Bool}
    (h : L.heading? s i i' apart = some unit) (weight : ℝ) :
    L.separationRow s weight i i' apart = L.pull i i' (unit * weight) := by
  unfold separationRow
  rw [h]
  rfl

/-- The row of a separation is as long as the weight, or somewhat longer if both members
move. -/
theorem Regular.sq_norm_pull (h : L.Regular) (hne : i ≠ i') {unit : Displacement ℝ}
    (hunit : unit.lengthSquared = 1) (weight : ℝ) :
    norm (L.pull i i' (unit * weight)) ^ 2 = (L.freed i + L.freed i') * weight ^ 2 := by
  rw [sq_norm (size_pull _ _ _ _), ← one_mul (weight ^ 2), ← hunit,
    ← Displacement.lengthSquared_mul, ← h.sum_sq_pull hne, Finset.sum_range]
  rfl

namespace Single

variable (h : L.Single con i i' target)
include h

/-! ### Deviations -/

theorem mem : con ∈ L.constraints :=
  List.mem_of_mem_filter (p := fun con => !con.bond.isFixed) (h.alone ▸ List.mem_singleton.2 rfl)

theorem isFixed_of_ne {other : Constraint Nat ℝ} (hother : other ∈ L.constraints)
    (hne : other ≠ con) : other.bond.isFixed = true := by
  by_contra hfree
  have hmem : other ∈ L.constraints.filter fun con => !con.bond.isFixed :=
    List.mem_filter.2 ⟨hother, by simpa using hfree⟩
  rw [h.alone, List.mem_singleton] at hmem
  exact hne hmem

theorem deviation_eq (s : Array ℝ) :
    L.deviation s con = con.weight * (L.separation s i i' - target) := by
  obtain ⟨relation, hbond, hdemand⟩ := h.bond
  exact deviation_of_demands hbond hdemand s

/-- Where the separation is what it should be, nothing deviates. -/
theorem norm_eq_zero (hs : L.separation s i i' = target) : norm (L.deviations s) = 0 := by
  have hzero : ∀ x ∈ (L.deviations s).toList, x = 0 := by
    intro x hx
    obtain ⟨other, hother, rfl⟩ := List.mem_map.1 hx
    by_cases hne : other = con
    · rw [hne, h.deviation_eq, hs, sub_self, mul_zero]
    · have hfixed := h.isFixed_of_ne hother hne
      unfold deviation
      cases hbond : other.bond with
      | fixed => exact mul_zero _
      | pair => rw [hbond] at hfixed; cases hfixed
  rw [Exact.norm_eq, List.sum_eq_zero, Real.sqrt_zero]
  intro y hy
  obtain ⟨x, hx, rfl⟩ := List.mem_map.1 hy
  rw [hzero x hx, mul_zero]

/-! ### The correction -/

/-- One of the members moves. -/
theorem one_le_freed : 1 ≤ L.freed i + L.freed i' := by
  have hi := freed_nonneg L i
  have hi' := freed_nonneg L i'
  rcases h.free with hfree | hfree
  · have hone : L.freed i = 1 := by simp [freed, hfree]
    linarith
  · have hone : L.freed i' = 1 := by simp [freed, hfree]
    linarith

theorem one_lt_size : 1 < L.size := by
  have hstride := L.layout.three_le_stride
  have hfits : ∀ m, L.layout.isPinned m = false → 1 < L.size := by
    intro m hm
    rw [Layout.isPinned, Option.isNone_eq_false_iff, Option.isSome_iff_exists] at hm
    obtain ⟨k, hk⟩ := hm
    have := h.sound.regular.offset_add_le hk
    omega
  exact h.free.elim (hfits i) (hfits i')

/-- The correction is told of the separation only. -/
theorem told_eq (htells : (L.equationAt c s con).tells = true) :
    L.told c s = [L.equationAt c s con] := by
  have hread : ∀ con ∈ L.constraints, (!con.bond.isFixed) = false →
      ∀ j, ¬con.bond.Reads L.layout j := by
    intro con _ hfixed j hreads
    rw [(Bond.reads_iff.1 hreads).1] at hfixed
    cases hfixed
  rw [← told_filter hread, h.alone, List.map_singleton, List.filter_singleton, htells]
  rfl

theorem lt_norm_pull {unit : Displacement ℝ} (hunit : unit.lengthSquared = 1) :
    1e-12 < norm (L.pull i i' (unit * con.weight)) := by
  have hnorm : 0 ≤ norm (L.pull i i' (unit * con.weight)) := Real.sqrt_nonneg _
  refine lt_of_lt_of_le h.weight (abs_le_of_sq_le_sq' ?_ hnorm).2
  rw [h.sound.regular.sq_norm_pull h.ne hunit]
  exact le_mul_of_one_le_left (sq_nonneg _) h.one_le_freed

section Open

variable (hway : L.separation s i i' = 0 ∨ 1e-12 < L.separation s i i')
  (hopen : L.separation s i i' ≠ target)
include hway hopen

theorem slopeRow_pull : ∃ unit, L.Heads s i i' unit ∧
    ∀ step, L.slopeRow s step con = L.pull i i' (unit * con.weight) := by
  have hrow : ∀ apart, apart = true ∨ L.separation s i i' ≠ 0 → ∃ unit, L.Heads s i i' unit ∧
      L.separationRow s con.weight i i' apart = L.pull i i' (unit * con.weight) := by
    intro apart hapart
    obtain ⟨unit, hheads, hunit⟩ := exists_heading hway hapart
    exact ⟨unit, hheads, separationRow_of_heading hunit con.weight⟩
  obtain ⟨relation, hbond, hdemand⟩ := h.bond
  have hdemand := hdemand s
  unfold slopeRow
  rw [hbond]
  cases relation with
  | coincident =>
    -- members that coincide and should are not open, so there is a way between them
    cases hdemand
    obtain ⟨unit, hheads, hpull⟩ := hrow false (.inr hopen)
    exact ⟨unit, hheads, fun _ => hpull⟩
  | distance t =>
    obtain ⟨unit, hheads, hpull⟩ := hrow true (.inl rfl)
    exact ⟨unit, hheads, fun _ => hpull⟩
  | tangent =>
    obtain ⟨unit, hheads, hpull⟩ := hrow true (.inl rfl)
    exact ⟨unit, hheads, fun _ => hpull⟩
  | parallel => cases hdemand
  | perpendicular => cases hdemand
  | angle => cases hdemand
  | symmetric => cases hdemand

variable (hc : c.Whole) {k : Correction ℝ} (hk : L.correctionAt? c s = .ok k)
include hc hk

/-- The correction takes the state along a pull, as far as makes up for what the
separation is off. -/
theorem correction_pull : k.singularPivots = 0 ∧ ∃ unit, ∃ q : ℝ, L.Heads s i i' unit ∧
    vec L.size k.step = q • vec L.size (L.pull i i' (unit * con.weight)) ∧
    con.weight * (q * (L.freed i + L.freed i')) = target - L.separation s i i' := by
  obtain ⟨unit, hheads, hpull⟩ := h.slopeRow_pull hway hopen
  have hequation : L.equationAt c s con = Equation.balanced
      ⟨L.pull i i' (unit * con.weight), con.weight * (L.separation s i i' - target)⟩ := by
    rw [equationAt, if_pos hc.balanced, hpull, h.deviation_eq]
  have hsquare := h.sound.regular.sq_norm_pull h.ne hheads.lengthSquared con.weight
  have hlong := h.lt_norm_pull hheads.lengthSquared
  obtain ⟨hdeviation, hrow, hself⟩ := balanced_row (n := L.size)
    (e := ⟨L.pull i i' (unit * con.weight), con.weight * (L.separation s i i' - target)⟩)
    (size_pull _ _ _ _) hlong
  rw [← hequation] at hdeviation hrow hself
  have htells : (L.equationAt c s con).tells = true := by
    rw [Equation.tells, norm_eq_vec (L.size_row_equationAt c s con), hself, Real.sqrt_one]
    exact decide_eq_true (by norm_num)
  rw [correctionAt?_eq, h.told_eq htells] at hk
  obtain ⟨hregular, hstep⟩ := correctionOf?_one hself h.one_lt_size hc.inRange.pivotThreshold.2
    hc.pivotThreshold hk
  generalize norm (L.pull i i' (unit * con.weight)) = length at *
  have hlength : length ≠ 0 := by
    rintro rfl
    norm_num at hlong
  refine ⟨hregular, unit, -(con.weight * (L.separation s i i' - target) / length) * (1 / length),
    hheads, ?_, ?_⟩
  · rw [hstep, hdeviation, hrow, smul_smul]
  · calc con.weight * (-(con.weight * (L.separation s i i' - target) / length) * (1 / length) *
          (L.freed i + L.freed i'))
        = (target - L.separation s i i') *
            ((L.freed i + L.freed i') * con.weight ^ 2 / length ^ 2) := by
          field_simp
          ring
      _ = target - L.separation s i i' := by
          rw [← hsquare, div_self (pow_ne_zero 2 hlength), mul_one]

variable (hs : s.size = L.size)
include hs

theorem closed_addScaled : L.Closed i i' target s (addScaled 1 k.step s) := by
  obtain ⟨-, unit, q, hheads, hstep, hmove⟩ := h.correction_pull hway hopen hc hk
  have hpulled : ∀ j, j < L.size → (addScaled 1 k.step s).getD j 0 =
      s.getD j 0 + q * (L.pull i i' (unit * con.weight)).getD j 0 := by
    intro j hj
    rw [getD_addScaled _ _ (hs.symm ▸ hj), one_mul]
    exact congrArg (s.getD j 0 + ·) (congrFun hstep ⟨j, hj⟩)
  have hregular := h.sound.regular
  refine ⟨?_, fun m => hregular.position_pulled hpulled, hregular.orientation_pulled hpulled⟩
  have hway' : ((L.pose (addScaled 1 k.step s) i').position -
      (L.pose (addScaled 1 k.step s) i).position : Displacement ℝ) = unit * target := by
    rw [hregular.way_pulled h.ne hpulled, hheads.way]
    have hscale : ∀ x : ℝ, x * L.separation s i i' + x * con.weight *
        (q * (L.freed i + L.freed i')) = x * target := by
      intro x
      rw [mul_assoc, hmove]
      ring
    exact Displacement.ext_iff.2 ⟨hscale unit.x, hscale unit.y, hscale unit.z⟩
  exact (congrArg Displacement.length hway').trans <|
    (Displacement.length_unit_mul hheads.lengthSquared target).trans (abs_of_nonneg h.target)

theorem isZero_eq_false : k.isZero = false := by
  have hclosed := h.closed_addScaled hway hopen hc hk hs
  rw [correctionAt?_eq] at hk
  have hsize := (shape_of_correctionOf? hk).2.2
  -- a step that moves nothing would leave the separation as it is
  by_contra hzero
  rw [Bool.not_eq_false, isZero_iff hsize] at hzero
  have hstay : addScaled 1 k.step s = s := by
    refine ext_getD (n := L.size) (by simpa using hs) hs ?_
    intro j hj
    have hentry : k.step.getD j 0 = 0 := congrFun hzero ⟨j, hj⟩
    rw [getD_addScaled _ _ (hs.symm ▸ hj), hentry, mul_zero, add_zero]
  rw [hstay] at hclosed
  exact hopen hclosed.separation

end Open

end Single

end Linkage

/-! ## Runs and solves -/

namespace Newton

variable {L : Linkage ℝ} {c : Settings ℝ} {con : Constraint Nat ℝ} {i i' : Nat} {target : ℝ}

/-- A run that a trial takes below the tolerance is over, and stands there. -/
theorem Run.iterate?_of_hit {r : Run ℝ} {t : Trial ℝ} {stand : Stand ℝ} {n : Nat}
    (hr : r.status = .iterating) (ht : r.probe? L c = .ok t) (hstand : t.stand? = some stand)
    (hbetter : t.error < r.bestError) (hclose : t.error < c.tolerance) :
    ∃ last, r.iterate? L c (n + 1) = .ok last ∧ last.status = .converged ∧
      last.best = stand.point ∧ last.history = r.history.push (r.record L c t) := by
  have himproves : r.improves t = true := by simp [improves, hbetter]
  have hplaced : r.placed L c t = r.accept c t := by simp [placed, himproves, isOverdue, accept]
  have hstatus : (r.absorb L c t).status = .converged := by
    rw [absorb_eq, settle, if_pos]
    show (r.placed L c t).error < c.tolerance
    rw [hplaced]
    exact hclose
  refine ⟨r.absorb L c t, ?_, hstatus, ?_, absorb_history L c r t⟩
  · unfold iterate?
    rw [if_pos hr, ht, ok_bind]
    cases n <;> simp [iterate?, hstatus]
  · rw [absorb_best, hplaced]
    simp [accept, hstand]

section Single

variable (h : L.Single con i i' target) (hc : c.Whole)
  (hway : L.separation L.initialState i i' = 0 ∨ 1e-12 < L.separation L.initialState i i')
include h hc hway

/-- The first trial of a run closes what the separation is off. -/
theorem Run.exists_closing (hopen : L.separation L.initialState i i' ≠ target) :
    ∃ t stand, (first L c).probe? L c = .ok t ∧ t.stand? = some stand ∧ t.error = 0 ∧
      t.correction.singularPivots = 0 ∧ L.Closed i i' target L.initialState stand.point := by
  have hsize := h.sound.regular.size_initialState
  obtain ⟨t, ht, -⟩ := probe?_total h.sound (fits_first h.sound c) c
  have hk := (sited_first L c).correctionAt?_eq ht
  have hclosed := h.closed_addScaled hway hopen hc hk hsize
  have hmoves := h.isZero_eq_false hway hopen hc hk hsize
  have hmoved := (probe?_eq_trial ht).2
  unfold trial at hmoved
  rw [if_neg (by simp [hmoves]), show (first L c).damping = 1 from hc.damping] at hmoved
  refine ⟨t, _, ht, congrArg Trial.stand? hmoved, ?_, (h.correction_pull hway hopen hc hk).1,
    hclosed⟩
  exact (congrArg Trial.error hmoved).trans (h.norm_eq_zero hclosed.separation)

/-- The run of a linkage with one separation converges at its start or after one step,
which closes what the separation is off. -/
theorem Run.last_single (hsteps : c.maxIterations ≠ 0) {last : Run ℝ}
    (hlast : (first L c).iterate? L c c.maxIterations = .ok last) :
    last.status = .converged ∧ (∀ entry ∈ last.history, entry.singularPivots = 0) ∧
      (last.history.size = 0 ∧ last.best = L.initialState ∧
          norm (L.deviations L.initialState) < c.tolerance ∨
        last.history.size = 1 ∧ L.Closed i i' target L.initialState last.best) := by
  have htolerance := hc.inRange.tolerance.2
  by_cases hclose : norm (L.deviations L.initialState) < c.tolerance
  · have hstatus : (first L c).status = .converged := by
      simp [first, hclose]
    cases iterate?_of_over hlast (by rw [hstatus]; decide)
    exact ⟨hstatus, by simp [first], .inl ⟨rfl, rfl, hclose⟩⟩
  · have hopen : L.separation L.initialState i i' ≠ target := by
      intro heq
      rw [h.norm_eq_zero heq] at hclose
      exact hclose htolerance
    have hstatus : (first L c).status = .iterating := by
      have hvariables : L.size ≠ 0 := Nat.ne_of_gt (Nat.zero_lt_of_lt h.one_lt_size)
      simp [first, hclose, hvariables]
    obtain ⟨t, stand, ht, hstand, herror, hregular, hclosed⟩ :=
      Run.exists_closing h hc hway hopen
    rw [← herror] at htolerance
    have hbetter : t.error < (first L c).bestError := lt_of_lt_of_le htolerance (not_lt.1 hclose)
    obtain ⟨n, hn⟩ := Nat.exists_eq_succ_of_ne_zero hsteps
    obtain ⟨final, hfinal, hconverged, hbest, hhistory⟩ :=
      iterate?_of_hit (n := n) hstatus ht hstand hbetter htolerance
    rw [hn, Nat.succ_eq_add_one, hfinal] at hlast
    cases hlast
    have hrecords : last.history = #[(first L c).record L c t] := hhistory
    rw [hrecords, hbest]
    refine ⟨hconverged, fun entry hentry => ?_, .inr ⟨rfl, hclosed⟩⟩
    rw [List.mem_singleton.1 (List.mem_toArray.1 hentry)]
    exact hregular

end Single

end Newton

end Joinery
