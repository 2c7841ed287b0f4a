import Mathlib
import Joinery.Proofs.Linkage.Reorder
import Joinery.Proofs.Newton.Separation
/-!
# A single separation

One constraint on the separation of two components, beside constraints that fix what they
name, is solved in one step at most. So says the run of its linkage, and so does the
outcome: the two components are as far apart as they should be, and all others are where
they started.
-/

namespace Joinery

open Joinery.Dense Joinery.Newton

/-! ## Assemblies with one separation -/

/-- An assembly without problems that holds components `x` and `y` to a separation, of
which at least one is free to move, and others at most where they start. -/
structure Assembly.Single (a : Assembly ℝ) (con : Constraint String ℝ) (x y : Component ℝ)
    (target : ℝ) : Prop where
  problems : a.problems = []
  alone : (a.constraints.filter fun con => !con.bond.isFixed) = [con]
  first : x ∈ a.components
  second : y ∈ a.components
  ne : x.id ≠ y.id
  ends : con.bond.ends = [x.id, y.id]
  demand : a.demand? con.bond = some (.separation, target)
  free : (∀ other ∈ a.constraints, other.bond ≠ .fixed x.id) ∨
    ∀ other ∈ a.constraints, other.bond ≠ .fixed y.id
  weight : 1e-12 < con.weight

/-- How far two components start apart. -/
noncomputable def Component.startSeparation (initial : PositionMap ℝ) (x y : Component ℝ) : ℝ :=
  (x.member initial).start.position.distance (y.member initial).start.position

namespace Assembly.Single

variable {a : Assembly ℝ} {con : Constraint String ℝ} {x y : Component ℝ} {target : ℝ}
  (h : a.Single con x y target)
include h

theorem wellFormed : a.WellFormed := problems_eq_nil_iff.1 h.problems

theorem mem : con ∈ a.constraints :=
  List.mem_of_mem_filter (p := fun con => !con.bond.isFixed) (h.alone ▸ List.mem_singleton.2 rfl)

/-- No separation that can be asked for is negative. -/
theorem target_nonneg : 0 ≤ target := by
  have hradius : ∀ id, 0 ≤ a.radiusOf id := by
    intro id
    unfold radiusOf
    cases hpart : a.component? id with
    | none => exact le_refl 0
    | some part =>
      exact ((wellFormed_iff_inOrder.1 h.wellFormed).radii part (List.mem_of_find?_eq_some hpart)).2
  have hnumbers := (wellFormed_iff_inOrder.1 h.wellFormed).numbers con h.mem
  have hdemand := h.demand
  obtain ⟨id, bond, tolerance, weight⟩ := con
  cases bond with
  | fixed => cases hdemand
  | pair relation x y =>
    cases relation <;> cases hdemand
    · exact le_refl 0
    · exact (hnumbers.distance target x y rfl).2
    · exact add_nonneg (hradius x) (hradius y)

/-- The linkage of an assembly with one separation. -/
theorem linkage {i i' : Nat} (hi : a.components[i]? = some x) (hi' : a.components[i']? = some y)
    (initial : PositionMap ℝ) (turning : Bool) : (a.linkage initial turning).Single
      (con.linked (a.components.map (·.id))) i i' target := by
  have hwell := h.wellFormed
  have hunpinned : ∀ m part, a.components[m]? = some part →
      (∀ other ∈ a.constraints, other.bond ≠ .fixed part.id) →
      (a.linkage initial turning).layout.isPinned m = false := by
    intro m part hm hnot
    rw [← Bool.not_eq_true, a.isPinned_linkage_iff hwell hm]
    rintro ⟨other, hother, hfixed⟩
    exact hnot other hother hfixed
  refine ⟨Linkage.sound_linkage hwell initial turning, ?_, ?_, ?_, ?_, h.weight, h.target_nonneg⟩
  · show (a.constraints.map _).filter _ = _
    rw [List.filter_map, ← List.map_singleton, ← h.alone]
    refine congrArg (List.map _) (List.filter_congr fun other _ => ?_)
    rw [Function.comp_apply, Constraint.linked, Bond.isFixed_map]
  · have hends := h.ends
    have hdemand := h.demand
    cases hbond : con.bond with
    | fixed => rw [hbond] at hends; cases hends
    | pair relation x' y' =>
      rw [hbond] at hends hdemand
      cases hends
      refine ⟨relation, ?_, fun s => ?_⟩
      · rw [Constraint.linked, hbond, ← a.idxOf_id hwell hi, ← a.idxOf_id hwell hi']
        rfl
      · rw [← a.idxOf_id hwell hi, ← a.idxOf_id hwell hi', radius_body, radius_body]
        exact hdemand
  · rintro rfl
    cases hi.symm.trans hi'
    exact h.ne rfl
  · exact h.free.imp (hunpinned i x hi) (hunpinned i' y hi')

end Assembly.Single

/-- A component is in the initial state where it starts. -/
theorem Assembly.pose_initialState {a : Assembly ℝ} {part : Component ℝ} {i : Nat}
    (hi : a.components[i]? = some part) (initial : PositionMap ℝ) (turning : Bool) :
    (a.linkage initial turning).pose (a.linkage initial turning).initialState i =
      (part.member initial).start := by
  rw [(Linkage.regular_linkage a initial turning).pose_initialState, a.startPose_linkage hi]

namespace Newton

/-- The standard settings take the first correction whole. -/
theorem Settings.whole_standard (turning : Bool) :
    ({ Settings.standard with turning := turning } : Settings ℝ).Whole where
  inRange := by constructor <;> norm_num [Settings.standard]
  balanced := rfl
  pivotThreshold := by norm_num [Settings.standard]
  damping := rfl

section Solves

variable [Readout ℝ] {c : Settings ℝ} {a : Assembly ℝ} {con : Constraint String ℝ}
  {x y : Component ℝ} {target : ℝ} {i i' : Nat}

/-- A solve with one separation ends where it starts, with a deviation below the
tolerance, or where its first step has closed what the separation is off. -/
theorem exists_solve_single (h : a.Single con x y target) (hc : c.Whole)
    (hsteps : c.maxIterations ≠ 0) (initial : PositionMap ℝ)
    (hstart : x.startSeparation initial y = 0 ∨ 1e-12 < x.startSeparation initial y)
    (hi : a.components[i]? = some x) (hi' : a.components[i']? = some y) :
    ∃ o s, solve c a initial = .ok o ∧ o.converged = true ∧
      (∀ entry ∈ o.history, entry.singularPivots = 0) ∧
      o.positions = (a.linkage initial c.turning).positions s ∧
      o.orientations = (a.linkage initial c.turning).orientations s ∧
      o.error = norm ((a.linkage initial c.turning).deviations s) ∧
      (o.iterations = 0 ∧ s = (a.linkage initial c.turning).initialState ∧
          |con.weight * (x.startSeparation initial y - target)| < c.tolerance ∨
        o.iterations = 1 ∧ (a.linkage initial c.turning).Closed i i' target
          (a.linkage initial c.turning).initialState s) := by
  have hlinkage := h.linkage hi hi' initial c.turning
  have hway : (a.linkage initial c.turning).separation
      (a.linkage initial c.turning).initialState i i' = x.startSeparation initial y := by
    unfold Component.startSeparation
    rw [← a.pose_initialState hi initial c.turning, ← a.pose_initialState hi' initial c.turning]
    rfl
  obtain ⟨o, ho⟩ := solve_of_finite Exact.isFinite_eq (Settings.check_eq_ok_iff.2 hc.inRange)
    h.wellFormed initial
  obtain ⟨last, hlast, rfl⟩ := solve_eq_ok ho
  obtain ⟨hconverged, hregular, hends⟩ :=
    Run.last_single hlinkage hc (by rwa [hway]) hsteps hlast
  refine ⟨_, last.best, ho, decide_eq_true hconverged, hregular, rfl, rfl, rfl, ?_⟩
  refine hends.imp (fun ⟨hnone, hbest, hclose⟩ => ⟨hnone, hbest, ?_⟩) id
  have hdeviation : (a.linkage initial c.turning).deviation
      (a.linkage initial c.turning).initialState (con.linked (a.components.map (·.id))) =
        con.weight * (x.startSeparation initial y - target) := by
    rw [← hway]
    exact hlinkage.deviation_eq _
  rw [← hdeviation]
  exact lt_of_le_of_lt (Exact.abs_le_norm (List.mem_map_of_mem hlinkage.mem)) hclose

end Solves

/-- With the standard settings, and with components that turn or not, one constraint on
the separation of two components is solved in one step at most: the step closes what the
separation is off, and no other component moves. -/
theorem solve_single [Readout ℝ] (turning : Bool) (a : Assembly ℝ) (initial : PositionMap ℝ)
    (con : Constraint String ℝ) (x y : Component ℝ) (target : ℝ) (h : a.Single con x y target)
    (hstart : x.startSeparation initial y = 0 ∨ 1e-12 < x.startSeparation initial y) :
    ∃ o, solve { Settings.standard with turning := turning } a initial = .ok o ∧
      o.converged = true ∧ o.iterations ≤ 1 ∧
      (o.iterations = 1 → o.error = 0 ∧ ∃ p q, o.positions.get? x.id = some p ∧
        o.positions.get? y.id = some q ∧ p.distance q = target) ∧
      (∀ part ∈ a.components, part.id ≠ x.id → part.id ≠ y.id →
        o.positions.get? part.id = some (part.member initial).start.position) ∧
      ∀ part ∈ a.components, o.orientations.get? part.id = some part.orientation := by
  have hwell := h.wellFormed
  obtain ⟨i, hi⟩ := List.mem_iff_getElem?.1 h.first
  obtain ⟨i', hi'⟩ := List.mem_iff_getElem?.1 h.second
  obtain ⟨o, s, ho, hconverged, -, hpositions, horientations, herror, hdone⟩ :=
    exists_solve_single h (Settings.whole_standard turning) (by simp [Settings.standard]) initial
      hstart hi hi'
  refine ⟨o, ho, hconverged, ?_, ?_, ?_, ?_⟩
  · rcases hdone with ⟨hnone, -⟩ | ⟨hone, -⟩ <;> omega
  · intro hone
    have hclosed := (hdone.resolve_left (by rintro ⟨hnone, -⟩; omega)).2
    have hlinkage := h.linkage hi hi' initial turning
    rw [hpositions, herror]
    exact ⟨hlinkage.norm_eq_zero hclosed.separation, _, _, a.get?_poses (·.position) hwell hi,
      a.get?_poses (·.position) hwell hi', hclosed.separation⟩
  · intro part hpart hx hy
    obtain ⟨m, hm⟩ := List.mem_iff_getElem?.1 hpart
    have hother : ∀ j z, a.components[j]? = some z → part.id ≠ z.id → m ≠ j := by
      rintro j z hj hid rfl
      cases hm.symm.trans hj
      exact hid rfl
    rw [hpositions, ← a.pose_initialState hm initial turning]
    refine (a.get?_poses (·.position) hwell hm).trans (congrArg some ?_)
    rcases hdone with ⟨-, rfl, -⟩ | ⟨-, hclosed⟩
    · rfl
    · exact hclosed.positions m (hother i x hi hx) (hother i' y hi' hy)
  · intro part hpart
    obtain ⟨m, hm⟩ := List.mem_iff_getElem?.1 hpart
    have hturned := congrArg Pose.orientation (a.pose_initialState hm initial turning)
    rw [horientations]
    refine (a.get?_poses (·.orientation) hwell hm).trans (congrArg some (Eq.trans ?_ hturned))
    rcases hdone with ⟨-, rfl, -⟩ | ⟨-, hclosed⟩
    · rfl
    · exact hclosed.orientations m

/-- An arm to be held at a reach from a base that stays, and a part that hangs on
neither. -/
noncomputable def crane : Assembly ℝ where
  metadata := ⟨⟨0⟩, "crane", 1, ⟨⟨2000, 1, 1⟩, 0, 0⟩, ⟨⟨2000, 1, 1⟩, 0, 0⟩⟩
  components := [.placed "base" .origin, .placed "arm" ⟨1, 0, 0⟩, .placed "hook" ⟨1, 1, 1⟩]
  constraints := [⟨"held", .fixed "base", none, 1⟩,
    ⟨"reach", .pair (.distance 0.5) "base" "arm", none, 1⟩]

theorem wellFormed_crane : crane.WellFormed := by
  constructor <;> simp [crane, Component.placed, Component.radiusProblem?, Component.radius,
    IdMap.get?, IdMap.empty, Constraint.defect?, Constraint.defect?.ofBond, Bond.ends,
    Relation.defect?]
  norm_num

/-- The crane, in whatever order its parts are listed. -/
theorem single_crane {b : Assembly ℝ} (hcomponents : b.components.Perm crane.components)
    (hconstraints : b.constraints.Perm crane.constraints) :
    b.Single ⟨"reach", .pair (.distance 0.5) "base" "arm", none, 1⟩ (.placed "base" .origin)
      (.placed "arm" ⟨1, 0, 0⟩) 0.5 where
  problems := Assembly.problems_eq_nil_iff.2 (wellFormed_crane.reorder hcomponents hconstraints)
  alone := by
    refine List.perm_singleton.1 ((hconstraints.filter _).trans (.of_eq ?_))
    simp [crane, Bond.isFixed]
  first := hcomponents.mem_iff.2 (by simp [crane])
  second := hcomponents.mem_iff.2 (by simp [crane])
  ne := by simp [Component.placed]
  ends := rfl
  demand := rfl
  free := by
    refine .inr fun other hother => ?_
    have hmem := hconstraints.mem_iff.1 hother
    simp only [crane, List.mem_cons, List.not_mem_nil, or_false] at hmem
    rcases hmem with rfl | rfl <;> simp [Component.placed]
  weight := by norm_num

/-- The arm starts at twice its reach. -/
theorem startSeparation_crane :
    Component.startSeparation .empty (.placed "base" .origin) (.placed "arm" ⟨1, 0, 0⟩) = 1 := by
  show Real.sqrt ((1 - 0) * (1 - 0) + (0 - 0) * (0 - 0) + (0 - 0) * (0 - 0)) = 1
  norm_num

/-- Solving the crane takes a step, and no step has singular pivots. -/
theorem iterations_crane [Readout ℝ] {b : Assembly ℝ} {o : Outcome ℝ} {turning : Bool}
    (hcomponents : b.components.Perm crane.components)
    (hconstraints : b.constraints.Perm crane.constraints)
    (ho : solve { Settings.standard with turning := turning } b .empty = .ok o) :
    o.iterations = 1 ∧ ∀ entry ∈ o.history, entry.singularPivots = 0 := by
  have h := single_crane hcomponents hconstraints
  obtain ⟨i, hi⟩ := List.mem_iff_getElem?.1 h.first
  obtain ⟨i', hi'⟩ := List.mem_iff_getElem?.1 h.second
  obtain ⟨o', s, ho', -, hregular, -, -, -, hdone⟩ :=
    exists_solve_single h (Settings.whole_standard turning) (by simp [Settings.standard]) .empty
      (.inr (lt_of_lt_of_eq (by norm_num) startSeparation_crane.symm)) hi hi'
  cases ho.symm.trans ho'
  refine ⟨(hdone.resolve_left ?_).1, hregular⟩
  rintro ⟨-, -, hclose⟩
  rw [startSeparation_crane] at hclose
  norm_num [Settings.standard] at hclose

/-- The arm of the crane is brought to its reach in one step, and the hook stays. -/
theorem solve_single_crane :
    crane.Single ⟨"reach", .pair (.distance 0.5) "base" "arm", none, 1⟩ (.placed "base" .origin)
      (.placed "arm" ⟨1, 0, 0⟩) 0.5 ∧
    ∀ [Readout ℝ], ∃ o, solve { Settings.standard with turning := true } crane .empty = .ok o ∧
      o.converged = true ∧ o.iterations = 1 ∧ o.error = 0 ∧
      (∃ p q, o.positions.get? "base" = some p ∧ o.positions.get? "arm" = some q ∧
        p.distance q = 0.5) ∧
      o.positions.get? "hook" = some ⟨1, 1, 1⟩ := by
  have h := single_crane (.refl _) (.refl _)
  refine ⟨h, ?_⟩
  intro _
  obtain ⟨o, ho, hconverged, -, hclosed, hstay, -⟩ := solve_single true crane .empty _ _ _ 0.5 h
    (.inr (lt_of_lt_of_eq (by norm_num) startSeparation_crane.symm))
  have hone := (iterations_crane (.refl _) (.refl _) ho).1
  obtain ⟨herror, hreach⟩ := hclosed hone
  exact ⟨o, ho, hconverged, hone, herror, hreach, hstay (.placed "hook" ⟨1, 1, 1⟩)
    (by simp [crane]) (by simp [Component.placed]) (by simp [Component.placed])⟩

end Newton

end Joinery
