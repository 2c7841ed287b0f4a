import Mathlib
import Joinery.Proofs.Newton.Contradiction
import Joinery.Proofs.Newton.Frame
import Joinery.Proofs.Space.Euclid
/-!
# Turning about its own axis

A direction does not depend on how far a component is turned about its first axis. So where
components turn, every one of them has a variable that all constraints ignore: its column of
slopes is zero in every state, and a solve leaves it as it was.
-/

namespace Joinery

open Joinery.Dense Joinery.Newton

/-! ## Directions -/

namespace EulerAngles

theorem direction_congr {e f : EulerAngles ℝ} (hpitch : e.pitch = f.pitch) (hyaw : e.yaw = f.yaw) :
    e.direction = f.direction := by
  rw [direction_eq, direction_eq, hpitch, hyaw]

end EulerAngles

/-! ## Rolls among the variables -/

/-- Whether variable `j` is the roll of component `i`. -/
def Layout.Rolls (l : Layout) (i j : Nat) : Prop :=
  l.turning = true ∧ ∃ k, l.offset? i = some k ∧ j = k + 3

theorem Layout.Rolls.turns {l : Layout} {i j : Nat} (h : l.Rolls i j) : l.Turns i j := by
  obtain ⟨hturning, k, hk, rfl⟩ := h
  refine ⟨k, hk, Nat.le_refl _, ?_⟩
  rw [stride_of_turning hturning]
  omega

namespace Linkage

/-- Whether two states differ in rolls at most. -/
def AgreeUpToRoll {α : Type} [Scalar α] (L : Linkage α) (s s' : Array α) : Prop :=
  ∀ j, (∀ i, ¬L.layout.Rolls i j) → s.getD j 0 = s'.getD j 0

variable {L : Linkage ℝ} {s s' : Array ℝ} {i j : Nat}

/-- No coordinate of a member is the roll of any. -/
theorem Regular.not_rolls_of_places (h : L.Regular) (hj : L.layout.Places i j) (i' : Nat) :
    ¬L.layout.Rolls i' j := by
  intro hrolls
  cases h.owner_unique hj.owns hrolls.turns.owns
  exact hj.not_turns hrolls.turns

/-- No other angle of a member is the roll of any. -/
theorem Regular.not_rolls_of_turns (h : L.Regular) (hj : L.layout.Turns i j)
    (hne : ¬L.layout.Rolls i j) (i' : Nat) : ¬L.layout.Rolls i' j := by
  intro hrolls
  cases h.owner_unique hj.owns hrolls.turns.owns
  exact hne hrolls

theorem agree_setIfInBounds (hj : L.layout.Rolls i j) (s : Array ℝ) (x : ℝ) :
    L.AgreeUpToRoll (s.setIfInBounds j x) s := by
  intro j' hj'
  refine getD_setIfInBounds_of_ne ?_ x
  rintro rfl
  exact hj' i hj

variable (hL : L.Regular)
include hL

theorem position_of_agree (h : L.AgreeUpToRoll s s') (i : Nat) :
    (L.pose s i).position = (L.pose s' i).position :=
  position_congr fun j hj => h j (hL.not_rolls_of_places hj)

/-- Members point the same way in states that differ in rolls at most. -/
theorem direction_of_agree (h : L.AgreeUpToRoll s s') (i : Nat) :
    (L.body s i).direction = (L.body s' i).direction := by
  show (L.pose s i).orientation.direction = (L.pose s' i).orientation.direction
  unfold pose
  cases hk : L.layout.offset? i with
  | none => rfl
  | some k =>
    dsimp only
    split
    case isFalse => rfl
    case isTrue hturning =>
      have hstride : L.layout.stride = 6 := Layout.stride_of_turning hturning
      have hangle : ∀ t, 3 < t → t < 6 → s.getD (k + t) 0 = s'.getD (k + t) 0 := by
        intro t hlt hlt'
        refine h _ (hL.not_rolls_of_turns ⟨k, hk, by omega, by omega⟩ ?_)
        rintro ⟨-, k', hk', heq⟩
        rw [hk] at hk'
        cases hk'
        omega
      exact EulerAngles.direction_congr (hangle 4 (by omega) (by omega))
        (hangle 5 (by omega) (by omega))

/-- No deviation depends on a roll. -/
theorem deviation_of_agree (h : L.AgreeUpToRoll s s') (con : Constraint Nat ℝ) :
    L.deviation s con = L.deviation s' con := by
  refine deviation_congr_ends fun _ i _ => ?_
  split
  · exact direction_of_agree hL h i
  · exact position_of_agree hL h i

theorem deviations_of_agree (h : L.AgreeUpToRoll s s') : L.deviations s = L.deviations s' := by
  unfold deviations
  rw [List.map_congr_left fun con _ => deviation_of_agree hL h con]

/-- Every constraint ignores every roll. -/
theorem ignores_of_rolls (hj : L.layout.Rolls i j) (con : Constraint Nat ℝ) : L.Ignores con j where
  deviation_eq s x := deviation_of_agree hL (agree_setIfInBounds hj s x) con
  not_places _ _ _ _ hplaces := hL.not_rolls_of_places hplaces i hj

/-- The slope of every constraint with a roll is zero. -/
theorem entry_slopes_of_rolls (hj : L.layout.Rolls i j) (s : Array ℝ) (step : ℝ) {r : Nat}
    (hr : r < L.constraints.length) : (L.slopes s step).entry r j = 0 := by
  have hlt : j < L.size := by
    obtain ⟨k, hk, -, hlt⟩ := hj.turns
    exact Nat.lt_of_lt_of_le hlt (hL.offset_add_le hk)
  exact Exact.blank_iff.1
    (slopes_blank hlt (fun con _ => ignores_of_rolls hL hj con) step r (by simpa using hr))

end Linkage

/-! ## Solves -/

namespace Newton

section Kept

variable {c : Settings ℝ} {a : Assembly ℝ} {initial : PositionMap ℝ} {s : Array ℝ} {i : Nat}
  {part : Component ℝ}

/-- A state that keeps what is ignored keeps every roll. -/
theorem Kept.roll_eq (h : Kept c a initial s) (hi : a.components[i]? = some part) :
    ((a.linkage initial c.turning).pose s i).orientation.roll = part.orientation.roll := by
  have hregular := Linkage.regular_linkage a initial c.turning
  have hstart : ((a.linkage initial c.turning).startPose i).orientation = part.orientation := by
    rw [a.startPose_linkage hi]
    rfl
  cases hturning : (a.linkage initial c.turning).layout.turning with
  | false => rw [Linkage.orientation_of_still hturning, hstart]
  | true =>
    unfold Linkage.pose
    cases hk : (a.linkage initial c.turning).layout.offset? i with
    | none => exact congrArg EulerAngles.roll hstart
    | some k =>
      have hrolls : (a.linkage initial c.turning).layout.Rolls i (k + 3) := ⟨hturning, k, hk, rfl⟩
      have hidle := h.idle_of_owns hrolls.turns.owns fun con _ =>
        Linkage.ignores_of_rolls hregular hrolls con
      have hstride : (a.linkage initial c.turning).layout.stride = 6 := Layout.stride_of_turning hturning
      dsimp only
      rw [if_pos hturning, Exact.beq_iff.1 (h.idle _ hidle),
        hregular.getD_initialState hk (by omega), hturning, ← hstart]
      rfl

end Kept

/-- A roll is never solved. Directions do not depend on it; where components turn, no
deviation does either, and its column of slopes is zero in every state; and in every outcome
each component has the roll that it had, whatever constrains it. -/
theorem roll_unsolved :
    (∀ (e : EulerAngles ℝ) (roll : ℝ), { e with roll := roll }.direction = e.direction) ∧
    (∀ (a : Assembly ℝ) (initial : PositionMap ℝ) (L : Linkage ℝ), a.link? initial true = .ok L →
      (∀ s s' : Array ℝ, s.size = L.size → s'.size = L.size → L.AgreeUpToRoll s s' →
        ∃ deviations, L.deviations? s = .ok deviations ∧ L.deviations? s' = .ok deviations) ∧
      ∀ (s : Array ℝ) (step : ℝ), s.size = L.size → ∃ slopes, L.slopes? s step = .ok slopes ∧
        slopes.rows = a.constraints.length ∧
        ∀ i j, L.layout.Rolls i j → ∀ r < slopes.rows, slopes.entry r j = 0) ∧
    ∀ [Readout ℝ] (c : Settings ℝ) (a : Assembly ℝ) (initial : PositionMap ℝ) (o : Outcome ℝ),
      solve c a initial = .ok o → ∀ part ∈ a.components,
        ∃ e, o.orientations.get? part.id = some e ∧ e.roll = part.orientation.roll := by
  refine ⟨?_, ?_, ?_⟩
  · intro e roll
    exact EulerAngles.direction_congr rfl rfl
  · intro a initial L hL
    obtain ⟨hwell, -, rfl⟩ := Assembly.link?_eq_ok_iff.1 hL
    have hsound := Linkage.sound_linkage hwell initial true
    constructor
    · intro s s' hs hs' hagree
      refine ⟨_, hsound.deviations?_eq hs, ?_⟩
      rw [hsound.deviations?_eq hs', Linkage.deviations_of_agree hsound.regular hagree]
    · intro s step hs
      have hrows : ((a.linkage initial true).slopes s step).rows = a.constraints.length := by
        simp [Assembly.linkage]
      refine ⟨_, if_pos (hsound.canRead hs), hrows, fun i j hj r hr => ?_⟩
      exact Linkage.entry_slopes_of_rolls hsound.regular hj s step (by simpa using hr)
  · intro _ c a initial o ho part hpart
    obtain ⟨i, hi⟩ := List.mem_iff_getElem?.1 hpart
    obtain ⟨s, hkept, -, horientations, -⟩ := kept_of_solve ho
    rw [horientations]
    exact ⟨_, a.get?_poses (·.orientation) hkept.wellFormed hi, hkept.roll_eq hi⟩

/-- A shaft that is turned every way, to be parallel to its bearing. -/
noncomputable def spindle : Assembly ℝ where
  metadata := ⟨⟨0⟩, "spindle", 1, ⟨⟨2000, 1, 1⟩, 0, 0⟩, ⟨⟨2000, 1, 1⟩, 0, 0⟩⟩
  components := [
    ⟨"bearing", .origin, ⟨1, 0, 0⟩, .empty⟩,
    ⟨"shaft", ⟨1, 0, 0⟩, ⟨0.5, 1, 1⟩, .empty⟩]
  constraints := [
    ⟨"mount", .fixed "bearing", none, 1⟩,
    ⟨"fit", .pair .parallel "bearing" "shaft", none, 1⟩]

theorem wellFormed_spindle : spindle.WellFormed := by
  constructor <;> simp [spindle, Component.radiusProblem?, Component.radius, IdMap.get?,
    IdMap.empty, Constraint.defect?, Constraint.defect?.ofBond, Bond.ends, Relation.defect?]

/-- The roll of the shaft is a variable of its own, but it is the same after a solve. -/
theorem roll_unsolved_spindle :
    (⟨0.5, 1, 1⟩ : EulerAngles ℝ).direction = (⟨0, 1, 1⟩ : EulerAngles ℝ).direction ∧
    (∃ L, spindle.link? .empty true = .ok L ∧ L.layout.Rolls 1 3 ∧ L.size = 6 ∧
      (∃ deviations, L.deviations? #[1, 0, 0, 0.5, 1, 1] = .ok deviations ∧
        L.deviations? #[1, 0, 0, 0, 1, 1] = .ok deviations) ∧
      ∃ slopes, L.slopes? #[1, 0, 0, 0.5, 1, 1] 1 = .ok slopes ∧ slopes.rows = 2 ∧
        slopes.entry 1 3 = 0) ∧
    ∀ [Readout ℝ], ∃ o, solve { coarse with turning := true } spindle .empty = .ok o ∧
      ∃ e, o.orientations.get? "shaft" = some e ∧ e.roll = 0.5 := by
  refine ⟨(roll_unsolved.1 ⟨0.5, 1, 1⟩ 0).symm, ?_, ?_⟩
  · have hL := Assembly.link?_of_finite Exact.isFinite_eq wellFormed_spindle .empty true
    obtain ⟨hdeviations, hslopes⟩ := roll_unsolved.2.1 spindle .empty _ hL
    have hrolls : (spindle.linkage .empty true).layout.Rolls 1 3 := ⟨rfl, 0, rfl, rfl⟩
    obtain ⟨slopes, hok, hrows, hzero⟩ := hslopes #[1, 0, 0, 0.5, 1, 1] 1 rfl
    refine ⟨_, hL, hrolls, rfl, ?_, slopes, hok, hrows, hzero 1 3 hrolls 1 (by rw [hrows]; decide)⟩
    exact hdeviations _ _ rfl rfl
      (Linkage.agree_setIfInBounds hrolls #[1, 0, 0, 0, 1, 1] 0.5)
  · intro _
    have hcheck : ({ coarse with turning := true } : Settings ℝ).check = .ok () :=
      Settings.check_eq_ok_iff.2 { inRange_coarse with }
    obtain ⟨o, ho⟩ := solve_of_finite Exact.isFinite_eq hcheck wellFormed_spindle .empty
    exact ⟨o, ho, roll_unsolved.2.2 _ spindle .empty o ho
      ⟨"shaft", ⟨1, 0, 0⟩, ⟨0.5, 1, 1⟩, .empty⟩ (by simp [spindle])⟩

end Newton

end Joinery
