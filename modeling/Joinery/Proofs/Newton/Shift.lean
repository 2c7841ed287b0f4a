import Mathlib
import Joinery.Proofs.Linkage.Shift
import Joinery.Proofs.Newton.Convergence
import Joinery.Proofs.Newton.Lockstep
/-!
# Solves elsewhere

A solve does not hang on where an assembly is, as long as none of its constraints
holds components to a plane. Where all components are moved together, the slopes and
the deviations stay as they are, so every correction stays too, and the run goes
through the moved states in lockstep.
-/

namespace Joinery

open Joinery.Dense Joinery.Newton

variable {L : Linkage ℝ} {t : Displacement ℝ} {s : Array ℝ}

namespace Linkage

/-- Moving a state and taking a step in it is taking the step first. -/
theorem addScaled_shiftState (share : ℝ) (step : Array ℝ) :
    addScaled share step (L.shiftState t s) = L.shiftState t (addScaled share step s) := by
  unfold addScaled shiftState
  rw [Array.mapIdx_mapIdx, Array.mapIdx_mapIdx]
  congr 1
  funext j x
  simp only [Function.comp_apply]
  cases step[j]? with
  | none => rfl
  | some w => exact add_right_comm x (L.layout.shift t j) (share * w)

theorem Sound.deviations_shifted (h : L.Sound) (hs : s.size = L.size)
    (hmirror : ∀ con ∈ L.constraints, con.bond.isMirror = false) :
    (L.shifted t).deviations (L.shiftState t s) = L.deviations s :=
  congrArg List.toArray <| List.map_congr_left fun con hcon =>
    h.regular.deviation_shifted hs (h.ends_lt con hcon) (hmirror con hcon)

/-- What has to be solved is the same elsewhere. -/
theorem Sound.correctionAt?_shifted (h : L.Sound) (hs : s.size = L.size)
    (hmirror : ∀ con ∈ L.constraints, con.bond.isMirror = false) (c : Settings ℝ) :
    (L.shifted t).correctionAt? c (L.shiftState t s) = L.correctionAt? c s := by
  have hrows : L.constraints.map ((L.shifted t).slopeRow (L.shiftState t s) c.slopeStep) =
      L.constraints.map (L.slopeRow s c.slopeStep) :=
    List.map_congr_left fun con hcon =>
      h.regular.slopeRow_shifted hs (h.ends_lt con hcon) (hmirror con hcon) c.slopeStep
  have hslopes : (L.shifted t).slopes (L.shiftState t s) c.slopeStep = L.slopes s c.slopeStep :=
    congrArg (fun rows : List (Array ℝ) => Matrix.ofRows L.size rows.toArray) hrows
  unfold correctionAt? systemAt
  rw [hslopes, h.deviations_shifted hs hmirror]

/-- A linkage and the same linkage elsewhere step alike. -/
theorem Sound.carries_shifted (h : L.Sound)
    (hmirror : ∀ con ∈ L.constraints, con.bond.isMirror = false) (c : Settings ℝ)
    (t : Displacement ℝ) : Carries L (L.shifted t) c (L.shiftState t) fun _ => True where
  size_eq := rfl
  initialState_eq := h.regular.initialState_shifted
  norm_deviations s hs := by rw [h.deviations_shifted hs hmirror]
  corrections s k k' hs hk hk' _ _ := by
    rw [h.correctionAt?_shifted hs hmirror] at hk'
    cases hk.symm.trans hk'
    exact ⟨rfl, rfl, rfl, rfl, fun share => addScaled_shiftState share k.step⟩

theorem Regular.poses_shifted (h : L.Regular) (hs : s.size = L.size) :
    (L.shifted t).poses (L.shiftState t s) =
      (L.poses s).map fun x => (x.1, x.2.shifted t) := by
  refine List.ext_getElem? fun i => ?_
  by_cases hi : i < L.members.size
  · have hpose := h.pose_shifted (t := t) hs hi
    have hpose' : (L.shifted t).pose (L.shiftState t s) i = (L.pose s i).shifted t := hpose
    simp [poses, Linkage.shifted, hi]
    exact hpose'
  · have hi' := Nat.le_of_not_lt hi
    simp [poses, Linkage.shifted, hi']

end Linkage

namespace Newton

/-- The outcome with all positions moved along a displacement. -/
def Outcome.shifted {α : Type} [Arithmetic α] (o : Outcome α) (t : Displacement α) : Outcome α :=
  { o with positions := o.positions.map (·.shifted t) }

variable {c : Settings ℝ} {a : Assembly ℝ} {initial : PositionMap ℝ} {o p : Outcome ℝ}

theorem isMirror_linkage (hmirror : ∀ con ∈ a.constraints, con.bond.isMirror = false)
    (initial : PositionMap ℝ) (turning : Bool) :
    ∀ con ∈ (a.linkage initial turning).constraints, con.bond.isMirror = false := by
  intro linked hlinked
  obtain ⟨con, hcon, rfl⟩ := List.mem_map.1 hlinked
  rw [Constraint.linked, Bond.isMirror_map]
  exact hmirror con hcon

/-- Where both solves have an outcome, one is the other moved. -/
theorem outcome_shifted [Readout ℝ] (hmirror : ∀ con ∈ a.constraints, con.bond.isMirror = false)
    (ho : solve c a initial = .ok o)
    (hp : solve c (a.shifted t) (initial.map (·.shifted t)) = .ok p) : p = o.shifted t := by
  have hL := Linkage.sound_linkage (solve_eq_ok_iff.1 ho).2.1 initial c.turning
  have hmirror' := isMirror_linkage hmirror initial c.turning
  have hcarries := hL.carries_shifted hmirror' c t
  rw [← Assembly.linkage_shifted] at hcarries
  obtain ⟨s, hs, hpositions, horientations, hdeviations, hreports, rfl⟩ :=
    hcarries.outcome_eq ho hp (fun _ _ => trivial) (fun _ _ => trivial)
  have hposes := hL.regular.poses_shifted (t := t) hs
  rw [Assembly.linkage_shifted, hL.deviations_shifted hs hmirror', ← hdeviations]
  unfold Outcome.shifted
  congr 1
  · rw [hpositions, Linkage.positions, Linkage.positions, hposes, IdMap.map_ofList]
    simp only [List.map_map]
    rfl
  · rw [horientations, Linkage.orientations, Linkage.orientations, hposes]
    simp only [List.map_map]
    rfl
  · exact hreports.symm

/-- Where all components are moved together, and the positions they start from with
them, a solve fails as before or its outcome is the one before with all positions moved. -/
theorem solve_shifted [Readout ℝ] (c : Settings ℝ) (a : Assembly ℝ) (initial : PositionMap ℝ)
    (t : Displacement ℝ) (hmirror : ∀ con ∈ a.constraints, con.bond.isMirror = false) :
    solve c (a.shifted t) (initial.map (·.shifted t)) = (solve c a initial).map (·.shifted t) := by
  cases hc : c.check with
  | error e =>
    unfold solve
    rw [hc]
    rfl
  | ok _ =>
    cases hproblems : a.problems with
    | cons e rest =>
      have hlink : a.link? initial c.turning = .error (.rejected e) := by
        rw [Assembly.link?_eq, hproblems]
        rfl
      have hlink' : (a.shifted t).link? (initial.map (·.shifted t)) c.turning =
          .error (.rejected e) := by
        rw [Assembly.link?_eq, Assembly.problems_shifted, hproblems]
        rfl
      rw [solve_of_unlinked hc hlink, solve_of_unlinked hc hlink']
      rfl
    | nil =>
      have hwell := Assembly.problems_eq_nil_iff.1 hproblems
      have hwell' : (a.shifted t).WellFormed :=
        Assembly.problems_eq_nil_iff.1 ((Assembly.problems_shifted a t).trans hproblems)
      obtain ⟨o, ho⟩ := solve_of_finite Exact.isFinite_eq hc hwell initial
      obtain ⟨p, hp⟩ := solve_of_finite Exact.isFinite_eq hc hwell' (initial.map (·.shifted t))
      rw [ho, hp, outcome_shifted hmirror ho hp]
      rfl

/-- An arm held at a length from its base and in its direction, both free. -/
noncomputable def swingarm : Assembly ℝ where
  metadata := ⟨⟨0⟩, "swingarm", 1, ⟨⟨2000, 1, 1⟩, 0, 0⟩, ⟨⟨2000, 1, 1⟩, 0, 0⟩⟩
  components := [⟨"base", .origin, .identity, .empty⟩, ⟨"arm", ⟨1, 1, 0⟩, ⟨0, 1, 0⟩, .empty⟩]
  constraints := [
    ⟨"length", .pair (.distance 0.5) "base" "arm", none, 1⟩,
    ⟨"aligned", .pair .parallel "base" "arm", none, 1⟩]

theorem wellFormed_swingarm : swingarm.WellFormed := by
  constructor <;> simp [swingarm, Component.radiusProblem?, Component.radius, IdMap.get?,
    IdMap.empty, Constraint.defect?, Constraint.defect?.ofBond, Bond.ends, Relation.defect?]
  norm_num

/-- Where the swing arm starts. -/
noncomputable def swungOut : PositionMap ℝ := .ofList [("arm", ⟨1, 0, 1⟩)]

/-- The swing arm turned and pulled to its length from other places than its own, here
and elsewhere. -/
theorem solve_shifted_swingarm :
    (∀ con ∈ swingarm.constraints, con.bond.isMirror = false) ∧
    ∀ [Readout ℝ], ∃ o, solve { coarse with turning := true } swingarm swungOut = .ok o ∧
      solve { coarse with turning := true } (swingarm.shifted ⟨1, 2, 3⟩)
        (swungOut.map (·.shifted ⟨1, 2, 3⟩)) = .ok (o.shifted ⟨1, 2, 3⟩) := by
  have hmirror : ∀ con ∈ swingarm.constraints, con.bond.isMirror = false := by
    simp [swingarm, Bond.isMirror]
  refine ⟨hmirror, ?_⟩
  intro _
  have hcheck : ({ coarse with turning := true } : Settings ℝ).check = .ok () :=
    Settings.check_eq_ok_iff.2 { inRange_coarse with }
  obtain ⟨o, ho⟩ := solve_of_finite Exact.isFinite_eq hcheck wellFormed_swingarm swungOut
  refine ⟨o, ho, ?_⟩
  rw [solve_shifted _ swingarm swungOut ⟨1, 2, 3⟩ hmirror, ho]
  rfl

end Newton

end Joinery
