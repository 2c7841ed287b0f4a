import Mathlib
import Joinery.Proofs.Linkage.Reorder
import Joinery.Proofs.Newton.Shortest
import Joinery.Proofs.Newton.Single
/-!
# Solves in another order

The order of the components and of the constraints decides which pivots are taken and
in which order columns are cleared. It does not decide what a solve finds: as long as
no pivot is singular, a step is the shortest one for its equations, of which there is
one, and the same equations in another order have the same one with its variables in
another order. So the run goes through the states read anew in lockstep.
-/

namespace Joinery

open Joinery.Dense Joinery.Newton

variable {L L' : Linkage ℝ} {home : Nat → Nat} {s : Array ℝ}

/-! ## Vectors in another order -/

namespace Newton

/-- The equation with its row read anew. -/
def Equation.reread (L L' : Linkage ℝ) (home : Nat → Nat) (e : Equation ℝ) : Equation ℝ :=
  ⟨Linkage.reread L L' home e.row, e.deviation⟩

end Newton

namespace Linkage.Reorders

variable (h : L.Reorders L' home)
include h

/-- The variables of one linkage as those of the other. -/
noncomputable def slots : Equiv.Perm (Fin L.size) :=
  Equiv.ofBijective (fun j => ⟨slot L L' home j, h.slot_lt j.isLt⟩) <|
    Finite.injective_iff_bijective.1 fun j j' heq =>
      Fin.ext (h.slot_inj j.isLt j'.isLt (congrArg Fin.val heq))

theorem vec_reread (a : Array ℝ) : vec L.size (reread L L' home a) = vec L.size a ∘ h.slots :=
  funext fun j => getD_reread L' home a j.isLt

theorem norm_reread {a : Array ℝ} (ha : a.size = L.size) :
    norm (reread L L' home a) = norm a := by
  rw [norm_eq_vec (size_reread L L' home a), norm_eq_vec ha, h.vec_reread,
    comp_equiv_dotProduct_comp_equiv]

/-- Reading a state anew and taking a step in it is taking the step first. -/
theorem addScaled_reread (share : ℝ) (step : Array ℝ) (hs : s.size = L.size) :
    addScaled share (reread L L' home step) (reread L L' home s) =
      reread L L' home (addScaled share step s) := by
  refine ext_getD (n := L.size) (by simp) (by simp) ?_
  intro j hj
  rw [getD_addScaled _ _ (by simpa using hj), getD_reread L' home _ hj, getD_reread L' home _ hj,
    getD_reread L' home _ hj, getD_addScaled _ _ (hs.symm ▸ h.slot_lt hj)]

theorem norm_deviations (s : Array ℝ) :
    norm (L'.deviations (reread L L' home s)) = norm (L.deviations s) := by
  rw [Exact.norm_eq, Exact.norm_eq, (h.deviations_reread.map _).sum_eq]

/-! ## Equations in another order -/

theorem tells_reread {e : Equation ℝ} (he : e.row.size = L.size) :
    (e.reread L L' home).tells = e.tells := by
  unfold Equation.tells Equation.reread
  rw [h.norm_reread he]

theorem balanced_reread {e : Equation ℝ} (he : e.row.size = L.size) :
    (e.reread L L' home).balanced = e.balanced.reread L L' home := by
  have hdivisor : divisor? (e.reread L L' home).row = divisor? e.row := by
    unfold divisor?
    rw [show norm (e.reread L L' home).row = norm e.row from h.norm_reread he]
  unfold Equation.balanced
  rw [hdivisor]
  cases divisor? e.row with
  | none => rfl
  | some length =>
    refine congrArg (Equation.mk · _) ?_
    refine ext_getD (n := L.size) (by simp [Equation.reread]) (by simp) ?_
    intro j hj
    have hslot : slot L L' home j < e.row.size := he.symm ▸ h.slot_lt hj
    rw [getD_reread L' home _ hj, getD_of_lt (by simpa [Equation.reread] using hj),
      getD_of_lt (by simpa using hslot), Array.getElem_map, Array.getElem_map, ← getD_of_lt hslot,
      ← getD_reread L' home e.row hj, getD_of_lt (by simpa using hj)]
    rfl

theorem equationAt_reread (c : Settings ℝ) {con : Constraint Nat ℝ} (hcon : con ∈ L'.constraints)
    (hs : s.size = L.size) : L'.equationAt c (reread L L' home s) con =
      (L.equationAt c s (con.renumbered home)).reread L L' home := by
  have hbalanced := h.balanced_reread
    (e := ⟨L.slopeRow s c.slopeStep (con.renumbered home), L.deviation s (con.renumbered home)⟩)
    (L.size_slopeRow s c.slopeStep _)
  unfold equationAt
  rw [h.slopeRow_reread hcon hs, h.deviation_reread hcon]
  dsimp only
  split
  · exact hbalanced
  · rfl

/-- A correction is told the same equations, read anew and in another order. -/
theorem told_reread (c : Settings ℝ) (hs : s.size = L.size) :
    (L'.told c (reread L L' home s)).Perm ((L.told c s).map (Equation.reread L L' home)) := by
  have hequations : L'.constraints.map (L'.equationAt c (reread L L' home s)) =
      ((L'.constraints.map (·.renumbered home)).map (L.equationAt c s)).map
        (Equation.reread L L' home) := by
    rw [List.map_map, List.map_map]
    exact List.map_congr_left fun con hcon => h.equationAt_reread c hcon hs
  have htells : ((L.constraints.map (L.equationAt c s)).map (Equation.reread L L' home)).filter
      Equation.tells = (L.told c s).map (Equation.reread L L' home) := by
    rw [List.filter_map, told]
    refine congrArg (List.map _) (List.filter_congr fun e he => ?_)
    obtain ⟨con, -, rfl⟩ := List.mem_map.1 he
    exact h.tells_reread (L.size_row_equationAt c s con)
  rw [told, hequations, ← htells]
  exact ((h.constraints.map _).map _).filter _

/-- The shortest step for equations read anew is the shortest step read anew. -/
theorem isShortest_reread {told : List (Equation ℝ)} {x : Fin L.size → ℝ}
    (hx : IsShortest told x) :
    IsShortest (told.map (Equation.reread L L' home)) (x ∘ h.slots) := by
  have hproduct : ∀ (e : Equation ℝ) (w : Fin L.size → ℝ),
      vec L.size (e.reread L L' home).row ⬝ᵥ w = vec L.size e.row ⬝ᵥ (w ∘ h.slots.symm) := by
    intro e w
    rw [Equation.reread, h.vec_reread, dotProduct_comp_equiv_symm]
  have hresidual : ∀ e : Equation ℝ,
      (e.reread L L' home).residual (x ∘ h.slots) = e.residual x := by
    intro e
    rw [Equation.residual, hproduct, Function.comp_assoc, Equiv.self_comp_symm]
    rfl
  constructor
  · intro w
    rw [List.map_map, ← hx.least (w ∘ h.slots.symm)]
    refine congrArg List.sum (List.map_congr_left fun e _ => ?_)
    rw [Function.comp_apply, hresidual, hproduct]
  · intro w hw
    rw [← dotProduct_comp_equiv_symm]
    refine hx.shortest _ fun e he => ?_
    rw [← hproduct]
    exact hw _ (List.mem_map_of_mem he)

/-! ## Steps -/

/-- Without singular pivots, corrections in another order lead to what is read anew. -/
theorem alike (c : Settings ℝ) (hpivot : 0 < c.pivotThreshold) {k k' : Correction ℝ}
    (hs : s.size = L.size) (hk : L.correctionAt? c s = .ok k)
    (hk' : L'.correctionAt? c (reread L L' home s) = .ok k') (hregular : k.singularPivots = 0)
    (hregular' : k'.singularPivots = 0) : k.Alike (reread L L' home) s k' := by
  rw [correctionAt?_eq] at hk hk'
  rw [h.size_eq] at hk'
  have htold := h.told_reread c hs
  have hlength : (L'.told c (reread L L' home s)).length = (L.told c s).length := by
    simpa using htold.length_eq
  obtain ⟨hmethod, hrows, hsize⟩ := shape_of_correctionOf? hk
  obtain ⟨hmethod', hrows', hsize'⟩ := shape_of_correctionOf? hk'
  have hshortest := h.isShortest_reread (isShortest_of_correctionOf? hpivot hk hregular)
  have hshortest' := (isShortest_of_correctionOf? hpivot hk' hregular').perm htold
  have hvec : vec L.size k'.step = vec L.size k.step ∘ h.slots := hshortest'.unique hshortest
  have hstep : k'.step = reread L L' home k.step :=
    vec_injective hsize' (size_reread L L' home _) (hvec.trans (h.vec_reread _).symm)
  have hzero : k'.isZero = k.isZero := by
    rw [Bool.eq_iff_iff, isZero_iff hsize', isZero_iff hsize, hvec]
    exact ⟨fun hz => h.slots.surjective.injective_comp_right hz, fun hz => by rw [hz]; rfl⟩
  refine ⟨?_, ?_, ?_, hzero, ?_⟩
  · rw [hmethod, hmethod', hlength]
  · rw [hregular, hregular']
  · rw [hrows, hrows', hlength]
  · intro share
    rw [hstep]
    exact h.addScaled_reread share k.step hs

/-- Linkages in another order step alike where no pivot is singular. -/
theorem carries (c : Settings ℝ) (hpivot : 0 < c.pivotThreshold) :
    Carries L L' c (reread L L' home) (· = 0) where
  size_eq := h.size_eq
  initialState_eq := h.initialState_eq
  norm_deviations s _ := h.norm_deviations s
  corrections _ _ _ hs hk hk' hregular hregular' := h.alike c hpivot hs hk hk' hregular hregular'

/-- The maps that a state is written out to do not hang on the order of members. -/
theorem ofList_poses {β : Type} (f : Pose ℝ → β)
    (hnodup : ((L'.poses (reread L L' home s)).map (·.1)).Nodup) :
    IdMap.ofList ((L'.poses (reread L L' home s)).map fun x => (x.1, f x.2)) =
      IdMap.ofList ((L.poses s).map fun x => (x.1, f x.2)) := by
  refine IdMap.ofList_perm ?_ (h.poses_reread.map _)
  rw [List.map_map]
  exact hnodup

end Linkage.Reorders

/-! ## Solves -/

namespace Newton

variable {a : Assembly ℝ}

/-- The deviation and the report of a constraint in the outcome for a state. -/
theorem getElem?_outcome (c : Settings ℝ) (initial : PositionMap ℝ)
    {con : Constraint String ℝ} {i : Nat} (hi : a.constraints[i]? = some con) (s : Array ℝ) :
    ((a.linkage initial c.turning).deviations s)[i]? =
        some ((a.linkage initial c.turning).deviation s (con.linked (a.components.map (·.id)))) ∧
      (List.zipWith (ConstraintReport.of c) (a.linkage initial c.turning).constraints
          ((a.linkage initial c.turning).deviations s).toList)[i]? =
        some (.of c (con.linked (a.components.map (·.id)))
          ((a.linkage initial c.turning).deviation s (con.linked (a.components.map (·.id))))) := by
  simp [Linkage.deviations, Assembly.linkage, hi]

/-- Where the components and the constraints of an assembly are listed in another order,
and no step of either solve has singular pivots, the outcome is the same, with the
deviation and the report of each constraint at its place. -/
theorem solve_reordered [Readout ℝ] (c : Settings ℝ) (a b : Assembly ℝ) (initial : PositionMap ℝ)
    (hc : c.check = .ok ()) (hproblems : a.problems = [])
    (hcomponents : b.components.Perm a.components)
    (hconstraints : b.constraints.Perm a.constraints) :
    ∃ o p, solve c a initial = .ok o ∧ solve c b initial = .ok p ∧
      ((∀ entry ∈ o.history, entry.singularPivots = 0) →
        (∀ entry ∈ p.history, entry.singularPivots = 0) →
        p = { o with deviations := p.deviations, reports := p.reports } ∧
        p.deviations.size = o.deviations.size ∧ p.reports.length = o.reports.length ∧
        ∀ (i j : Nat) (con : Constraint String ℝ),
          a.constraints[i]? = some con → b.constraints[j]? = some con →
            ∃ (deviation : ℝ) (report : ConstraintReport ℝ),
              o.deviations[i]? = some deviation ∧ o.reports[i]? = some report ∧
                p.deviations[j]? = some deviation ∧ p.reports[j]? = some report) := by
  have hwell := Assembly.problems_eq_nil_iff.1 hproblems
  have hwell' := hwell.reorder hcomponents hconstraints
  obtain ⟨o, ho⟩ := solve_of_finite Exact.isFinite_eq hc hwell initial
  obtain ⟨p, hp⟩ := solve_of_finite Exact.isFinite_eq hc hwell' initial
  refine ⟨o, p, ho, hp, fun hregular hregular' => ?_⟩
  have hreorders := a.reorders_linkage hcomponents hconstraints hwell initial c.turning
  have hpivot : 0 < c.pivotThreshold := (Settings.check_eq_ok_iff.1 hc).pivotThreshold.2
  obtain ⟨s, hs, hpositions, horientations, hdeviations, hreports, houtcome⟩ :=
    (hreorders.carries c hpivot).outcome_eq ho hp
      (fun entry hentry => hregular entry (Array.mem_toList_iff.1 hentry))
      (fun entry hentry => hregular' entry (Array.mem_toList_iff.1 hentry))
  have hkeys : (((b.linkage initial c.turning).poses ((a.linkage initial c.turning).reread
      (b.linkage initial c.turning) (a.home b) s)).map (·.1)).Nodup := by
    rw [b.poses_keys]
    exact hwell'.components_nodup
  have hlength := hconstraints.length_eq
  subst houtcome
  refine ⟨?_, ?_, ?_, ?_⟩
  · congr 1
    · rw [hpositions]
      exact hreorders.ofList_poses Pose.position hkeys
    · rw [horientations]
      exact hreorders.ofList_poses Pose.orientation hkeys
  · simp [hdeviations, Assembly.linkage, hlength]
  · simp [hreports, hdeviations, Assembly.linkage, hlength]
  · intro i j con hi hj
    have hdeviation := hreorders.deviation_reread (s := s)
      (List.mem_map_of_mem (List.mem_of_getElem? hj))
    rw [a.renumbered_linked (List.mem_of_getElem? hj) hwell'] at hdeviation
    obtain ⟨hat, hreport⟩ := getElem?_outcome c initial hi s
    obtain ⟨hat', hreport'⟩ := getElem?_outcome c initial hj
      ((a.linkage initial c.turning).reread (b.linkage initial c.turning) (a.home b) s)
    rw [hdeviation] at hat' hreport'
    rw [hreports, hdeviations]
    exact ⟨_, _, hat, hreport, hat', hreport'⟩

/-- The crane with its parts listed from the last to the first. -/
noncomputable def craneReversed : Assembly ℝ :=
  { crane with
    components := crane.components.reverse
    constraints := crane.constraints.reverse }

/-- The crane is brought to its reach by the same step from whichever end it is listed. -/
theorem solve_reordered_crane :
    (crane.problems = [] ∧ craneReversed.components.Perm crane.components ∧
      craneReversed.constraints.Perm crane.constraints) ∧
    ∀ [Readout ℝ], ∃ o p, solve { Settings.standard with turning := true } crane .empty = .ok o ∧
      solve { Settings.standard with turning := true } craneReversed .empty = .ok p ∧
      o.iterations = 1 ∧ p = { o with deviations := p.deviations, reports := p.reports } ∧
      ∃ deviation report, o.deviations[1]? = some deviation ∧ o.reports[1]? = some report ∧
        p.deviations[0]? = some deviation ∧ p.reports[0]? = some report := by
  have hcomponents : craneReversed.components.Perm crane.components := List.reverse_perm _
  have hconstraints : craneReversed.constraints.Perm crane.constraints := List.reverse_perm _
  have hproblems := (single_crane (.refl crane.components) (.refl crane.constraints)).problems
  refine ⟨⟨hproblems, hcomponents, hconstraints⟩, ?_⟩
  intro _
  obtain ⟨o, p, ho, hp, hsame⟩ := solve_reordered { Settings.standard with turning := true } crane
    craneReversed .empty (Settings.check_eq_ok_iff.2 (Settings.whole_standard true).inRange)
    hproblems hcomponents hconstraints
  obtain ⟨hone, hregular⟩ := iterations_crane (.refl crane.components) (.refl crane.constraints) ho
  obtain ⟨heq, -, -, hplaces⟩ :=
    hsame hregular (iterations_crane hcomponents hconstraints hp).2
  exact ⟨o, p, ho, hp, hone, heq, hplaces 1 0 _ rfl rfl⟩

end Newton

end Joinery
