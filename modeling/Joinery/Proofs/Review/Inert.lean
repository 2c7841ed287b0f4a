import Mathlib
import Joinery.Proofs.Newton.Contradiction
import Joinery.Proofs.Newton.Inert
import Joinery.Proofs.Review.Agreement
/-!
# Warnings of what does nothing

A constraint on directions does nothing where components do not turn, and a review
says so: it warns of each of them once, in their order, and of none where components
turn. No other finding is about this.
-/

namespace Joinery.Review

open Joinery.Dense Joinery.Newton

/-- What a list of findings says of constraints without effect. -/
def inertAmong (findings : List Finding) : List Finding :=
  findings.filter (·.topic = .inertConstraint)

theorem inertAmong_append (l l' : List Finding) :
    inertAmong (l ++ l') = inertAmong l ++ inertAmong l' := List.filter_append l l'

/-- A report sorts warnings of constraints without effect to the warnings. -/
theorem inertAmong_ofFindings {findings : List Finding} (freedom : Int) (rank : Option Nat)
    (h : ∀ f ∈ inertAmong findings, f.severity = .warning) :
    inertAmong (Report.ofFindings findings freedom rank).warnings = inertAmong findings ∧
      inertAmong (Report.ofFindings findings freedom rank).errors = [] := by
  have hswap : ∀ severity, inertAmong (findings.filter (·.severity = severity)) =
      (inertAmong findings).filter (·.severity = severity) := by
    intro severity
    rw [inertAmong, inertAmong, List.filter_filter, List.filter_filter]
    exact List.filter_congr fun f _ => Bool.and_comm _ _
  unfold Report.ofFindings
  constructor
  · rw [hswap]
    exact List.filter_eq_self.2 fun f hf => by simp [h f hf]
  · rw [hswap]
    exact List.filter_eq_nil_iff.2 fun f hf => by simp [h f hf]

variable {α : Type}

/-! ## Constraints on directions -/

section Inert

variable {con : Constraint String α} {f : Finding}

theorem inert?_eq_some (h : inert? con = some f) :
    f.topic = .inertConstraint ∧ f.severity = .warning := by
  unfold inert? at h
  split at h
  · cases h
    exact ⟨rfl, rfl⟩
  · cases h

theorem inertAmong_inert (l : List (Constraint String α)) :
    inertAmong (l.filterMap inert?) = l.filterMap inert? := by
  refine List.filter_eq_self.2 fun f hf => ?_
  obtain ⟨con, -, hcon⟩ := List.mem_filterMap.1 hf
  exact decide_eq_true (inert?_eq_some hcon).1

theorem severity_inert {l : List (Constraint String α)} :
    ∀ f ∈ l.filterMap inert?, f.severity = .warning := by
  intro f hf
  obtain ⟨con, -, hcon⟩ := List.mem_filterMap.1 hf
  exact (inert?_eq_some hcon).2

/-- Every constraint on directions has a warning with its identifier, and nothing else
has one. -/
theorem constraint_inert (l : List (Constraint String α)) :
    (l.filterMap inert?).map (·.constraint) =
      (l.filter (·.bond.isDirectional)).map fun con => some con.id := by
  induction l with
  | nil => rfl
  | cons con rest ih =>
    rw [List.filterMap_cons, inert?, List.filter_cons]
    cases con.bond.isDirectional with
    | false => exact ih
    | true => exact congrArg (some con.id :: ·) ih

end Inert

/-! ## Findings about something else -/

section Others

variable {f : Finding}

theorem topic_selfReference {con : Constraint String α} (h : selfReference? con = some f) :
    f.topic = .selfReference := by
  unfold selfReference? at h
  split at h <;> cases h
  rfl

theorem topic_anchor {a : Assembly α} (h : f ∈ anchorFindings a) :
    f.topic = .noFixedConstraint := by
  unfold anchorFindings at h
  split at h
  · cases List.mem_singleton.1 h
    rfl
  · cases h

theorem topic_freedom {a : Assembly α} {freedom : Int} (h : f ∈ freedomFindings a freedom) :
    f.topic = .overConstrained ∨ f.topic = .underConstrained := by
  unfold freedomFindings at h
  split at h
  · cases List.mem_singleton.1 h
    exact .inl rfl
  · split at h
    · cases List.mem_singleton.1 h
      exact .inr rfl
    · cases h

theorem topic_redundancy {rank telling : Nat} (h : f ∈ redundancyFindings rank telling) :
    f.topic = .redundantConstraints := by
  unfold redundancyFindings at h
  split at h
  · cases List.mem_singleton.1 h
    rfl
  · cases h

/-- A refusal of the input is about neither the targets nor the directions of
constraints. -/
theorem topic_ofInputError [Readout α] (e : InputError α) :
    (Finding.ofInputError e).topic ≠ .inertConstraint ∧
      (Finding.ofInputError e).topic ≠ .conflictingConstraints := by
  cases e <;> constructor <;> intro h <;> cases h

theorem inertAmong_eq_nil {l : List Finding} (h : ∀ f ∈ l, f.topic ≠ .inertConstraint) :
    inertAmong l = [] :=
  List.filter_eq_nil_iff.2 fun f hf => by simp [h f hf]

theorem inertAmong_selfReference (l : List (Constraint String α)) :
    inertAmong (l.filterMap selfReference?) = [] := by
  refine inertAmong_eq_nil fun f hf => ?_
  obtain ⟨con, -, hcon⟩ := List.mem_filterMap.1 hf
  simp [topic_selfReference hcon]

theorem inertAmong_anchor (a : Assembly α) : inertAmong (anchorFindings a) = [] :=
  inertAmong_eq_nil fun f hf => by simp [topic_anchor hf]

theorem inertAmong_freedom (a : Assembly α) (freedom : Int) :
    inertAmong (freedomFindings a freedom) = [] := by
  refine inertAmong_eq_nil fun f hf => ?_
  rcases topic_freedom hf with h | h <;> simp [h]

variable [Readout α]

theorem inertAmong_ofInputError (errors : List (InputError α)) :
    inertAmong (errors.map Finding.ofInputError) = [] := by
  refine inertAmong_eq_nil fun f hf => ?_
  obtain ⟨e, -, rfl⟩ := List.mem_map.1 hf
  exact (topic_ofInputError e).1

theorem inertAmong_conflicts (l : List (Conflict α)) :
    inertAmong (l.map Conflict.finding) = [] := by
  refine inertAmong_eq_nil fun f hf => ?_
  obtain ⟨conflict, -, rfl⟩ := List.mem_map.1 hf
  exact fun h => by cases h

end Others

/-! ## Reviews -/

variable [Scalar α] [Readout α] {c : Settings α} {a : Assembly α}

theorem inertAmong_plain (c : Settings α) (a : Assembly α) :
    inertAmong (plainFindings c a) = if c.turning then [] else a.constraints.filterMap inert? := by
  unfold plainFindings
  rw [inertAmong_append, inertAmong_append, inertAmong_append, inertAmong_append,
    inertAmong_selfReference, inertAmong_conflicts, inertAmong_anchor, inertAmong_freedom]
  split
  · rfl
  · simp [inertAmong_inert]

section SingularValues

variable {singularValues? : Matrix α → Except Breach (List α)}

/-- What a review finds at a linkage, or at an assembly without one, is about neither the
targets nor the directions of constraints. -/
theorem topic_late {late : List Finding} {rank : Option Nat}
    (h : rankFindings? singularValues? c a = .ok (late, rank)) :
    ∀ f ∈ late, f.topic ≠ .inertConstraint ∧ f.topic ≠ .conflictingConstraints := by
  unfold rankFindings? at h
  split at h
  case h_1 =>
    obtain ⟨slopes, -, h⟩ := bind_eq_ok h
    obtain ⟨⟨rank, telling⟩, -, h⟩ := bind_eq_ok h
    cases h
    intro f hf
    simp [topic_redundancy hf]
  case h_2 e _ =>
    cases h
    intro f hf
    cases List.mem_singleton.1 hf
    exact topic_ofInputError e
  case h_3 => cases h

theorem rankFindings?_total (hvalues : ∀ m, ∃ values, singularValues? m = .ok values)
    (c : Settings α) (a : Assembly α) :
    ∃ late rank, rankFindings? singularValues? c a = .ok (late, rank) := by
  rcases link?_total a .empty c.turning with ⟨L, hL⟩ | ⟨e, he⟩
  · obtain ⟨late, rank, h⟩ := rankFindings?_of_linked hvalues hL
    exact ⟨late, some rank, h⟩
  · refine ⟨[.ofInputError e], none, ?_⟩
    rw [rankFindings?, he]
    rfl

/-- What a review puts together before it sorts. -/
theorem reviewBy?_total (hvalues : ∀ m, ∃ values, singularValues? m = .ok values)
    (c : Settings α) (a : Assembly α) :
    ∃ late rank,
      (∀ f ∈ late, f.topic ≠ .inertConstraint ∧ f.topic ≠ .conflictingConstraints) ∧
      reviewBy? singularValues? c a =
        .ok (.ofFindings (a.problems.map .ofInputError ++ plainFindings c a ++ late)
          (a.freedom c.turning) rank) := by
  unfold reviewBy?
  dsimp only
  split
  case isTrue =>
    obtain ⟨late, rank, hrank⟩ := rankFindings?_total hvalues c a
    rw [hrank]
    exact ⟨late, rank, topic_late hrank, rfl⟩
  case isFalse => exact ⟨[], none, by simp, rfl⟩

/-- A review warns of every constraint that has no effect once, and says so of nothing
else. -/
theorem inert_warnings (hvalues : ∀ m, ∃ values, singularValues? m = .ok values)
    (c : Settings α) (a : Assembly α) :
    ∃ report, reviewBy? singularValues? c a = .ok report ∧
      inertAmong report.warnings = (if c.turning then [] else a.constraints.filterMap inert?) ∧
      inertAmong report.errors = [] := by
  obtain ⟨late, rank, htopic, hreport⟩ := reviewBy?_total hvalues c a
  have hlate : inertAmong late = [] := inertAmong_eq_nil fun f hf => (htopic f hf).1
  have hfindings : inertAmong (a.problems.map Finding.ofInputError ++ plainFindings c a ++ late) =
      if c.turning then [] else a.constraints.filterMap inert? := by
    rw [inertAmong_append, inertAmong_append, inertAmong_ofInputError, inertAmong_plain, hlate,
      List.append_nil, List.nil_append]
  have hseverity : ∀ f ∈ inertAmong (a.problems.map Finding.ofInputError ++ plainFindings c a ++
      late), f.severity = .warning := by
    rw [hfindings]
    split
    · simp
    · exact severity_inert
  have hsorted := inertAmong_ofFindings (a.freedom c.turning) rank hseverity
  rw [hfindings] at hsorted
  exact ⟨_, hreport, hsorted⟩

end SingularValues

/-! ## Constraints on directions where nothing turns -/

/-- Where components do not turn, constraints on directions have no effect: in every
state their rows are zero, and a step is that of the assembly without them; in every
solve they deviate at the end as at the start, and one that is off by the tolerance keeps
the solve from converging; and a review warns of each of them, but of none where
components turn. -/
theorem directions_inert :
    (∀ (a : Assembly ℝ) (initial : PositionMap ℝ) (L : Linkage ℝ),
      a.link? initial false = .ok L →
        ∃ L', a.undirected.link? initial false = .ok L' ∧
          ∀ s : Array ℝ, s.size = L.size →
            (∀ step, ∃ slopes, L.slopes? s step = .ok slopes ∧
              ∀ (i : Nat) (con : Constraint String ℝ), a.constraints[i]? = some con →
                con.bond.isDirectional = true → slopes.row i = Array.replicate L.size 0) ∧
            ∀ (c : Settings ℝ) (r r' : Run ℝ), r.stand = ⟨s, L.deviations s⟩ →
              r'.stand = ⟨s, L'.deviations s⟩ →
                ∃ t t', r.probe? L c = .ok t ∧ r'.probe? L' c = .ok t' ∧
                  t'.correction = t.correction) ∧
    (∀ [Readout ℝ] (c : Settings ℝ) (a : Assembly ℝ) (initial : PositionMap ℝ) (o : Outcome ℝ),
      c.turning = false → solve c a initial = .ok o →
        ∀ (i : Nat) (con : Constraint String ℝ), a.constraints[i]? = some con →
          con.bond.isDirectional = true →
            ∃ d, con.errorIn a initial = .ok d ∧ o.deviations[i]? = some d ∧
              (c.tolerance ≤ |d| → o.status ≠ .converged ∧ o.converged = false)) ∧
    ∀ [Readout ℝ] (singularValues? : Matrix ℝ → Except Breach (List ℝ)),
      (∀ m, ∃ values, singularValues? m = .ok values) →
        ∀ (c : Settings ℝ) (a : Assembly ℝ),
          ∃ report, reviewBy? singularValues? c a = .ok report ∧
            inertAmong report.errors = [] ∧
            (inertAmong report.warnings).map (·.constraint) =
              if c.turning then []
              else (a.constraints.filter (·.bond.isDirectional)).map fun con => some con.id := by
  refine ⟨?_, ?_, ?_⟩
  · intro a initial L hL
    have hU := Assembly.link?_undirected hL
    refine ⟨L.undirected, hU, ?_⟩
    obtain ⟨hwell, -, rfl⟩ := Assembly.link?_eq_ok_iff.1 hL
    have hsound := Linkage.sound_linkage hwell initial false
    have hsound' : (a.linkage initial false).undirected.Sound := by
      refine hsound.undirected ?_
      rw [← Assembly.linkage_undirected]
      exact Linkage.regular_linkage _ _ _
    intro s hs
    constructor
    · intro step
      refine ⟨_, if_pos (hsound.canRead hs), ?_⟩
      intro i con hi hd
      have hlinked : (a.linkage initial false).constraints[i]? =
          some (con.linked (a.components.map (·.id))) := by
        simp [Assembly.linkage, hi]
      obtain ⟨hlt, heq⟩ := List.getElem?_eq_some_iff.1 hlinked
      rw [Linkage.row_slopes _ s step hlt, heq]
      refine Linkage.slopeRow_inert (Bond.not_reads rfl ?_) s step
      simpa [Constraint.linked] using hd
    · intro c r r' hr hr'
      exact probe?_undirected hsound hsound' rfl hs c hr hr'
  · intro _ c a initial o hc ho i con hi hd
    obtain ⟨d, herror, hdeviation⟩ := deviation_inert_of_solve hc ho hi hd
    exact ⟨d, herror, hdeviation, not_converged_of_inert ho hdeviation⟩
  · intro _ singularValues? hvalues c a
    obtain ⟨report, hreport, hwarnings, herrors⟩ := inert_warnings hvalues c a
    refine ⟨report, hreport, herrors, ?_⟩
    rw [hwarnings]
    split
    · rfl
    · exact constraint_inert a.constraints

/-- Two components that are to be at right angles, and point the same way. -/
noncomputable def askew : Assembly ℝ := quarrel .tangent .perpendicular

theorem cosine_aligned : (EulerAngles.identity : EulerAngles ℝ).direction.cosine
    EulerAngles.identity.direction = 1 := by
  have hdirection : (EulerAngles.identity : EulerAngles ℝ).direction = ⟨1, 0, 0⟩ := by
    show (⟨_, _, _⟩ : Displacement ℝ) = _
    simp [EulerAngles.rotation, EulerAngles.identity, Displacement.dot, Displacement.xUnit,
      Scalar.sin, Scalar.cos]
  have hlength : (⟨1, 0, 0⟩ : Displacement ℝ).length = 1 := by
    show Real.sqrt (1 * 1 + 0 * 0 + 0 * 0) = 1
    norm_num
  rw [hdirection, Displacement.cosine, hlength]
  norm_num [Displacement.dot, Arithmetic.clamp]

theorem errorIn_askew (con : Constraint String ℝ) (hcon : askew.constraints[1]? = some con) :
    con.errorIn askew .empty = .ok 1 := by
  have hcosine : (1 : ℝ) * (EulerAngles.identity : EulerAngles ℝ).direction.cosine
      EulerAngles.identity.direction = 1 := by
    rw [cosine_aligned, one_mul]
  cases hcon
  exact congrArg Except.ok hcosine

/-- The singular values of a matrix of exact numbers are found. -/
theorem singularValues?_exact (m : Matrix ℝ) : ∃ values, m.singularValues? = .ok values := by
  refine ⟨_, if_pos (.inr (List.all_eq_true.2 fun v _ => ?_))⟩
  rw [Exact.isNaN_eq]
  rfl

/-- Components that do not turn to be at right angles, however long they are solved, and
a review that says why. -/
theorem directions_inert_askew :
    (∃ L L', askew.link? .empty false = .ok L ∧ askew.undirected.link? .empty false = .ok L' ∧
      (∃ slopes, L.slopes? L.initialState 1 = .ok slopes ∧
        slopes.row 1 = Array.replicate L.size 0) ∧
      ∃ t t', (Run.first L coarse).probe? L coarse = .ok t ∧
        (Run.first L' coarse).probe? L' coarse = .ok t' ∧ t'.correction = t.correction) ∧
    (∀ [Readout ℝ], ∃ o, solve coarse askew .empty = .ok o ∧ o.deviations[1]? = some 1 ∧
      o.status ≠ .converged ∧ o.converged = false) ∧
    ∀ [Readout ℝ], ∃ report, reviewBy? Matrix.singularValues? coarse askew = .ok report ∧
      (inertAmong report.warnings).map (·.constraint) = [some "reply"] := by
  refine ⟨?_, ?_, ?_⟩
  · have hwell : askew.WellFormed := wellFormed_quarrel rfl rfl
    have hL : askew.link? .empty false = .ok (askew.linkage .empty false) :=
      Assembly.link?_of_finite Exact.isFinite_eq hwell .empty false
    obtain ⟨L', hL', hstates⟩ := directions_inert.1 askew .empty _ hL
    obtain ⟨hrows, hsteps⟩ := hstates (askew.linkage .empty false).initialState
      (Linkage.regular_linkage _ _ _).size_initialState
    obtain ⟨slopes, hslopes, hrow⟩ := hrows 1
    refine ⟨_, L', hL, hL', ⟨slopes, hslopes, hrow 1 _ rfl rfl⟩, ?_⟩
    obtain ⟨-, -, rfl⟩ := Assembly.link?_eq_ok_iff.1 hL'
    exact hsteps coarse _ _ rfl rfl
  · intro _
    obtain ⟨o, ho⟩ := exists_solve_quarrel .tangent .perpendicular rfl rfl
    obtain ⟨d, herror, hd, hnever⟩ := directions_inert.2.1 coarse askew .empty o rfl ho 1 _ rfl rfl
    rw [errorIn_askew _ rfl] at herror
    cases herror
    refine ⟨o, ho, hd, hnever ?_⟩
    norm_num [coarse]
  · intro _
    obtain ⟨report, hreport, -, hwarnings⟩ :=
      directions_inert.2.2 Matrix.singularValues? singularValues?_exact coarse askew
    exact ⟨report, hreport, hwarnings⟩

end Joinery.Review
