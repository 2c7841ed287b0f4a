import Joinery.Proofs.Newton.Applied
import Joinery.Proofs.Newton.Finiteness
import Joinery.Proofs.Newton.Totality
/-!
# Solving again

The assembly that a solve was applied to can be solved again with the same settings:
its components start from finite numbers, and it is linked to the linkage that starts
where the first run had its best point. So the second run begins with the error that
the first one ended with, it can only do better, and where the first one had converged
it is over at once.
-/

namespace Joinery

open Arithmetic

/-! ## Finite poses -/

namespace Linkage

variable {α : Type} [Scalar α] {L : Linkage α} {s : Array α}

/-- A state in which every member has a finite pose. -/
def PosesFinite (L : Linkage α) (s : Array α) : Prop :=
  ∀ i < L.members.size,
    (L.pose s i).position.isFinite = true ∧ (L.pose s i).orientation.isFinite = true

theorem Regular.posesFinite_initialState (h : L.Regular)
    (hstart : ∀ m ∈ L.members, m.StartsFinite) : L.PosesFinite L.initialState := by
  intro i hi
  rw [h.pose_initialState, startPose_eq hi]
  have hm := hstart _ (Array.getElem_mem hi)
  exact ⟨hm.position, hm.orientation⟩

/-- A linkage starts from finite numbers where a state has finite poses. -/
theorem startsFinite_restartedAt (hstart : ∀ m ∈ L.members, m.StartsFinite)
    (h : L.PosesFinite s) : ∀ m ∈ (L.restartedAt s).members, m.StartsFinite := by
  intro m hm
  obtain ⟨i, hi⟩ := Array.mem_iff_getElem?.1 hm
  rw [getElem?_restartedAt, Option.map_eq_some_iff] at hi
  obtain ⟨original, horiginal, rfl⟩ := hi
  obtain ⟨hlt, -⟩ := Array.getElem?_eq_some_iff.1 horiginal
  exact ⟨(h i hlt).1, (h i hlt).2, (hstart original (Array.mem_of_getElem? horiginal)).radius⟩

/-- The poses of members are listed in their order. -/
theorem getElem?_poses (L : Linkage α) (s : Array α) (i : Nat) :
    (L.poses s)[i]? = L.members[i]?.map fun m => (m.id, L.pose s i) := by
  simp [poses, Function.comp_def]

end Linkage

/-! ## Edited assemblies -/

namespace Assembly

variable {α : Type} [Scalar α] {a : Assembly α} {initial : PositionMap α} {turning : Bool}
  {s : Array α} {now : Stamp} {edits : UInt32}

/-- An assembly that was moved as a state has it has its components there. -/
theorem positions_edited (hwell : a.WellFormed) {orientations : OrientationMap α} :
    (a.edited now edits ((a.linkage initial turning).positions s) orientations).positions =
      (a.linkage initial turning).positions s := by
  refine congrArg IdMap.ofList (List.ext_getElem? fun i => ?_)
  simp only [edited, List.map_map, List.getElem?_map, Linkage.getElem?_poses, getElem?_members]
  cases hi : a.components[i]? with
  | none => rfl
  | some part =>
    have hposition : ((a.linkage initial turning).positions s).get? part.id =
        some ((a.linkage initial turning).pose s i).position :=
      a.get?_poses (·.position) hwell hi
    simp [Component.posed, Component.member, hposition]

/-- Components start from finite numbers if the members that they become do. -/
theorem startsFinite_of_members
    (h : ∀ m ∈ (a.linkage initial turning).members, m.StartsFinite) :
    ∀ part ∈ a.components, (part.member initial).StartsFinite := by
  intro part hpart
  refine h _ ?_
  rw [linkage, List.mem_toArray]
  exact List.mem_map_of_mem hpart

end Assembly

namespace Newton

open Joinery.Dense LawfulOrder LawfulArithmetic

variable {α : Type} [Scalar α] {c : Settings α} {a : Assembly α} {initial : PositionMap α}

/-! ## The best point of a run -/

section Best

variable [LawfulRoot α] [LawfulAngles α]

/-- A state with finite deviations that keeps what no constraint reads has finite
poses. -/
theorem Kept.posesFinite {s : Array α} (h : Kept c a initial s)
    (hf : isFinite (norm ((a.linkage initial c.turning).deviations s)) = true) :
    (a.linkage initial c.turning).PosesFinite s := by
  intro i hi
  have hm := Linkage.startsFinite_members h.startsFinite _ (Array.getElem_mem hi)
  constructor
  · refine Linkage.isFinite_position ?_ fun j hj => h.isFinite_variable hf hj.owns
    rw [Linkage.startPose_eq hi]
    exact hm.position
  · refine Linkage.isFinite_orientation ?_ fun j hj => h.isFinite_variable hf hj.owns
    rw [Linkage.startPose_eq hi]
    exact hm.orientation

/-- The outcome of a solve describes a state with finite poses, whatever error it
started from. -/
theorem posesFinite_of_solve [Readout α] {o : Outcome α} (h : solve c a initial = .ok o) :
    ∃ s, (a.linkage initial c.turning).PosesFinite s ∧
      o.positions = (a.linkage initial c.turning).positions s ∧
      o.orientations = (a.linkage initial c.turning).orientations s ∧
      o.deviations = (a.linkage initial c.turning).deviations s := by
  obtain ⟨hrange, hwell, hfinite, -⟩ := solve_eq_ok_iff.1 h
  obtain ⟨last, hlast, rfl⟩ := solve_eq_ok h
  refine ⟨last.best, ?_, rfl, rfl, rfl⟩
  cases hf : isFinite (Run.first (a.linkage initial c.turning) c).error with
  | true =>
    obtain ⟨htracked, -⟩ := Run.iterate?_tracked hlast hf
    have hkept : Kept c a initial last.best :=
      ⟨hrange, hwell, hfinite, fun j hu => hu.best_last hlast⟩
    exact hkept.posesFinite (htracked.bestError_eq ▸ htracked.isFinite_bestError)
  | false =>
    -- the run was over where it started
    cases Run.iterate?_of_over hlast (by simp [Run.status_first_of_not_isFinite hf])
    exact (Linkage.regular_linkage a initial c.turning).posesFinite_initialState
      (Linkage.startsFinite_members hfinite)

end Best

/-! ## Solves that are over at once -/

section Start

variable [Readout α] {o : Outcome α}

theorem error_le_initialError [LawfulOrder α] (h : solve c a initial = .ok o)
    (hf : isFinite o.initialError = true) : o.error ≤ o.initialError :=
  (chronicle_of_solve h hf).best_le _ List.mem_cons_self

/-- A solve that starts below the tolerance is over at its start. -/
theorem outcome_of_lt [LawfulRoot α] (h : solve c a initial = .ok o)
    (hlt : o.initialError < c.tolerance) :
    (Run.first (a.linkage initial c.turning) c).status = .converged ∧
      o = (Run.first (a.linkage initial c.turning) c).outcome (a.linkage initial c.turning) c
        o.initialError := by
  have hrange := (solve_eq_ok_iff.1 h).1
  obtain ⟨last, hlast, rfl⟩ := solve_eq_ok h
  have hfinite : isFinite (Run.first (a.linkage initial c.turning) c).error = true := by
    by_contra hf
    exact not_norm_lt (Bool.eq_false_of_not_eq_true hf) hrange.tolerance.1 hlt
  have hstatus := Run.status_first.2 ⟨hfinite, hlt⟩
  cases Run.iterate?_of_over hlast (by simp [hstatus])
  exact ⟨hstatus, rfl⟩

end Start

/-! ## The second solve -/

section Again

variable [Readout α] {b : Assembly α} {o again : Outcome α} {s : Array α}

/-- An assembly that is linked to a linkage from a state with finite poses has a solve. -/
theorem exists_solve_again (h : solve c a initial = .ok o) (hb : b.Rearranges a)
    (hlinkage : b.linkage .empty c.turning = (a.linkage initial c.turning).restartedAt s)
    (hposes : (a.linkage initial c.turning).PosesFinite s) :
    ∃ again, solve c b .empty = .ok again := by
  obtain ⟨hrange, hwell, hfinite, -⟩ := solve_eq_ok_iff.1 h
  have hmembers : ∀ m ∈ (b.linkage .empty c.turning).members, m.StartsFinite := by
    rw [hlinkage]
    exact Linkage.startsFinite_restartedAt (Linkage.startsFinite_members hfinite) hposes
  exact solve_of_linked (Settings.check_eq_ok_iff.2 hrange)
    (Assembly.link?_eq_ok_iff.2 ⟨hb.wellFormed hwell, Assembly.startsFinite_of_members hmembers, rfl⟩)

/-- It starts from the error of that state. -/
theorem initialError_again (hagain : solve c b .empty = .ok again)
    (hlinkage : b.linkage .empty c.turning = (a.linkage initial c.turning).restartedAt s) :
    again.initialError = norm ((a.linkage initial c.turning).deviations s) := by
  obtain ⟨last, -, rfl⟩ := solve_eq_ok hagain
  show norm ((b.linkage .empty c.turning).deviations _) = _
  rw [hlinkage, (Linkage.regular_linkage a initial c.turning).deviations_restartedAt]

/-- Where that error is below the tolerance, it describes the state as it is. -/
theorem outcome_again [LawfulRoot α] (hagain : solve c b .empty = .ok again)
    (hlinkage : b.linkage .empty c.turning = (a.linkage initial c.turning).restartedAt s)
    (hlt : again.initialError < c.tolerance) :
    again.converged = true ∧ again.iterations = 0 ∧ again.history = #[] ∧
      again.positions = (a.linkage initial c.turning).positions s ∧
      again.orientations = (a.linkage initial c.turning).orientations s ∧
      again.deviations = (a.linkage initial c.turning).deviations s := by
  have hregular := Linkage.regular_linkage a initial c.turning
  obtain ⟨hstatus, houtcome⟩ := outcome_of_lt hagain hlt
  rw [hlinkage] at hstatus houtcome
  rw [houtcome]
  exact ⟨decide_eq_true hstatus, rfl, rfl, hregular.positions_restartedAt s,
    hregular.orientations_restartedAt s, hregular.deviations_restartedAt s⟩

end Again

/-- Solving the assembly that an outcome was applied to. Only its poses, its version
and the time of its last edit are others. The second solve starts from the error of
the first, ends with none that is larger, and has nothing to do where the first one
had converged. -/
theorem restart_keeps_ground [Readout α] [LawfulRoot α] [LawfulAngles α] (c : Settings α)
    (a : Assembly α) (initial : PositionMap α) (o : Outcome α) (now : Stamp)
    (h : solve c a initial = .ok o) (hversion : a.metadata.version ≤ 4294967293) :
    ∃ b, o.applyTo? now a = .ok b ∧ b.positions = o.positions ∧ b.Rearranges a ∧
      b.metadata = { a.metadata with version := a.metadata.version + 2, modified := now } ∧
      ∃ again, solve c b .empty = .ok again ∧ again.initialError = o.error ∧
        (isFinite o.initialError = true → again.error ≤ o.error) ∧
        (o.converged = true → again.converged = true ∧ again.iterations = 0 ∧
          again.history = #[] ∧ again.positions = o.positions ∧
          again.orientations = o.orientations ∧ again.deviations = o.deviations) := by
  obtain ⟨-, hwell, -, -⟩ := solve_eq_ok_iff.1 h
  obtain ⟨s, hposes, hpositions, horientations, hdeviations⟩ := posesFinite_of_solve h
  have hb : (a.edited now 2 o.positions o.orientations).Rearranges a := Assembly.rearranges_edited
  -- the linkage of the second solve starts from the state that the first one describes
  have hlinkage : (a.edited now 2 o.positions o.orientations).linkage .empty c.turning =
      (a.linkage initial c.turning).restartedAt s := by
    rw [horientations]
    exact Assembly.linkage_edited hwell (.inl ⟨hpositions, rfl⟩)
  obtain ⟨again, hagain⟩ := exists_solve_again h hb hlinkage hposes
  have hinitial : again.initialError = o.error := by
    rw [initialError_again hagain hlinkage, (reports_eq h).1, hdeviations]
  refine ⟨_, Outcome.applyTo?_eq_ok_iff.2 ⟨hversion, rfl⟩, ?_, hb, rfl, again, hagain, hinitial,
    ?_, ?_⟩
  · rw [hpositions]
    exact Assembly.positions_edited hwell
  · intro hf
    rw [← hinitial]
    exact error_le_initialError hagain (hinitial ▸ isFinite_error h hf)
  · intro hconverged
    rw [hpositions, horientations, hdeviations]
    exact outcome_again hagain hlinkage
      (hinitial ▸ (status_eq_converged_iff h).1 ((converged_eq h).1 hconverged))

/-- An arm that reaches for a base listed after it, which is fixed. -/
def lever : Assembly (Flat Float) where
  metadata := ⟨⟨0⟩, "lever", 4294967293, ⟨⟨2000, 1, 1⟩, 0, 0⟩, ⟨⟨2000, 1, 1⟩, 0, 0⟩⟩
  components := [
    ⟨"arm", ⟨1, 1, 0⟩, ⟨0, 0, 1⟩, .empty⟩,
    ⟨"base", ⟨0, 0, 0⟩, .identity, .empty⟩]
  constraints := [
    ⟨"reach", .pair (.distance 2.5) "arm" "base", none, 0.5⟩,
    ⟨"ground", .fixed "base", none, 1⟩]

/-- Settings that let components turn. -/
def loose : Settings (Flat Float) := { Settings.standard with turning := true }

/-- A solve from another place than that of the arm, which converges in steps and is
solved again without one, at the last version that can be edited twice. -/
theorem restart_keeps_ground_lever : ∃ o b again,
    solve loose lever (.ofList [("arm", ⟨0, 5, 1⟩)]) = .ok o ∧ 0 < o.iterations ∧
      o.applyTo? lever.metadata.created lever = .ok b ∧ b.metadata.version = 4294967295 ∧
      solve loose b .empty = .ok again ∧ again.error ≤ o.error ∧ again.iterations = 0 ∧
      again.positions = b.positions := by
  have hsolve : (solve loose lever (.ofList [("arm", ⟨0, 5, 1⟩)])).toOption.any (fun o =>
      o.converged && isFinite o.initialError && decide (0 < o.iterations)) = true := by
    decide +kernel
  obtain ⟨o, ho, hsolve⟩ := exists_eq_ok hsolve
  simp only [Bool.and_eq_true, decide_eq_true_iff] at hsolve
  obtain ⟨⟨hconverged, hfinite⟩, hsteps⟩ := hsolve
  obtain ⟨b, hb, hpositions, -, hmetadata, again, hagain, -, hle, hdone⟩ :=
    restart_keeps_ground loose lever _ o lever.metadata.created ho (by decide)
  obtain ⟨-, hzero, -, hplaces, -⟩ := hdone hconverged
  refine ⟨o, b, again, ho, hsteps, hb, ?_, hagain, hle hfinite, hzero,
    hplaces.trans hpositions.symm⟩
  rw [hmetadata]
  rfl

end Newton

end Joinery
