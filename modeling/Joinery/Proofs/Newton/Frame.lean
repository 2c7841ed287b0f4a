import Joinery.Proofs.Linkage.Poses
import Joinery.Proofs.Newton.Convergence
import Joinery.Proofs.Newton.Correction
/-!
# What a solve leaves where it is

A variable that every constraint ignores has a blank column of slopes, and so a
correction of zero in every step. The damping stays a share of one, so the
damped move is one by zero as well, and the variable keeps its value through
improvements, drifts and rollbacks (`Run.Keeps`). What a component keeps follows
from the constraints that name it.
-/

namespace Joinery.Assembly

variable {α : Type}

/-- Whether no constraint of an assembly relates the place of a component to that
of another. -/
def LeavesPlace (a : Assembly α) (id : String) : Prop :=
  ∀ con ∈ a.constraints, id ∈ con.bond.ends → con.bond.isFixed = true ∨ con.bond.isDirectional = true

/-- Whether no constraint of an assembly relates the direction of a component to
that of another. -/
def LeavesDirection (a : Assembly α) (id : String) : Prop :=
  ∀ con ∈ a.constraints, id ∈ con.bond.ends → con.bond.isDirectional = false

end Joinery.Assembly

namespace Joinery.Newton

open Joinery.Dense Joinery.Arithmetic LawfulOrder LawfulArithmetic

/-! ## Shares -/

/-- A number between nothing and all of something. -/
def Share {α : Type} [Arithmetic α] (x : α) : Prop := 0 ≤ x ∧ x ≤ 1

section Share

variable {α : Type} [Arithmetic α] [LawfulArithmetic α] {x y z : α}

theorem Share.isFinite (h : Share x) : isFinite x = true :=
  isFinite_between isFinite_zero isFinite_one h.1 h.2

/-- A share that grows, but to no more than all. -/
theorem Share.min_mul (h : Share x) (hy : 1 ≤ y) : Share (Arithmetic.min (x * y) 1) := by
  have hone : (1 : α) ≤ 1 := refl_of_isFinite isFinite_one
  have hzero : (0 : α) ≤ 1 := le_of_lt zero_lt_one
  unfold Arithmetic.min
  split
  case isTrue => exact ⟨hzero, hone⟩
  case isFalse hle =>
    split
    case isTrue => exact ⟨hzero, hone⟩
    case isFalse hnan =>
      -- only here is the product itself the share, so it is a number and at most one
      have hnan' : isNaN (x * y) = false := by simpa using hnan
      refine ⟨mul_nonneg h.1 (trans hzero hy) hnan', ?_⟩
      exact le_of_not_lt (isNaN_of_isFinite isFinite_one) hnan' hle

/-- A share that shrinks, but to no less than some share. -/
theorem Share.max_mul (hx : Share x) (hy : Share y) (hz : Share z) :
    Share (Arithmetic.max (x * y) z) := by
  unfold Arithmetic.max
  split
  case isTrue => exact hz
  case isFalse =>
    split
    case isTrue => exact hz
    case isFalse hnan =>
      exact ⟨mul_nonneg hx.1 hy.1 (by simpa using hnan), mul_le_one hx.1 hx.2 hy.1 hy.2⟩

theorem Settings.InRange.share_minDamping {c : Settings α} (h : c.InRange) : Share c.minDamping :=
  ⟨le_of_lt h.minDamping.2, trans h.damping.1 h.damping.2⟩

/-- A finite entry stays where it is if the other vector has a zero there. -/
theorem addScaled_zero {s : α} {v w : Array α} {j : Nat} (hs : Arithmetic.isFinite s = true)
    (hv : Arithmetic.isFinite (v.getD j 0) = true) (hw : (w.getD j 0 == 0) = true) :
    ((addScaled s w v).getD j 0 == v.getD j 0) = true := by
  rw [Array.getD_eq_getD_getElem?] at hv hw ⊢
  rw [Array.getD_eq_getD_getElem?, addScaled, Array.getElem?_mapIdx]
  cases hvj : v[j]? with
  | none => exact beq_refl isFinite_zero
  | some x =>
    rw [hvj] at hv
    cases hwj : w[j]? with
    | none => exact beq_refl hv
    | some y =>
      rw [hwj] at hw
      exact add_mul_zero hv hs hw

end Share

/-! ## Runs -/

variable {α : Type} [Scalar α] [LawfulArithmetic α] {L : Linkage α} {c : Settings α} {r : Run α}
  {t : Trial α} {j : Nat}

omit [LawfulArithmetic α] in
theorem cols_system : (r.system L c).1.cols = L.size := by
  unfold Run.system
  dsimp only
  split <;> rfl

/-- The system of a run has a blank column for a variable that every constraint
ignores, balanced or not. -/
theorem system_blank (hj : j < L.size) (h : ∀ con ∈ L.constraints, L.Ignores con j) :
    (r.system L c).1.BlankColumn j := by
  have hslopes := Linkage.slopes_blank (s := r.stand.point) hj h c.slopeStep
  unfold Run.system
  dsimp only
  split
  · exact balanced_blank hslopes hj _
  · exact hslopes

/-- A run whose damping is a share, and where variable `j` is where it started. -/
structure Run.Keeps (L : Linkage α) (j : Nat) (r : Run α) : Prop where
  share : Share r.damping
  stand : (r.stand.point.getD j 0 == L.initialState.getD j 0) = true
  best : (r.best.getD j 0 == L.initialState.getD j 0) = true

/-- A trial that, if it leads anywhere, leads to where variable `j` started. -/
def Trial.Keeps (L : Linkage α) (j : Nat) (t : Trial α) : Prop :=
  ∀ stand, t.stand? = some stand → (stand.point.getD j 0 == L.initialState.getD j 0) = true

/-- What a run needs to keep a variable: its settings are in range, the variable
is one of the state and finite at its start, and every constraint ignores it. -/
structure Idle (L : Linkage α) (c : Settings α) (j : Nat) : Prop where
  inRange : c.InRange
  lt_size : j < L.size
  isFinite_start : isFinite (L.initialState.getD j 0) = true
  ignored : ∀ con ∈ L.constraints, L.Ignores con j

namespace Idle

theorem keeps_first (hu : Idle L c j) : (Run.first L c).Keeps L j :=
  ⟨⟨trans hu.inRange.share_minDamping.1 hu.inRange.damping.1, hu.inRange.damping.2⟩,
    beq_refl hu.isFinite_start, beq_refl hu.isFinite_start⟩

/-- A trial leaves the variable where it is. -/
theorem keeps_trial (hu : Idle L c j) (h : r.Keeps L j) (ht : r.probe? L c = .ok t) :
    t.Keeps L j := by
  obtain ⟨hk, hreads⟩ := Run.probe?_eq_ok ht
  -- the solver gives a blank column a zero, by whichever method the shape asks for
  have hzero : (t.correction.step.getD j 0 == 0) = true :=
    correction?_blank (system_blank hu.lt_size hu.ignored)
      (by rw [cols_system]; exact hu.lt_size) hu.inRange.pivotThreshold.2 hk
  cases hreads with
  | still k => rintro stand ⟨⟩
  | moved k point hpoint =>
    rintro stand ⟨⟩
    subst hpoint
    -- the move is by a finite share of zero, from where the variable is finite
    have hstand := isFinite_of_beq h.stand hu.isFinite_start
    exact beq_trans (addScaled_zero h.share.isFinite hstand hzero) h.stand

theorem keeps_accept (hu : Idle L c j) (h : r.Keeps L j) (ht : t.Keeps L j) :
    (r.accept c t).Keeps L j := by
  have hshare : Share (Arithmetic.min (r.damping * c.dampingGrowth) 1) :=
    h.share.min_mul hu.inRange.growth.2
  unfold Run.accept
  cases hstand : t.stand? with
  | none => exact ⟨hshare, h.stand, h.best⟩
  | some stand => exact ⟨hshare, ht stand hstand, ht stand hstand⟩

theorem keeps_drift (hu : Idle L c j) (h : r.Keeps L j) (ht : t.Keeps L j) :
    (r.drift c t).Keeps L j := by
  have hshare : Share (Arithmetic.max (r.damping * c.dampingShrink) c.minDamping) :=
    h.share.max_mul ⟨le_of_lt hu.inRange.shrink.1, le_of_lt hu.inRange.shrink.2⟩
      hu.inRange.share_minDamping
  refine Run.drift_cases (P := fun s => s.Keeps L j) ?_ ⟨hshare, h.stand, h.best⟩
  intro stand hstand _
  exact ⟨hshare, ht stand hstand, h.best⟩

/-- A step keeps the variable, wherever it leads. -/
theorem keeps_absorb (hu : Idle L c j) (h : r.Keeps L j) (ht : r.probe? L c = .ok t) :
    (r.absorb L c t).Keeps L j := by
  have htrial := hu.keeps_trial h ht
  have hplaced : (r.placed L c t).Keeps L j := by
    refine Run.placed_cases (P := fun p => p.Keeps L j) ?_ ?_ ?_
    · intro _
      exact hu.keeps_accept h htrial
    · intro _ _
      exact hu.keeps_drift h htrial
    · -- back at the best point, which has kept the variable through the drift
      intro _ _
      have hdrift := hu.keeps_drift h htrial
      exact ⟨hdrift.share, hdrift.best, hdrift.best⟩
  refine ⟨?_, ?_, ?_⟩ <;> simp only [Run.absorb_damping, Run.absorb_stand, Run.absorb_best]
  · exact hplaced.share
  · exact hplaced.stand
  · exact hplaced.best

/-- The best point of a run that is over has the variable where it started. -/
theorem best_last (hu : Idle L c j) {n : Nat} {last : Run α}
    (h : (Run.first L c).iterate? L c n = .ok last) :
    (last.best.getD j 0 == L.initialState.getD j 0) = true := by
  refine (Run.iterate?_induction (P := fun r => r.Keeps L j) ?_ ?_ h hu.keeps_first).best
  · intro r t hr _ ht
    exact hu.keeps_absorb hr ht
  · intro r hr _
    exact { hr with }

end Idle

/-! ## Components -/

/-- What a solve leaves as it was, up to what counts as the same place and the
same orientation. Its maps have the components for keys. A fixed component stays
where it starts and as it is turned, and any component keeps what no constraint
relates to another. -/
structure Leaves {α : Type} (c : Settings α) (a : Assembly α) (initial : PositionMap α)
    (o : Outcome α) (samePlace : Point α → Point α → Prop)
    (sameTurn : EulerAngles α → EulerAngles α → Prop) : Prop where
  positions_keys : o.positions.keys.Perm (a.components.map (·.id))
  orientations_keys : o.orientations.keys.Perm (a.components.map (·.id))
  fixed : ∀ part ∈ a.components, ∀ con ∈ a.constraints, con.bond = .fixed part.id →
    o.positions.get? part.id = some ((initial.get? part.id).getD part.position) ∧
      o.orientations.get? part.id = some part.orientation
  place : ∀ part ∈ a.components, a.LeavesPlace part.id →
    ∃ p, o.positions.get? part.id = some p ∧
      samePlace p ((initial.get? part.id).getD part.position)
  still : c.turning = false → ∀ part ∈ a.components,
    o.orientations.get? part.id = some part.orientation
  direction : c.turning = true → ∀ part ∈ a.components, a.LeavesDirection part.id →
    ∃ e, o.orientations.get? part.id = some e ∧ sameTurn e part.orientation

theorem Leaves.imp {α : Type} {c : Settings α} {a : Assembly α} {initial : PositionMap α}
    {o : Outcome α} {samePlace samePlace' : Point α → Point α → Prop}
    {sameTurn sameTurn' : EulerAngles α → EulerAngles α → Prop}
    (h : Leaves c a initial o samePlace sameTurn) (hplace : ∀ p q, samePlace p q → samePlace' p q)
    (hturn : ∀ e f, sameTurn e f → sameTurn' e f) : Leaves c a initial o samePlace' sameTurn' where
  positions_keys := h.positions_keys
  orientations_keys := h.orientations_keys
  fixed := h.fixed
  place part hpart hfree := by
    obtain ⟨p, hp, hsame⟩ := h.place part hpart hfree
    exact ⟨p, hp, hplace _ _ hsame⟩
  still := h.still
  direction hturning part hpart hfree := by
    obtain ⟨e, he, hsame⟩ := h.direction hturning part hpart hfree
    exact ⟨e, he, hturn _ _ hsame⟩

section Components

variable {α : Type} [Scalar α] {c : Settings α} {a : Assembly α} {initial : PositionMap α}
  {s : Array α} {i j : Nat} {part : Component α}

/-- A state of the linkage of an assembly that could be solved, which keeps every
variable that the constraints ignore. -/
structure Kept (c : Settings α) (a : Assembly α) (initial : PositionMap α) (s : Array α) :
    Prop where
  inRange : c.InRange
  wellFormed : a.WellFormed
  startsFinite : ∀ part ∈ a.components, (part.member initial).StartsFinite
  idle : ∀ j, Idle (a.linkage initial c.turning) c j →
    (s.getD j 0 == (a.linkage initial c.turning).initialState.getD j 0) = true

/-- The outcome of a solve describes a state that keeps what is ignored. -/
theorem kept_of_solve [Readout α] [LawfulArithmetic α] {o : Outcome α}
    (h : solve c a initial = .ok o) :
    ∃ s, Kept c a initial s ∧ o.positions = (a.linkage initial c.turning).positions s ∧
      o.orientations = (a.linkage initial c.turning).orientations s ∧
      o.deviations = (a.linkage initial c.turning).deviations s := by
  obtain ⟨hrange, hwell, hfinite, -⟩ := solve_eq_ok_iff.1 h
  obtain ⟨last, hlast, rfl⟩ := solve_eq_ok h
  exact ⟨last.best, ⟨hrange, hwell, hfinite, fun j hu => hu.best_last hlast⟩, rfl, rfl, rfl⟩

namespace Kept

/-- A variable of a component is idle if every constraint ignores it. -/
theorem idle_of_owns [LawfulArithmetic α] (h : Kept c a initial s)
    (howns : (a.linkage initial c.turning).layout.owns i j = true)
    (hfree : ∀ con ∈ (a.linkage initial c.turning).constraints,
      (a.linkage initial c.turning).Ignores con j) :
    Idle (a.linkage initial c.turning) c j where
  inRange := h.inRange
  lt_size := by
    obtain ⟨k, hk, hle, hlt⟩ := Layout.owns_iff.1 howns
    exact Nat.lt_of_lt_of_le hlt ((Linkage.regular_linkage a initial c.turning).offset_add_le hk)
  isFinite_start :=
    Linkage.isFinite_getD_initialState (Linkage.startsFinite_members h.startsFinite) j
  ignored := hfree

variable (h : Kept c a initial s) (hi : a.components[i]? = some part)

include h hi

/-- A variable of a component stays if no constraint that names the component
reads it. -/
theorem beq_start [LawfulArithmetic α]
    (howns : (a.linkage initial c.turning).layout.owns i j = true)
    (hfree : ∀ con ∈ a.constraints, part.id ∈ con.bond.ends → con.bond.isFixed = false →
      ¬if con.bond.isDirectional then (a.linkage initial c.turning).layout.Turns i j
        else (a.linkage initial c.turning).layout.Places i j) :
    (s.getD j 0 == (a.linkage initial c.turning).initialState.getD j 0) = true := by
  refine h.idle j (h.idle_of_owns howns ?_)
  intro linked hlinked
  refine .of_not_reads fun hreads => ?_
  obtain ⟨con, hcon, rfl⟩ := List.mem_map.1 hlinked
  obtain ⟨hends, hfixed, hread⟩ := a.ends_of_reads h.wellFormed hcon hi howns hreads
  exact hfree con hcon hends hfixed hread

theorem place_beq [LawfulArithmetic α] (hfree : a.LeavesPlace part.id) :
    (((a.linkage initial c.turning).pose s i).position ==
      (part.member initial).start.position) = true := by
  rw [← a.startPose_linkage hi]
  refine (Linkage.regular_linkage a initial c.turning).position_beq ?_ ?_
  · rw [a.startPose_linkage hi]
    exact (h.startsFinite part (List.mem_of_getElem? hi)).position
  · intro j hj
    refine h.beq_start hi hj.owns ?_
    intro con hcon hends hfixed
    -- what else names the component relates directions, and no coordinate is an angle
    have hdirectional := (hfree con hcon hends).resolve_left (by simp [hfixed])
    rw [if_pos hdirectional]
    exact hj.not_turns

theorem orientation_beq [LawfulArithmetic α] (hfree : a.LeavesDirection part.id) :
    (((a.linkage initial c.turning).pose s i).orientation ==
      (part.member initial).start.orientation) = true := by
  rw [← a.startPose_linkage hi]
  refine (Linkage.regular_linkage a initial c.turning).orientation_beq ?_ ?_
  · rw [a.startPose_linkage hi]
    exact (h.startsFinite part (List.mem_of_getElem? hi)).orientation
  · intro j hj
    refine h.beq_start hi hj.owns ?_
    intro con hcon hends _
    rw [if_neg (by simp [hfree con hcon hends])]
    exact fun hplaces => hplaces.not_turns hj

end Kept

/-- A solve leaves what no constraint relates. -/
theorem solve_leaves [Readout α] [LawfulArithmetic α] {o : Outcome α}
    (h : solve c a initial = .ok o) :
    Leaves c a initial o (fun p q => (p == q) = true) (fun e f => (e == f) = true) := by
  obtain ⟨s, hkept, hpositions, horientations, -⟩ := kept_of_solve h
  have hwell := hkept.wellFormed
  have hfind : ∀ part ∈ a.components, ∃ i, a.components[i]? = some part ∧
      o.positions.get? part.id = some ((a.linkage initial c.turning).pose s i).position ∧
      o.orientations.get? part.id = some ((a.linkage initial c.turning).pose s i).orientation := by
    intro part hpart
    obtain ⟨i, hi⟩ := List.mem_iff_getElem?.1 hpart
    rw [hpositions, horientations]
    exact ⟨i, hi, a.get?_poses (·.position) hwell hi, a.get?_poses (·.orientation) hwell hi⟩
  refine ⟨?_, ?_, ?_, ?_, ?_, ?_⟩
  · rw [hpositions]
    exact a.keys_poses (·.position) hwell
  · rw [horientations]
    exact a.keys_poses (·.orientation) hwell
  · intro part hpart con hcon hfixed
    obtain ⟨i, hi, hplace, hturn⟩ := hfind part hpart
    rw [hplace, hturn, a.pose_of_fixed hwell hcon hi hfixed]
    exact ⟨rfl, rfl⟩
  · intro part hpart hfree
    obtain ⟨i, hi, hplace, -⟩ := hfind part hpart
    exact ⟨_, hplace, hkept.place_beq hi hfree⟩
  · intro hturning part hpart
    obtain ⟨i, hi, -, hturn⟩ := hfind part hpart
    rw [hturn, Linkage.orientation_of_still hturning, a.startPose_linkage hi]
    rfl
  · intro _ part hpart hfree
    obtain ⟨i, hi, -, hturn⟩ := hfind part hpart
    exact ⟨_, hturn, hkept.orientation_beq hi hfree⟩

end Components

/-! ## Exact numbers -/

theorem point_eq_of_beq {p q : Point ℝ} (h : (p == q) = true) : p = q := by
  obtain ⟨hx, hy, hz⟩ := Point.beq_iff.1 h
  cases p
  cases q
  cases Exact.beq_iff.1 hx
  cases Exact.beq_iff.1 hy
  cases Exact.beq_iff.1 hz
  rfl

theorem angles_eq_of_beq {e f : EulerAngles ℝ} (h : (e == f) = true) : e = f := by
  obtain ⟨hroll, hpitch, hyaw⟩ := EulerAngles.beq_iff.1 h
  cases e
  cases f
  cases Exact.beq_iff.1 hroll
  cases Exact.beq_iff.1 hpitch
  cases Exact.beq_iff.1 hyaw
  rfl

/-- A solve moves only what the constraints touch: on rounded numbers up to the
sign of a zero, on exact ones exactly. -/
theorem untouched_stay :
    (∀ (α : Type) [Scalar α] [Readout α] [LawfulArithmetic α] (c : Settings α) (a : Assembly α)
        (initial : PositionMap α) (o : Outcome α), solve c a initial = .ok o →
      Leaves c a initial o (fun p q => (p == q) = true) (fun e f => (e == f) = true)) ∧
    ∀ [Readout ℝ] (c : Settings ℝ) (a : Assembly ℝ) (initial : PositionMap ℝ) (o : Outcome ℝ),
      solve c a initial = .ok o → Leaves c a initial o Eq Eq := by
  constructor
  · intro α _ _ _ c a initial o h
    exact solve_leaves h
  · intro _ c a initial o h
    exact (solve_leaves h).imp (fun _ _ => point_eq_of_beq) fun _ _ => angles_eq_of_beq

/-- An arm pulled to a distance from its base, beside a lid that no constraint
names. -/
def bench : Assembly Float where
  metadata := ⟨⟨0⟩, "bench", 1, ⟨⟨2000, 1, 1⟩, 0, 0⟩, ⟨⟨2000, 1, 1⟩, 0, 0⟩⟩
  components := [
    ⟨"base", ⟨0, 0, 0⟩, .identity, .empty⟩,
    ⟨"arm", ⟨3, 4, 0⟩, ⟨0, 0, 1⟩, .empty⟩,
    ⟨"lid", ⟨5, 0, 0⟩, ⟨0, 2, 0⟩, .empty⟩]
  constraints := [
    ⟨"ground", .fixed "base", none, 1⟩,
    ⟨"reach", .pair (.distance 10) "base" "arm", none, 1⟩]

/-- A solve on doubles in which the arm moves without turning, the base stays and
the lid stays where the initial positions have it, and an exact solve. -/
theorem untouched_stay_bench :
    (∃ o, solve { Settings.standard with turning := true } bench (.ofList [("lid", ⟨7, 1, 2⟩)]) =
        .ok o ∧ 0 < o.iterations ∧
      o.positions.keys.Perm ["base", "arm", "lid"] ∧
      o.positions.get? "base" = some ⟨0, 0, 0⟩ ∧
      (∃ p, o.positions.get? "lid" = some p ∧ (p == ⟨7, 1, 2⟩) = true) ∧
      ∃ e, o.orientations.get? "arm" = some e ∧ (e == ⟨0, 0, 1⟩) = true) ∧
    ∀ [Readout ℝ], ∃ o, solve coarse slack .empty = .ok o ∧
      o.orientations.get? "arm" = some .identity := by
  constructor
  · have hsolve : (solve { Settings.standard with turning := true } bench
        (.ofList [("lid", ⟨7, 1, 2⟩)])).toOption.any (fun o => decide (0 < o.iterations)) =
          true := by
      decide +kernel
    obtain ⟨o, ho, hsteps⟩ := exists_eq_ok hsolve
    have hleaves := untouched_stay.1 Float _ bench _ o ho
    refine ⟨o, ho, of_decide_eq_true hsteps, hleaves.positions_keys, ?_, ?_, ?_⟩
    · exact (hleaves.fixed ⟨"base", ⟨0, 0, 0⟩, .identity, .empty⟩ (by simp [bench])
        ⟨"ground", .fixed "base", none, 1⟩ (by simp [bench]) rfl).1
    · exact hleaves.place ⟨"lid", ⟨5, 0, 0⟩, ⟨0, 2, 0⟩, .empty⟩ (by simp [bench])
        (by simp [Assembly.LeavesPlace, bench, Bond.ends])
    · exact hleaves.direction rfl ⟨"arm", ⟨3, 4, 0⟩, ⟨0, 0, 1⟩, .empty⟩ (by simp [bench])
        (by simp [Assembly.LeavesDirection, bench, Bond.ends, Bond.isDirectional,
          Relation.isDirectional])
  · intro _
    refine ⟨_, solve_slack, ?_⟩
    exact (untouched_stay.2 coarse slack .empty _ solve_slack).still rfl
      ⟨"arm", .origin, .identity, .empty⟩ (by simp [slack])

end Joinery.Newton
