import Mathlib
import Joinery.Proofs.Guarded.Linkage
import Joinery.Proofs.Scalar.Exact
/-!
# Slopes with one borrowed state

Slopes can be found without a state of its own for each of them: one state is borrowed for
all rows, each variable is moved in it and put back, and a row is filled at the variables of
its ends only (`sweep`). One variable leaves the borrowed state as it was (`probe_eq`), so a
row does, and so do all rows: each is the row of its constraint in the given state, whatever
stands before it. What is not filled is zero because a deviation does not hang on it.
-/

namespace Joinery

open Joinery.Dense Joinery.Guarded

/-- Whether the slopes of a bond are measured. Those of a separation have a closed form. -/
def Bond.isMeasured {ρ α : Type} : Bond ρ α → Bool
  | .pair .coincident _ _ | .pair (.distance _) _ _ | .pair .tangent _ _ => false
  | _ => true

namespace Linkage

/-! ## Rows in place -/

section InPlace

variable {α : Type} [Scalar α] (L : Linkage α) (s : Array α) (step : α)

/-- The variables of the ends of a bond. An end that is named twice counts once. -/
def touched : Bond Nat α → List Nat
  | .fixed a => stretch L a
  | .pair _ a b => stretch L a ++ if b = a then [] else stretch L b

/-- Fills a row at one variable. The variable is moved both ways in the borrowed state, and
put back. -/
def probe (c : Constraint Nat α) (work : Array α × Array α) (j : Nat) : Array α × Array α :=
  let x := work.2.getD j 0
  let h := step * Arithmetic.max (Arithmetic.abs x) 1
  let scratch := work.2.setIfInBounds j (x + h)
  let above := L.deviation scratch c
  let scratch := scratch.setIfInBounds j (x - h)
  let below := L.deviation scratch c
  (work.1.setIfInBounds j ((above - below) / Arithmetic.twice h), scratch.setIfInBounds j x)

/-- A measured row, and the borrowed state as it is given back. -/
def probeRow (c : Constraint Nat α) (scratch : Array α) : Array α × Array α :=
  (L.touched c.bond).foldl (L.probe step c) (Array.replicate L.size 0, scratch)

/-- Adds a displacement to a row, at the coordinates of one member. -/
def addAlong (i : Nat) (d : Displacement α) (row : Array α) : Array α :=
  match L.layout.offset? i with
  | none => row
  | some k => (List.range 3).foldl
      (fun row r => row.setIfInBounds (k + r) (row.getD (k + r) 0 + d.toList.getD r 0)) row

/-- The slopes of the distance between two members, times a weight. -/
def pullRow (weight : α) (a b : Nat) (apart : Bool) : Array α :=
  match L.heading? s a b apart with
  | none => Array.replicate L.size 0
  | some unit =>
    let pull := unit * weight
    L.addAlong b pull (L.addAlong a (-pull) (Array.replicate L.size 0))

/-- The row of a constraint, and the borrowed state as it is given back. -/
def sweepRow (c : Constraint Nat α) (scratch : Array α) : Array α × Array α :=
  match c.bond with
  | .pair .coincident a b => (L.pullRow s c.weight a b false, scratch)
  | .pair (.distance _) a b => (L.pullRow s c.weight a b true, scratch)
  | .pair .tangent a b => (L.pullRow s c.weight a b true, scratch)
  | _ => L.probeRow step c scratch

/-- The rows of constraints one after the other, and the borrowed state as it is given
back. -/
def sweep (constraints : List (Constraint Nat α)) : Array (Array α) × Array α :=
  constraints.foldl
    (fun work c =>
      let (row, scratch) := L.sweepRow s step c work.2
      (work.1.push row, scratch))
    (#[], s)

def sweptSlopes : Matrix α := .ofRows L.size (L.sweep s step L.constraints).1

end InPlace

section Filled

variable {α : Type} [Zero α]

omit [Zero α] in
theorem size_foldl_set (vars : List Nat) (g : Nat → α) (row : Array α) :
    (vars.foldl (fun row j => row.setIfInBounds j (g j)) row).size = row.size := by
  induction vars generalizing row with
  | nil => rfl
  | cons j rest ih => rw [List.foldl_cons, ih, Array.size_setIfInBounds]

/-- Filling has the last word where it comes by. -/
theorem getD_foldl_set (vars : List Nat) (g : Nat → α) {row : Array α} {i : Nat}
    (hi : i < row.size) : (vars.foldl (fun row j => row.setIfInBounds j (g j)) row).getD i 0 =
      if i ∈ vars then g i else row.getD i 0 := by
  induction vars generalizing row with
  | nil => rfl
  | cons j rest ih =>
    rw [List.foldl_cons, ih (by simpa using hi), getD_setIfInBounds hi]
    by_cases hrest : i ∈ rest
    · rw [if_pos hrest, if_pos (List.mem_cons_of_mem j hrest)]
    · by_cases heq : j = i
      · subst heq
        rw [if_neg hrest, if_pos rfl, if_pos List.mem_cons_self]
      · rw [if_neg hrest, if_neg heq, if_neg]
        exact fun hmem => (List.mem_cons.1 hmem).elim (fun h => heq h.symm) hrest

theorem setIfInBounds_getD (s : Array α) (j : Nat) : s.setIfInBounds j (s.getD j 0) = s := by
  refine Array.ext (by simp) fun i hi hi' => ?_
  rw [Array.getElem_setIfInBounds hi']
  split
  case isTrue heq =>
    subst heq
    exact Dense.getD_of_lt hi'
  case isFalse => rfl

end Filled

section Probes

variable {α : Type} [Scalar α] {L : Linkage α} {s : Array α} {step : α} {c : Constraint Nat α}

/-- A probe leaves the borrowed state as it was, and fills in what is measured in it. -/
theorem probe_eq (L : Linkage α) (step : α) (c : Constraint Nat α) (row s : Array α) (j : Nat) :
    L.probe step c (row, s) j = (row.setIfInBounds j (L.measuredSlope s step c j), s) := by
  unfold probe measuredSlope
  dsimp only
  rw [Array.setIfInBounds_setIfInBounds, Array.setIfInBounds_setIfInBounds, setIfInBounds_getD]

/-- So do probes one after the other. -/
theorem foldl_probe (vars : List Nat) (row s : Array α) :
    vars.foldl (L.probe step c) (row, s) =
      (vars.foldl (fun row j => row.setIfInBounds j (L.measuredSlope s step c j)) row, s) := by
  induction vars generalizing row with
  | nil => rfl
  | cons j rest ih => rw [List.foldl_cons, probe_eq, ih, List.foldl_cons]

omit [Scalar α] in
theorem mem_touched {bond : Bond Nat α} {j : Nat} :
    j ∈ L.touched bond ↔ (bond.ends.any fun i => L.layout.owns i j) = true := by
  cases bond with
  | fixed a => simp [touched, Bond.ends, mem_stretch]
  | pair relation a b =>
    by_cases heq : b = a
    · simp [touched, Bond.ends, mem_stretch, heq]
    · simp [touched, Bond.ends, mem_stretch, heq]

/-- A row that is filled at the variables of its ends is the measured row. -/
theorem probeRow_eq (L : Linkage α) (step : α) (c : Constraint Nat α) (s : Array α) :
    L.probeRow step c s = (L.measuredRow s step c, s) := by
  rw [probeRow, foldl_probe]
  refine Prod.ext ?_ rfl
  have hsize : ((L.touched c.bond).foldl (fun row j => row.setIfInBounds j
      (L.measuredSlope s step c j)) (Array.replicate L.size 0)).size = L.size := by
    rw [size_foldl_set, Array.size_replicate]
  refine ext_getD (n := L.size) hsize (by simp [measuredRow]) fun j hj => ?_
  rw [getD_foldl_set _ _ (by simpa using hj), measuredRow, Dense.getD_ofFn _ hj]
  refine if_congr mem_touched rfl ?_
  simp [Array.getD, hj]

end Probes

/-! ## All rows -/

section Sweeps

variable {L : Linkage ℝ} {s : Array ℝ} {step : ℝ} {c : Constraint Nat ℝ}

theorem size_foldl_add (k n : Nat) (g : Nat → ℝ) (row : Array ℝ) :
    ((List.range n).foldl
      (fun row r => row.setIfInBounds (k + r) (row.getD (k + r) 0 + g r)) row).size = row.size := by
  induction n with
  | zero => rfl
  | succ n ih =>
    rw [List.range_succ, List.foldl_append]
    exact (Array.size_setIfInBounds ..).trans ih

theorem getD_foldl_add (k n : Nat) (g : Nat → ℝ) {row : Array ℝ} {j : Nat} (hj : j < row.size) :
    ((List.range n).foldl
      (fun row r => row.setIfInBounds (k + r) (row.getD (k + r) 0 + g r)) row).getD j 0 =
        row.getD j 0 + if k ≤ j ∧ j < k + n then g (j - k) else 0 := by
  induction n with
  | zero => rw [if_neg (by omega), add_zero]; rfl
  | succ n ih =>
    rw [List.range_succ, List.foldl_append, List.foldl_cons, List.foldl_nil,
      getD_setIfInBounds (by rwa [size_foldl_add])]
    by_cases heq : k + n = j
    · subst heq
      rw [if_pos rfl, ih, if_neg (by omega), if_pos (by omega), add_zero, Nat.add_sub_cancel_left]
    · rw [if_neg heq, ih]
      exact congrArg (_ + ·) (if_congr (by omega) rfl rfl)

theorem size_addAlong (L : Linkage ℝ) (i : Nat) (d : Displacement ℝ) (row : Array ℝ) :
    (L.addAlong i d row).size = row.size := by
  unfold addAlong
  split
  · rfl
  · exact size_foldl_add _ 3 _ row

theorem getD_addAlong (L : Linkage ℝ) (i : Nat) (d : Displacement ℝ) {row : Array ℝ} {j : Nat}
    (hj : j < row.size) : (L.addAlong i d row).getD j 0 = row.getD j 0 + L.along i d j := by
  unfold addAlong along Layout.coordinate?
  cases L.layout.offset? i with
  | none => exact (add_zero _).symm
  | some k =>
    dsimp only
    rw [getD_foldl_add k 3 (fun r => d.toList.getD r 0) hj]
    split <;> rfl

/-- What is added up at the coordinates of both ends is the row in closed form. -/
theorem pullRow_eq (L : Linkage ℝ) (s : Array ℝ) (weight : ℝ) (a b : Nat) (apart : Bool) :
    L.pullRow s weight a b apart = L.separationRow s weight a b apart := by
  unfold pullRow separationRow
  cases L.heading? s a b apart with
  | none => rfl
  | some unit =>
    refine ext_getD (n := L.size) (by simp [size_addAlong]) (by simp) fun j hj => ?_
    rw [getD_addAlong _ _ _ (by simpa [size_addAlong] using hj),
      getD_addAlong _ _ _ (by simpa using hj), Dense.getD_ofFn _ hj]
    simp [Array.getD, hj]

/-- One row of a sweep is that of its constraint, and the borrowed state is put back. -/
theorem sweepRow_eq (L : Linkage ℝ) (s : Array ℝ) (step : ℝ) (c : Constraint Nat ℝ) :
    L.sweepRow s step c s = (L.slopeRow s step c, s) := by
  unfold sweepRow slopeRow
  rcases c.bond with a | ⟨relation, a, b⟩
  · exact probeRow_eq L step c s
  · cases relation <;> first
      | exact probeRow_eq L step c s
      | exact congrArg (·, s) (pullRow_eq L s c.weight a b _)

/-- A sweep finds the row of each constraint, and puts the borrowed state back. -/
theorem sweep_eq (L : Linkage ℝ) (s : Array ℝ) (step : ℝ) (constraints : List (Constraint Nat ℝ)) :
    L.sweep s step constraints = ((constraints.map (L.slopeRow s step)).toArray, s) := by
  have hrun : ∀ rows : Array (Array ℝ),
      constraints.foldl (fun work c => (work.1.push (L.sweepRow s step c work.2).1,
        (L.sweepRow s step c work.2).2)) (rows, s) =
          (rows ++ (constraints.map (L.slopeRow s step)).toArray, s) := by
    induction constraints with
    | nil => exact fun rows => by simp
    | cons c rest ih =>
      intro rows
      rw [List.foldl_cons, sweepRow_eq, ih]
      simp
  exact (hrun #[]).trans (by simp)

theorem sweptSlopes_eq (L : Linkage ℝ) (s : Array ℝ) (step : ℝ) :
    L.sweptSlopes s step = L.slopes s step := by
  rw [sweptSlopes, sweep_eq, slopes]

end Sweeps

/-! ## What a row hangs on -/

section Rows

variable {L L' : Linkage ℝ} {s : Array ℝ} {step : ℝ} {c : Constraint Nat ℝ} {j : Nat}

theorem slopeRow_of_isMeasured (h : c.bond.isMeasured = true) :
    L.slopeRow s step c = L.measuredRow s step c := by
  unfold slopeRow
  split <;> first
    | rfl
    | rename_i hbond; rw [hbond] at h; cases h

/-- A row hangs on the members and where a state places them, but on no other constraint. -/
theorem slopeRow_congr (hmembers : L'.members = L.members) (hlayout : L'.layout = L.layout) :
    L'.slopeRow s step c = L.slopeRow s step c := by
  obtain ⟨members, constraints, layout⟩ := L
  obtain ⟨members', constraints', layout'⟩ := L'
  obtain rfl : members' = members := hmembers
  obtain rfl : layout' = layout := hlayout
  rfl

/-- No constraint hangs on a variable of none of its ends. -/
theorem ignores_of_not_owns (h : ∀ i ∈ c.bond.ends, L.layout.owns i j = false) : L.Ignores c j := by
  refine Ignores.of_not_reads fun hreads => ?_
  obtain ⟨-, i, hi, hread⟩ := Bond.reads_iff.1 hreads
  have howns : L.layout.owns i j = true := by
    split at hread
    · exact hread.owns
    · exact hread.owns
  rw [h i hi] at howns
  cases howns

/-- Measuring the slope with every variable gives the measured row, which leaves out those of
other members. -/
theorem getD_measuredRow (hj : j < L.size) :
    (L.measuredRow s step c).getD j 0 = L.measuredSlope s step c j := by
  rw [measuredRow, Dense.getD_ofFn _ hj]
  split
  case isTrue => rfl
  case isFalse hnone =>
    have hignores : L.Ignores c j := ignores_of_not_owns fun i hi =>
      Bool.eq_false_iff.2 fun howns => hnone (List.any_eq_true.2 ⟨i, hi, howns⟩)
    exact (Exact.blank_iff.1 (measuredSlope_blank hignores step)).symm

end Rows

/-- What the row of a constraint is in slopes that were found with one borrowed state. -/
structure SweptRow (L : Linkage ℝ) (s : Array ℝ) (step : ℝ) (c : Constraint Nat ℝ)
    (row : Array ℝ) : Prop where
  size : row.size = L.size
  /-- It is the same wherever the constraint stands and whatever the others are. -/
  own : ∀ (L' : Linkage ℝ) (i : Nat), L'.members = L.members → L'.layout = L.layout →
    L'.constraints[i]? = some c → (L'.sweptSlopes s step).row i = row
  /-- What is measured is the difference quotient in every variable of the state. -/
  measured : c.bond.isMeasured = true → ∀ j < L.size, row.getD j 0 =
    (L.deviation (s.setIfInBounds j (s.getD j 0 + step * max |s.getD j 0| 1)) c -
      L.deviation (s.setIfInBounds j (s.getD j 0 - step * max |s.getD j 0| 1)) c) /
        (2 * (step * max |s.getD j 0| 1))
  outside : ∀ j, (∀ i ∈ c.bond.ends, L.layout.owns i j = false) → row.getD j 0 = 0
  pinned : (∀ i ∈ c.bond.ends, L.layout.isPinned i = true) → row = Array.replicate L.size 0

theorem sweptRow (L : Linkage ℝ) (s : Array ℝ) (step : ℝ) (c : Constraint Nat ℝ) :
    L.SweptRow s step c (L.slopeRow s step c) where
  size := size_slopeRow L s step c
  own L' i hmembers hlayout hc := by
    obtain ⟨hi, rfl⟩ := List.getElem?_eq_some_iff.1 hc
    rw [sweptSlopes_eq, row_slopes L' s step hi, slopeRow_congr hmembers hlayout]
  measured h j hj := by
    rw [slopeRow_of_isMeasured h, getD_measuredRow hj, measuredSlope, Ordered.max_eq,
      Arithmetic.twice, one_add_one_eq_two]
    rfl
  outside j h := Exact.blank_iff.1 (slopeRow_blank (ignores_of_not_owns h) step)
  pinned h := by
    refine ext_getD (n := L.size) (by simp) (by simp) fun j hj => ?_
    have hzero : (Array.replicate L.size (0 : ℝ)).getD j 0 = 0 := by simp [Array.getD, hj]
    have hfree : ∀ i ∈ c.bond.ends, L.layout.owns i j = false := by
      intro i hi
      have hpinned := h i hi
      rw [Layout.isPinned, Option.isNone_iff_eq_none] at hpinned
      rw [Layout.owns, hpinned]
    rw [hzero, Exact.blank_iff.1 (slopeRow_blank (ignores_of_not_owns hfree) step)]

/-- With one borrowed state the slopes are found that there are. It is put back before each
row, so each row is that of its constraint, whatever the others are; what is measured is
measured for all variables, and nothing is but those of the ends. -/
theorem slopes_swept {a : Assembly ℝ} {initial : PositionMap ℝ} {turning : Bool} {L : Linkage ℝ}
    (hlink : a.link? initial turning = .ok L) {s : Array ℝ} (hs : L.size ≤ s.size) (step : ℝ) :
    L.slopes? s step = .ok (L.sweptSlopes s step) ∧
      (L.sweptSlopes s step).rows = a.constraints.length ∧
      (L.sweptSlopes s step).cols = L.size ∧
      (∀ n, (L.sweep s step (L.constraints.take n)).2 = s) ∧
      ∀ i c, L.constraints[i]? = some c → L.SweptRow s step c ((L.sweptSlopes s step).row i) := by
  obtain ⟨hwell, -, rfl⟩ := Assembly.link?_eq_ok_iff.1 hlink
  have hsound := sound_linkage hwell initial turning
  have hread : (a.linkage initial turning).canRead s = true := by
    simpa [canRead, hs] using hsound.ends_lt
  rw [sweptSlopes_eq]
  refine ⟨if_pos hread, by simp [Assembly.linkage], rfl, fun n => ?_, fun i c hc => ?_⟩
  · rw [sweep_eq]
  · obtain ⟨hi, rfl⟩ := List.getElem?_eq_some_iff.1 hc
    rw [row_slopes _ s step hi]
    exact sweptRow _ s step _

end Linkage

/-- A leaf that is held parallel to a post, which stays. -/
noncomputable def hinge : Assembly ℝ where
  metadata := ⟨⟨0⟩, "hinge", 1, ⟨⟨2000, 1, 1⟩, 0, 0⟩, ⟨⟨2000, 1, 1⟩, 0, 0⟩⟩
  components := [.placed "post" .origin, .placed "leaf" ⟨1, 0, 0⟩]
  constraints := [⟨"mount", .fixed "post", none, 1⟩,
    ⟨"fit", .pair .parallel "post" "leaf", none, 1⟩]

theorem wellFormed_hinge : hinge.WellFormed := by
  constructor <;> simp [hinge, Component.placed, Component.radiusProblem?, Component.radius,
    IdMap.get?, IdMap.empty, Constraint.defect?, Constraint.defect?.ofBond, Bond.ends,
    Relation.defect?]

/-- The mount has no slopes, and the state that is borrowed for both rows comes back with all
that it has, also beyond its variables. -/
theorem slopes_swept_hinge : ∃ L, hinge.link? .empty true = .ok L ∧ L.size = 6 ∧
    ∃ slopes, L.slopes? #[1, 0, 0, 0.5, 1, 1, 9] 1 = .ok slopes ∧ slopes.rows = 2 ∧
      slopes.row 0 = #[0, 0, 0, 0, 0, 0] ∧
      (L.sweep #[1, 0, 0, 0.5, 1, 1, 9] 1 L.constraints).2 = #[1, 0, 0, 0.5, 1, 1, 9] := by
  have hlink := Assembly.link?_of_finite Exact.isFinite_eq wellFormed_hinge .empty true
  obtain ⟨hslopes, hrows, -, hback, hrow⟩ :=
    Linkage.slopes_swept hlink (s := #[1, 0, 0, 0.5, 1, 1, 9]) (by decide) 1
  refine ⟨_, hlink, rfl, _, hslopes, hrows, ?_, hback 2⟩
  exact (hrow 0 _ rfl).pinned (by decide)

end Joinery
