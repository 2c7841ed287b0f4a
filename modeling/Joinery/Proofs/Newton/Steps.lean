import Joinery.Newton.Outcome
import Joinery.Proofs.Linkage.Link
/-!
# Steps of a run

What the start, one step and the end of a run are, said once. `Run.Reads` lists
the two kinds of trial, `Run.drift_cases` the two places a failed one leads to,
`Run.placed_cases` the three places a run can stand at after any, and the `absorb`
lemmas say that nothing but the counters, the history and the status changes
besides. `Run.iterate?_induction` is the induction over whole runs, and
`solve_eq_ok` takes a solve apart into these.
-/

namespace Joinery.Newton

open Joinery.Dense

variable {α : Type} [Scalar α] {L : Linkage α} {c : Settings α}

namespace Run

/-! ## The start -/

/-- The run that stands at the initial state. -/
def first (L : Linkage α) (c : Settings α) : Run α :=
  let deviations := L.deviations L.initialState
  let error := norm deviations
  { status :=
      if !Arithmetic.isFinite error then .diverged
      else if error < c.tolerance then .converged
      else if L.size = 0 then .maxIterationsReached
      else .iterating
    stand := ⟨L.initialState, deviations⟩
    error, best := L.initialState, bestError := error, damping := c.damping
    stalled := 0, growing := 0, lastTrialError := error, history := #[] }

theorem start?_eq_ok {r : Run α} (h : start? L c = .ok r) : r = first L c := by
  unfold start? at h
  obtain ⟨d, hd, h⟩ := bind_eq_ok h
  obtain ⟨-, rfl⟩ := unless_eq_ok hd
  cases h
  rfl

/-! ## One step -/

/-- What a run linearises where it stands: slopes and deviations, balanced if
the settings say so. -/
def system (L : Linkage α) (c : Settings α) (r : Run α) : Matrix α × Array α :=
  let slopes := L.slopes r.stand.point c.slopeStep
  if c.precondition then balanced slopes r.stand.deviations else (slopes, r.stand.deviations)

/-- A trial of a run: the correction is zero and leads nowhere, or it leads to a
damped move from where the run stands. -/
inductive Reads (L : Linkage α) (r : Run α) : Trial α → Prop
  | still (k : Correction α) : Reads L r ⟨k, none, r.error⟩
  | moved (k : Correction α) (point : Array α) (h : point = addScaled r.damping k.step r.stand.point) :
      Reads L r ⟨k, some ⟨point, L.deviations point⟩, norm (L.deviations point)⟩

theorem probe?_eq_ok {r : Run α} {t : Trial α} (h : r.probe? L c = .ok t) :
    correction? (r.system L c).1 (r.system L c).2 c.pivotThreshold = .ok t.correction ∧
      r.Reads L t := by
  unfold probe? at h
  obtain ⟨slopes, hslopes, h⟩ := bind_eq_ok h
  obtain ⟨-, rfl⟩ := unless_eq_ok hslopes
  obtain ⟨k, hk, h⟩ := bind_eq_ok h
  by_cases hz : k.isZero
  · rw [if_pos hz] at h
    cases h
    exact ⟨hk, .still k⟩
  · rw [if_neg hz] at h
    obtain ⟨d, hd, h⟩ := bind_eq_ok h
    obtain ⟨-, rfl⟩ := unless_eq_ok hd
    cases h
    exact ⟨hk, .moved k _ rfl⟩

/-- The two places a step without improvement leads to: a trial point with a finite
error, or where the run was. -/
theorem drift_cases {P : Run α → Prop} {r : Run α} {t : Trial α}
    (moved : ∀ stand, t.stand? = some stand → Arithmetic.isFinite t.error = true →
      P { r with
        stand, error := t.error, stalled := r.stalled + 1
        damping := Arithmetic.max (r.damping * c.dampingShrink) c.minDamping })
    (stayed : P { r with
      stalled := r.stalled + 1
      damping := Arithmetic.max (r.damping * c.dampingShrink) c.minDamping }) :
    P (r.drift c t) := by
  unfold drift
  dsimp only
  split
  case h_1 stand hstand =>
    split
    case isTrue hfinite => exact moved stand hstand hfinite
    case isFalse => exact stayed
  case h_2 => exact stayed

section Drift
variable (c : Settings α) (r : Run α) (t : Trial α)

@[simp]
theorem drift_status : (r.drift c t).status = r.status :=
  drift_cases (P := fun s => s.status = r.status) (fun _ _ _ => rfl) rfl

@[simp]
theorem drift_bestError : (r.drift c t).bestError = r.bestError :=
  drift_cases (P := fun s => s.bestError = r.bestError) (fun _ _ _ => rfl) rfl

@[simp]
theorem drift_damping :
    (r.drift c t).damping = Arithmetic.max (r.damping * c.dampingShrink) c.minDamping :=
  drift_cases (P := fun s => s.damping = _) (fun _ _ _ => rfl) rfl

@[simp]
theorem drift_stalled : (r.drift c t).stalled = r.stalled + 1 :=
  drift_cases (P := fun s => s.stalled = r.stalled + 1) (fun _ _ _ => rfl) rfl

end Drift

/-- Where a run stands after a trial, before it counts the step. -/
def placed (L : Linkage α) (c : Settings α) (r : Run α) (t : Trial α) : Run α :=
  let moved := if r.improves t then r.accept c t else r.drift c t
  if moved.isOverdue c then moved.rollback L else moved

/-- The three places a run can stand at after a trial: at an improvement, where
it drifts to, or back at its best point. -/
theorem placed_cases {P : Run α → Prop} {r : Run α} {t : Trial α}
    (accepted : r.improves t = true → P (r.accept c t))
    (drifted : r.improves t = false → (r.drift c t).isOverdue c = false → P (r.drift c t))
    (rolledBack : r.improves t = false → (r.drift c t).isOverdue c = true →
      P ((r.drift c t).rollback L)) :
    P (r.placed L c t) := by
  unfold placed
  cases himp : r.improves t with
  | true =>
    have hdue : (r.accept c t).isOverdue c = false := by simp [isOverdue, accept]
    simpa [hdue] using accepted himp
  | false =>
    cases hdue : (r.drift c t).isOverdue c with
    | false => simpa [hdue] using drifted himp hdue
    | true => simpa [hdue] using rolledBack himp hdue

/-- What a run writes down of a trial. -/
def record (L : Linkage α) (c : Settings α) (r : Run α) (t : Trial α) : Record α where
  iteration := r.history.size + 1
  trialError := t.error
  bestError := (r.placed L c t).bestError
  damping := r.damping
  accepted := r.improves t
  rolledBack := (if r.improves t then r.accept c t else r.drift c t).isOverdue c
  method := t.correction.method
  singularPivots := t.correction.singularPivots
  rowsUsed := t.correction.rowsUsed

/-- The run after a trial, before its status is settled. -/
def counted (L : Linkage α) (c : Settings α) (r : Run α) (t : Trial α) : Run α :=
  { r.placed L c t with
    growing := if r.grows c t then r.growing + 1 else 0
    lastTrialError := t.error
    history := r.history.push (r.record L c t) }

theorem absorb_eq (L : Linkage α) (c : Settings α) (r : Run α) (t : Trial α) :
    r.absorb L c t = settle c (r.counted L c t) := rfl

/-- Settling a run changes its status only. -/
theorem settle_eq (c : Settings α) (r : Run α) :
    settle c r = { r with status := (settle c r).status } := by
  unfold settle
  split
  · rfl
  · split <;> rfl

section Absorb
variable (L : Linkage α) (c : Settings α) (r : Run α) (t : Trial α)

@[simp]
theorem absorb_stand : (r.absorb L c t).stand = (r.placed L c t).stand := by
  rw [absorb_eq, settle_eq]; rfl

@[simp]
theorem absorb_error : (r.absorb L c t).error = (r.placed L c t).error := by
  rw [absorb_eq, settle_eq]; rfl

@[simp]
theorem absorb_best : (r.absorb L c t).best = (r.placed L c t).best := by
  rw [absorb_eq, settle_eq]; rfl

@[simp]
theorem absorb_bestError : (r.absorb L c t).bestError = (r.placed L c t).bestError := by
  rw [absorb_eq, settle_eq]; rfl

@[simp]
theorem absorb_damping : (r.absorb L c t).damping = (r.placed L c t).damping := by
  rw [absorb_eq, settle_eq]; rfl

@[simp]
theorem absorb_stalled : (r.absorb L c t).stalled = (r.placed L c t).stalled := by
  rw [absorb_eq, settle_eq]; rfl

@[simp]
theorem absorb_growing :
    (r.absorb L c t).growing = if r.grows c t then r.growing + 1 else 0 := by
  rw [absorb_eq, settle_eq]; rfl

@[simp]
theorem absorb_lastTrialError : (r.absorb L c t).lastTrialError = t.error := by
  rw [absorb_eq, settle_eq]; rfl

@[simp]
theorem absorb_history : (r.absorb L c t).history = r.history.push (r.record L c t) := by
  rw [absorb_eq, settle_eq]; rfl

end Absorb

/-! ## Whole runs -/

/-- The runs that any number of steps leads to. -/
inductive Steps (L : Linkage α) (c : Settings α) (r : Run α) : Run α → Prop
  | refl : Steps L c r r
  | step {s : Run α} {t : Trial α} (h : Steps L c r s) (ht : s.probe? L c = .ok t) :
      Steps L c r (s.absorb L c t)

/-- What holds of a run, what every step of a run under way keeps, and what does
not hang on the cap of iterations, holds when the run is over. -/
theorem iterate?_induction {P : Run α → Prop}
    (hstep : ∀ r t, P r → r.status = .iterating → r.probe? L c = .ok t → P (r.absorb L c t))
    (hcap : ∀ r, P r → r.status = .iterating → P { r with status := .maxIterationsReached })
    {n : Nat} {r last : Run α} (h : r.iterate? L c n = .ok last) (hr : P r) : P last := by
  induction n generalizing r with
  | zero =>
    unfold iterate? at h
    split at h
    case isTrue hs => cases h; exact hcap r hr hs
    case isFalse => cases h; exact hr
  | succ n ih =>
    unfold iterate? at h
    split at h
    case isTrue hs =>
      obtain ⟨t, ht, h⟩ := bind_eq_ok h
      exact ih h (hstep r t hr hs ht)
    case isFalse => cases h; exact hr

/-- A run only ever adds to its history. -/
theorem history_prefix {n : Nat} {r last : Run α} (h : r.iterate? L c n = .ok last) :
    r.history.toList <+: last.history.toList := by
  refine iterate?_induction (P := fun s => r.history.toList <+: s.history.toList) ?_ ?_ h
    (List.prefix_refl _)
  · intro s t hs _ _
    rw [absorb_history, Array.toList_push]
    exact hs.trans (List.prefix_append _ _)
  · intro s hs _
    exact hs

/-- A run that is over at its start stays as it is. -/
theorem iterate?_of_over {n : Nat} {r last : Run α} (h : r.iterate? L c n = .ok last)
    (hr : r.status ≠ .iterating) : last = r := by
  cases n <;> simpa [iterate?, hr] using h.symm

end Run

/-! ## Solves -/

/-- A run that is over at its start has its outcome at once. -/
theorem solveLinkage?_of_over [Readout α] (hread : L.canRead L.initialState = true)
    (hover : (Run.first L c).status ≠ .iterating) :
    solveLinkage? L c = .ok ((Run.first L c).outcome L c (Run.first L c).error) := by
  have hstart : Run.start? L c = .ok (Run.first L c) := by
    simp only [Run.start?, Linkage.deviations?, Breach.unless, hread, if_true]
    rfl
  have hiterate : ∀ n, (Run.first L c).iterate? L c n = .ok (Run.first L c) := by
    intro n
    cases n <;> simp [Run.iterate?, hover]
  simp only [solveLinkage?, hstart]
  show (Run.iterate? L c _ _ >>= _) = _
  rw [hiterate]
  rfl

theorem solveLinkage?_eq_ok [Readout α] {o : Outcome α} (h : solveLinkage? L c = .ok o) :
    ∃ last, (Run.first L c).iterate? L c c.maxIterations = .ok last ∧
      o = last.outcome L c (Run.first L c).error := by
  unfold solveLinkage? at h
  obtain ⟨r, hr, h⟩ := bind_eq_ok h
  cases Run.start?_eq_ok hr
  obtain ⟨last, hlast, h⟩ := bind_eq_ok h
  cases h
  exact ⟨last, hlast, rfl⟩

/-- A solve has an outcome exactly when its settings are in range, its assembly
is well formed and starts from finite numbers, and the solve of the linkage has
that outcome. -/
theorem solve_eq_ok_iff [Readout α] {a : Assembly α} {initial : PositionMap α} {o : Outcome α} :
    solve c a initial = .ok o ↔
      c.InRange ∧ a.WellFormed ∧ (∀ part ∈ a.components, (part.member initial).StartsFinite) ∧
        solveLinkage? (a.linkage initial c.turning) c = .ok o := by
  unfold solve
  constructor
  · intro h
    obtain ⟨_, hc, h⟩ := bind_eq_ok h
    obtain ⟨L, hL, h⟩ := bind_eq_ok h
    obtain ⟨hwell, hfinite, rfl⟩ := Assembly.link?_eq_ok_iff.1 hL
    exact ⟨Settings.check_eq_ok_iff.1 (mapError_eq_ok hc), hwell, hfinite, mapError_eq_ok h⟩
  · rintro ⟨hc, hwell, hfinite, h⟩
    rw [Settings.check_eq_ok_iff.2 hc, Assembly.link?_eq_ok_iff.2 ⟨hwell, hfinite, rfl⟩]
    show Failure.ofBreach _ = _
    rw [h]
    rfl

/-- The outcome of a solve is that of the last state of its run. -/
theorem solve_eq_ok [Readout α] {a : Assembly α} {initial : PositionMap α} {o : Outcome α}
    (h : solve c a initial = .ok o) :
    ∃ last, (Run.first (a.linkage initial c.turning) c).iterate? (a.linkage initial c.turning) c
        c.maxIterations = .ok last ∧
      o = last.outcome (a.linkage initial c.turning) c
        (Run.first (a.linkage initial c.turning) c).error :=
  solveLinkage?_eq_ok (solve_eq_ok_iff.1 h).2.2.2

end Joinery.Newton
