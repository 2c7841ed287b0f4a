import Joinery.Proofs.Newton.Totality
/-!
# Runs in lockstep

A run decides by errors and counters and never looks at a point itself. So where the
states of one linkage can be read as states of another (`Carries`), with the same
errors, and with corrections that lead to what is read of the next state, a run of
the second linkage is the run of the first, read this way, from its start to its end.

Corrections may only agree where they are sure to: `sure` says of the singular pivots
of a step whether they do.
-/

namespace Joinery

open Joinery.Dense Joinery.Newton

variable {α : Type} [Scalar α]

/-- What has to be solved in a state: slopes and deviations, balanced if the settings
say so. -/
def Linkage.systemAt (L : Linkage α) (c : Settings α) (s : Array α) : Matrix α × Array α :=
  let slopes := L.slopes s c.slopeStep
  if c.precondition then balanced slopes (L.deviations s) else (slopes, L.deviations s)

/-- The correction in a state. -/
def Linkage.correctionAt? (L : Linkage α) (c : Settings α) (s : Array α) :
    Except Breach (Correction α) :=
  correction? (L.systemAt c s).1 (L.systemAt c s).2 c.pivotThreshold

end Joinery

namespace Joinery.Newton

open Joinery.Dense

variable {α : Type} [Scalar α] {L L' : Linkage α} {c : Settings α} {f : Array α → Array α}
  {r : Run α} {t t' : Trial α} {k k' : Correction α} {s : Array α} {sure : Nat → Prop}

/-! ## Trials by correction -/

namespace Run

/-- Where a correction leads from where a run stands. -/
def trial (L : Linkage α) (r : Run α) (k : Correction α) : Trial α :=
  if k.isZero then ⟨k, none, r.error⟩
  else
    let point := addScaled r.damping k.step r.stand.point
    ⟨k, some ⟨point, L.deviations point⟩, norm (L.deviations point)⟩

/-- A run whose deviations are those of the point it stands at. -/
def Sited (L : Linkage α) (r : Run α) : Prop := r.stand.deviations = L.deviations r.stand.point

theorem Sited.system_eq (h : r.Sited L) (c : Settings α) :
    r.system L c = L.systemAt c r.stand.point := by
  unfold Run.system Linkage.systemAt
  rw [h]

theorem probe?_eq_trial (h : r.probe? L c = .ok t) :
    correction? (r.system L c).1 (r.system L c).2 c.pivotThreshold = .ok t.correction ∧
      t = r.trial L t.correction := by
  unfold probe? at h
  obtain ⟨slopes, hslopes, h⟩ := bind_eq_ok h
  obtain ⟨-, rfl⟩ := unless_eq_ok hslopes
  obtain ⟨k, hk, h⟩ := bind_eq_ok h
  unfold trial
  by_cases hz : k.isZero
  · rw [if_pos hz] at h
    cases h
    exact ⟨hk, (if_pos hz).symm⟩
  · rw [if_neg hz] at h
    obtain ⟨d, hd, h⟩ := bind_eq_ok h
    obtain ⟨-, rfl⟩ := unless_eq_ok hd
    cases h
    exact ⟨hk, (if_neg hz).symm⟩

/-- Where a run stands, the correction of its next step is that of the state. -/
theorem Sited.correctionAt?_eq (h : r.Sited L) (ht : r.probe? L c = .ok t) :
    L.correctionAt? c r.stand.point = .ok t.correction := by
  rw [Linkage.correctionAt?, ← h.system_eq]
  exact (probe?_eq_trial ht).1

theorem sited_first (L : Linkage α) (c : Settings α) : (first L c).Sited L := rfl

theorem Sited.absorb (h : r.Sited L) (ht : r.Reads L t) : (r.absorb L c t).Sited L := by
  unfold Sited
  rw [absorb_stand]
  refine placed_cases (P := fun p => p.stand.deviations = L.deviations p.stand.point) ?_ ?_ ?_
  · intro _
    cases ht with
    | still k => exact h
    | moved k point _ => rfl
  · intro _ _
    refine drift_cases (P := fun p => p.stand.deviations = L.deviations p.stand.point) ?_ h
    intro stand hstand _
    cases ht with
    | still k => cases hstand
    | moved k point _ =>
      cases hstand
      rfl
  · intro _ _
    rfl

end Run

/-! ## Reading runs as runs of another linkage -/

/-- The run with its points read as states of another linkage. -/
def Run.carry (L' : Linkage α) (f : Array α → Array α) (r : Run α) : Run α :=
  { r with
    stand := ⟨f r.stand.point, L'.deviations (f r.stand.point)⟩
    best := f r.best }

/-- Whether a trial is another one whose point is read as a state of another linkage. -/
structure Trial.Carried (L' : Linkage α) (f : Array α → Array α) (t t' : Trial α) : Prop where
  method : t'.correction.method = t.correction.method
  singularPivots : t'.correction.singularPivots = t.correction.singularPivots
  rowsUsed : t'.correction.rowsUsed = t.correction.rowsUsed
  stand? : t'.stand? = t.stand?.map fun stand => ⟨f stand.point, L'.deviations (f stand.point)⟩
  error : t'.error = t.error

namespace Run

section Absorb
variable (h : t.Carried L' f t')
include h

theorem improves_carry : (r.carry L' f).improves t' = r.improves t := by
  unfold improves
  rw [h.error]
  rfl

theorem grows_carry : (r.carry L' f).grows c t' = r.grows c t := by
  unfold grows
  rw [improves_carry h, h.error]
  rfl

theorem accept_carry : (r.carry L' f).accept c t' = (r.accept c t).carry L' f := by
  unfold accept carry
  rw [h.error, h.stand?]
  cases t.stand? <;> rfl

theorem drift_carry : (r.carry L' f).drift c t' = (r.drift c t).carry L' f := by
  unfold drift
  rw [h.error, h.stand?]
  cases t.stand? with
  | none => rfl
  | some stand =>
    dsimp only [Option.map_some]
    split <;> rfl

/-- A step is counted alike in both runs. -/
theorem absorb_carry : (r.carry L' f).absorb L' c t' = (r.absorb L c t).carry L' f := by
  have hmoved : (if (r.carry L' f).improves t' then (r.carry L' f).accept c t'
      else (r.carry L' f).drift c t') =
        (if r.improves t then r.accept c t else r.drift c t).carry L' f := by
    rw [improves_carry h, accept_carry h, drift_carry h]
    split <;> rfl
  have hback : ∀ m : Run α,
      (if (m.carry L' f).isOverdue c then (m.carry L' f).rollback L' else m.carry L' f) =
        (if m.isOverdue c then m.rollback L else m).carry L' f := by
    intro m
    show (if m.isOverdue c then _ else _) = _
    split <;> rfl
  have hplaced : (r.carry L' f).placed L' c t' = (r.placed L c t).carry L' f := by
    unfold placed
    dsimp only
    rw [hmoved]
    exact hback _
  have hrecord : (r.carry L' f).record L' c t' = r.record L c t := by
    unfold record
    rw [hmoved, hplaced, improves_carry h, h.method, h.singularPivots, h.rowsUsed, h.error]
    rfl
  have hcounted : (r.carry L' f).counted L' c t' = (r.counted L c t).carry L' f := by
    unfold counted
    rw [hplaced, hrecord, grows_carry h, h.error]
    rfl
  rw [absorb_eq, absorb_eq, hcounted]
  unfold settle
  show (if (r.counted L c t).error < c.tolerance then _ else
    if c.divergenceWindow ≤ (r.counted L c t).growing then _ else _) = _
  split
  · rfl
  · split <;> rfl

end Absorb

end Run

/-! ## Linkages that step alike -/

/-- Whether two corrections, in a state and in what is read of it, lead to a state and
to what is read of that. -/
structure Correction.Alike (f : Array α → Array α) (s : Array α) (k k' : Correction α) :
    Prop where
  method : k'.method = k.method
  singularPivots : k'.singularPivots = k.singularPivots
  rowsUsed : k'.rowsUsed = k.rowsUsed
  isZero : k'.isZero = k.isZero
  step : ∀ share, addScaled share k'.step (f s) = f (addScaled share k.step s)

/-- What it takes to read the states of `L` as states of `L'` by `f`. -/
structure Carries (L L' : Linkage α) (c : Settings α) (f : Array α → Array α)
    (sure : Nat → Prop) : Prop where
  size_eq : L'.size = L.size
  initialState_eq : L'.initialState = f L.initialState
  norm_deviations : ∀ s, s.size = L.size → norm (L'.deviations (f s)) = norm (L.deviations s)
  corrections : ∀ s k k', s.size = L.size → L.correctionAt? c s = .ok k →
    L'.correctionAt? c (f s) = .ok k' → sure k.singularPivots → sure k'.singularPivots →
      k.Alike f s k'

namespace Carries

variable (h : Carries L L' c f sure)
include h

theorem first_carry (hL : L.Regular) : Run.first L' c = (Run.first L c).carry L' f := by
  have hnorm : norm (L'.deviations (f L.initialState)) = norm (L.deviations L.initialState) :=
    h.norm_deviations _ hL.size_initialState
  unfold Run.first Run.carry
  simp only [h.initialState_eq, h.size_eq, hnorm]

/-- Corrections that are alike lead two runs to trials that are alike. -/
theorem trial_carried (hr : r.Fits L) (hk : k.Alike f r.stand.point k') :
    (r.trial L k).Carried L' f ((r.carry L' f).trial L' k') := by
  unfold Run.trial
  rw [hk.isZero]
  split
  · exact ⟨hk.method, hk.singularPivots, hk.rowsUsed, rfl, rfl⟩
  · have hpoint : addScaled (r.carry L' f).damping k'.step (r.carry L' f).stand.point =
        f (addScaled r.damping k.step r.stand.point) := hk.step r.damping
    refine ⟨hk.method, hk.singularPivots, hk.rowsUsed, ?_, ?_⟩
    · dsimp only [Option.map_some]
      rw [hpoint]
    · dsimp only
      rw [hpoint]
      exact h.norm_deviations _ (by rw [size_addScaled, hr.size_point])

theorem probe?_carried (hr : r.Fits L) (hsited : r.Sited L) (ht : r.probe? L c = .ok t)
    (ht' : (r.carry L' f).probe? L' c = .ok t') (hsure : sure t.correction.singularPivots)
    (hsure' : sure t'.correction.singularPivots) : t.Carried L' f t' := by
  have hsited' : (r.carry L' f).Sited L' := rfl
  have halike := h.corrections _ _ _ hr.size_point (hsited.correctionAt?_eq ht)
    (hsited'.correctionAt?_eq ht') hsure hsure'
  rw [(Run.probe?_eq_trial ht).2, (Run.probe?_eq_trial ht').2]
  exact h.trial_carried hr halike

/-- Two runs in lockstep end in lockstep, if every step that they wrote down was sure
to be alike. -/
theorem iterate?_carry (hL : L.Sound) {n : Nat} {last last' : Run α} (hr : r.Fits L)
    (hsited : r.Sited L) (hlast : r.iterate? L c n = .ok last)
    (hlast' : (r.carry L' f).iterate? L' c n = .ok last')
    (hsure : ∀ entry ∈ last.history.toList, sure entry.singularPivots)
    (hsure' : ∀ entry ∈ last'.history.toList, sure entry.singularPivots) :
    last' = last.carry L' f := by
  induction n generalizing r with
  | zero =>
    unfold Run.iterate? at hlast hlast'
    cases hlast
    cases hlast'
    show (if r.status = .iterating then _ else _) = _
    split <;> rfl
  | succ n ih =>
    by_cases hstatus : r.status = .iterating
    · have hstatus' : (r.carry L' f).status = .iterating := hstatus
      unfold Run.iterate? at hlast hlast'
      rw [if_pos hstatus] at hlast
      rw [if_pos hstatus'] at hlast'
      obtain ⟨t, ht, hlast⟩ := bind_eq_ok hlast
      obtain ⟨t', ht', hlast'⟩ := bind_eq_ok hlast'
      -- what this step wrote down is still in the history at the end
      have hwritten : r.record L c t ∈ last.history.toList :=
        (Run.history_prefix hlast).subset (by simp)
      have hwritten' : (r.carry L' f).record L' c t' ∈ last'.history.toList :=
        (Run.history_prefix hlast').subset (by simp)
      have hcarried := h.probe?_carried hr hsited ht ht' (hsure _ hwritten) (hsure' _ hwritten')
      rw [Run.absorb_carry (L := L) hcarried] at hlast'
      exact ih (hr.absorb (Run.leadsTo_of_probe? hL hr ht) c)
        (hsited.absorb (Run.probe?_eq_ok ht).2) hlast hlast'
    · rw [Run.iterate?_of_over hlast hstatus]
      exact Run.iterate?_of_over hlast' hstatus

/-- Whole runs in lockstep. -/
theorem last_carry (hL : L.Sound) {n : Nat} {last last' : Run α}
    (hlast : (Run.first L c).iterate? L c n = .ok last)
    (hlast' : (Run.first L' c).iterate? L' c n = .ok last')
    (hsure : ∀ entry ∈ last.history.toList, sure entry.singularPivots)
    (hsure' : ∀ entry ∈ last'.history.toList, sure entry.singularPivots) :
    last' = last.carry L' f := by
  rw [h.first_carry hL.regular] at hlast'
  exact h.iterate?_carry hL (Run.fits_first hL c) (Run.sited_first L c) hlast hlast' hsure hsure'

end Carries

/-! ## Outcomes in lockstep -/

section Outcomes

variable [Readout α] {a b : Assembly α} {initial initial' : PositionMap α} {o p : Outcome α}

/-- A run that is read in another linkage has the same outcome, but for what is written
out of its best point. -/
theorem Carries.outcome_carry (h : Carries L L' c f sure) {last : Run α} (hlast : last.Fits L)
    (initialError : α) :
    (last.carry L' f).outcome L' c initialError =
      { last.outcome L c initialError with
        positions := L'.positions (f last.best)
        orientations := L'.orientations (f last.best)
        deviations := L'.deviations (f last.best)
        reports := List.zipWith (ConstraintReport.of c) L'.constraints
          (L'.deviations (f last.best)).toList } := by
  have hnorm := h.norm_deviations last.best hlast.size_best
  have hsummary : ∀ status iterations (error : α),
      summary L' status iterations error = summary L status iterations error := by
    intro status iterations error
    unfold summary
    rw [h.size_eq]
  unfold Run.outcome
  dsimp only [Run.carry]
  rw [hnorm, hsummary]
  rfl

/-- Two solves in lockstep have one outcome, told of a state and of what is read of
it. -/
theorem Carries.outcome_eq
    (h : Carries (a.linkage initial c.turning) (b.linkage initial' c.turning) c f sure)
    (ho : solve c a initial = .ok o) (hp : solve c b initial' = .ok p)
    (hsure : ∀ entry ∈ o.history.toList, sure entry.singularPivots)
    (hsure' : ∀ entry ∈ p.history.toList, sure entry.singularPivots) :
    ∃ s, s.size = (a.linkage initial c.turning).size ∧
      o.positions = (a.linkage initial c.turning).positions s ∧
      o.orientations = (a.linkage initial c.turning).orientations s ∧
      o.deviations = (a.linkage initial c.turning).deviations s ∧
      o.reports = List.zipWith (ConstraintReport.of c) (a.linkage initial c.turning).constraints
        o.deviations.toList ∧
      p = { o with
        positions := (b.linkage initial' c.turning).positions (f s)
        orientations := (b.linkage initial' c.turning).orientations (f s)
        deviations := (b.linkage initial' c.turning).deviations (f s)
        reports := List.zipWith (ConstraintReport.of c) (b.linkage initial' c.turning).constraints
          ((b.linkage initial' c.turning).deviations (f s)).toList } := by
  have hL := Linkage.sound_linkage (solve_eq_ok_iff.1 ho).2.1 initial c.turning
  obtain ⟨last, hlast, rfl⟩ := solve_eq_ok ho
  obtain ⟨last', hlast', rfl⟩ := solve_eq_ok hp
  obtain ⟨_, hover, hfits⟩ := Run.iterate?_total hL c c.maxIterations (Run.fits_first hL c)
  cases hlast.symm.trans hover
  cases h.last_carry hL hlast hlast' hsure hsure'
  refine ⟨last.best, hfits.size_best, rfl, rfl, rfl, rfl, ?_⟩
  rw [h.outcome_carry hfits, h.first_carry hL.regular]
  rfl

end Outcomes

end Joinery.Newton
