import Joinery.Decimal.Readout
import Joinery.Proofs.Newton.Steps
import Joinery.Proofs.Scalar.Double
/-!
# The best iterate

A run keeps its best point and its best error together through every step
(`Run.Tracked`), and its history tells which error that is (`Chronicle`): the
least finite one that was met. All that is used of scalars is how finite ones
compare.
-/

namespace Joinery.Newton

open Joinery.Dense Joinery.Arithmetic LawfulOrder

variable {α : Type} [Scalar α]

/-! ## Errors and points -/

/-- The errors of a run belong to its points, and the best one is no worse than
the one where the run stands. -/
structure Run.Tracked (L : Linkage α) (r : Run α) : Prop where
  deviations_eq : r.stand.deviations = L.deviations r.stand.point
  error_eq : r.error = norm r.stand.deviations
  bestError_eq : r.bestError = norm (L.deviations r.best)
  isFinite_error : isFinite r.error = true
  isFinite_bestError : isFinite r.bestError = true
  best_le : r.bestError ≤ r.error

namespace Run

variable {L : Linkage α} {c : Settings α} {r : Run α} {t : Trial α}

theorem improves_iff : r.improves t = true ↔ isFinite t.error = true ∧ t.error < r.bestError := by
  rw [improves, Bool.and_eq_true, decide_eq_true_iff]

variable [LawfulOrder α]

theorem tracked_first (h : isFinite (first L c).error = true) : (first L c).Tracked L :=
  ⟨rfl, rfl, rfl, h, h, refl_of_isFinite h⟩

/-- A correction of zero leads to no improvement. -/
theorem Tracked.improves_still (h : r.Tracked L) (ht : r.Reads L t) (hnone : t.stand? = none) :
    r.improves t = false := by
  cases ht with
  | still k =>
    rw [Bool.eq_false_iff]
    intro himp
    exact not_lt_of_le h.best_le (improves_iff.1 himp).2
  | moved => cases hnone

theorem Tracked.accept (h : r.Tracked L) (ht : r.Reads L t) (himp : r.improves t = true) :
    (r.accept c t).Tracked L := by
  obtain ⟨hfinite, -⟩ := improves_iff.1 himp
  cases ht with
  | still k =>
    -- no trial point here, so the error could not have improved
    rw [h.improves_still (.still k) rfl] at himp
    cases himp
  | moved k point _ => exact ⟨rfl, rfl, rfl, hfinite, hfinite, refl_of_isFinite hfinite⟩

theorem Tracked.drift (h : r.Tracked L) (ht : r.Reads L t) (himp : r.improves t = false) :
    (r.drift c t).Tracked L := by
  refine drift_cases (P := fun s => s.Tracked L) ?_ { h with }
  intro stand hstand hfinite
  cases ht with
  | still k => cases hstand
  | moved k point _ =>
    cases hstand
    have hle : r.bestError ≤ norm (L.deviations point) := by
      refine le_of_not_lt (isNaN_of_isFinite hfinite) (isNaN_of_isFinite h.isFinite_bestError) ?_
      intro hlt
      rw [improves_iff.2 ⟨hfinite, hlt⟩] at himp
      cases himp
    exact ⟨rfl, rfl, h.bestError_eq, hfinite, h.isFinite_bestError, hle⟩

theorem Tracked.rollback (h : r.Tracked L) : (r.rollback L).Tracked L :=
  ⟨rfl, h.bestError_eq, h.bestError_eq, h.isFinite_bestError, h.isFinite_bestError,
    refl_of_isFinite h.isFinite_bestError⟩

theorem Tracked.placed (h : r.Tracked L) (ht : r.Reads L t) : (r.placed L c t).Tracked L := by
  refine placed_cases ?_ ?_ ?_
  · intro himp
    exact h.accept ht himp
  · intro himp _
    exact h.drift ht himp
  · intro himp _
    exact (h.drift ht himp).rollback

theorem Tracked.absorb (h : r.Tracked L) (ht : r.probe? L c = .ok t) :
    (r.absorb L c t).Tracked L := by
  have hp := h.placed (c := c) (probe?_eq_ok ht).2
  refine ⟨?_, ?_, ?_, ?_, ?_, ?_⟩ <;>
    simp only [absorb_stand, absorb_error, absorb_best, absorb_bestError]
  · exact hp.deviations_eq
  · exact hp.error_eq
  · exact hp.bestError_eq
  · exact hp.isFinite_error
  · exact hp.isFinite_bestError
  · exact hp.best_le

theorem Tracked.steps {s : Run α} (h : r.Tracked L) (hs : Steps L c r s) : s.Tracked L := by
  induction hs with
  | refl => exact h
  | step _ ht ih => exact ih.absorb ht

omit [LawfulOrder α] in
/-- The error of an outcome is the best error of its run. -/
theorem Tracked.error_outcome [Readout α] (h : r.Tracked L) (initialError : α) :
    (r.outcome L c initialError).error = r.bestError := h.bestError_eq.symm

end Run

/-! ## What the history tells -/

/-- The finite errors that a run has met: at its start and at its trials. -/
def errorsMet (initialError : α) (history : List (Record α)) : List α :=
  initialError :: (history.map (·.trialError)).filter isFinite

theorem mem_errorsMet_concat {initialError e : α} {history : List (Record α)} {s : Record α} :
    e ∈ errorsMet initialError (history ++ [s]) ↔
      e ∈ errorsMet initialError history ∨ (e = s.trialError ∧ isFinite s.trialError = true) := by
  simp only [errorsMet, List.map_append, List.filter_append, List.mem_cons, List.mem_append,
    List.mem_filter, List.map_cons, List.map_nil, List.not_mem_nil, or_false, or_assoc]
  refine or_congr_right (or_congr_right ?_)
  constructor
  · rintro ⟨rfl, h⟩; exact ⟨rfl, h⟩
  · rintro ⟨rfl, h⟩; exact ⟨rfl, h⟩

/-- What a history says about the best error: it is the least error that was
met and the last entry of its column, the column falls, and what was accepted is
what was better than all before. -/
structure Chronicle (initialError bestError : α) (history : List (Record α)) : Prop where
  best_mem : bestError ∈ errorsMet initialError history
  best_le : ∀ e ∈ errorsMet initialError history, bestError ≤ e
  best_eq_last : bestError = (history.getLast?.map (·.bestError)).getD initialError
  best_le_column : ∀ s ∈ history, bestError ≤ s.bestError
  descending : history.Pairwise fun s t => t.bestError ≤ s.bestError
  accepted_iff : ∀ before s after, history = before ++ s :: after →
    (s.accepted = true ↔
      isFinite s.trialError = true ∧ ∀ e ∈ errorsMet initialError before, s.trialError < e)

section Chronicle

variable [LawfulOrder α] {L : Linkage α} {c : Settings α}

theorem chronicle_nil {e : α} (h : isFinite e = true) : Chronicle e e [] where
  best_mem := List.mem_cons_self
  best_le := by simpa [errorsMet] using refl_of_isFinite h
  best_eq_last := rfl
  best_le_column := by simp
  descending := .nil
  accepted_iff before s after h := by simp at h

/-- Better than the best so far is better than all that was met so far. -/
theorem Chronicle.accepted_concat {initialError best : α} {history : List (Record α)}
    {s : Record α} (h : Chronicle initialError best history)
    (haccepted : s.accepted = true ↔ isFinite s.trialError = true ∧ s.trialError < best) :
    ∀ before u after, history ++ [s] = before ++ u :: after →
      (u.accepted = true ↔
        isFinite u.trialError = true ∧ ∀ e ∈ errorsMet initialError before, u.trialError < e) := by
  intro before u after heq
  rcases List.eq_nil_or_concat after with rfl | ⟨after', v, rfl⟩
  · -- the new record
    obtain ⟨hbefore, hlast⟩ := List.append_inj' heq rfl
    simp only [List.cons.injEq, and_true] at hlast
    subst hbefore hlast
    rw [haccepted]
    refine and_congr_right fun _ => ⟨fun hlt e he => ?_, fun hall => hall best h.best_mem⟩
    exact lt_of_lt_of_le hlt (h.best_le e he)
  · -- one of those before
    rw [List.concat_eq_append, ← List.cons_append, ← List.append_assoc] at heq
    exact h.accepted_iff before u after' (List.append_inj' heq rfl).1

/-- A record keeps the chronicle if it counts as accepted exactly when it is
better than the best error, and then becomes the best. -/
theorem Chronicle.concat {initialError best best' : α} {history : List (Record α)} {s : Record α}
    (h : Chronicle initialError best history) (hbest : isFinite best = true)
    (haccepted : s.accepted = true ↔ isFinite s.trialError = true ∧ s.trialError < best)
    (hbest' : best' = if s.accepted then s.trialError else best) (hs : s.bestError = best') :
    Chronicle initialError best' (history ++ [s]) := by
  have hdown : best' ≤ best := by
    rw [hbest']
    split
    case isTrue hacc => exact le_of_lt (haccepted.1 hacc).2
    case isFalse => exact refl_of_isFinite hbest
  refine ⟨?_, ?_, ?_, ?_, ?_, ?_⟩
  · rw [mem_errorsMet_concat, hbest']
    split
    case isTrue hacc => exact .inr ⟨rfl, (haccepted.1 hacc).1⟩
    case isFalse => exact .inl h.best_mem
  · intro e he
    rcases mem_errorsMet_concat.1 he with he | ⟨rfl, hfinite⟩
    · exact trans hdown (h.best_le e he)
    · rw [hbest']
      split
      case isTrue => exact refl_of_isFinite hfinite
      case isFalse hacc =>
        refine le_of_not_lt (isNaN_of_isFinite hfinite) (isNaN_of_isFinite hbest) ?_
        intro hlt
        exact hacc (haccepted.2 ⟨hfinite, hlt⟩)
  · simp [hs]
  · intro u hu
    rcases List.mem_append.1 hu with hu | hu
    · exact trans hdown (h.best_le_column u hu)
    · rw [List.mem_singleton.1 hu, hs]
      exact refl_left hdown
  · rw [List.pairwise_append]
    refine ⟨h.descending, List.pairwise_singleton _ _, fun u hu v hv => ?_⟩
    rw [List.mem_singleton.1 hv, hs]
    exact trans hdown (h.best_le_column u hu)
  · exact h.accepted_concat haccepted

/-- The chronicle of a run that keeps track. -/
def Run.Chronicled (initialError : α) (r : Run α) : Prop :=
  Chronicle initialError r.bestError r.history.toList

omit [LawfulOrder α] in
theorem Run.bestError_placed (r : Run α) (t : Trial α) :
    (r.placed L c t).bestError = if r.improves t then t.error else r.bestError := by
  refine Run.placed_cases (P := fun p => p.bestError = _) ?_ ?_ ?_
  · intro himp; rw [himp]; rfl
  · intro himp _; rw [himp]; exact r.drift_bestError c t
  · intro himp _; rw [himp]; exact r.drift_bestError c t

theorem Run.Chronicled.absorb {initialError : α} {r : Run α} (h : r.Chronicled initialError)
    (hr : r.Tracked L) (t : Trial α) : (r.absorb L c t).Chronicled initialError := by
  unfold Run.Chronicled
  rw [Run.absorb_bestError, Run.absorb_history, Array.toList_push]
  exact h.concat hr.isFinite_bestError Run.improves_iff (r.bestError_placed t) rfl

/-- A run that is over keeps track and has its chronicle. -/
theorem Run.iterate?_tracked {n : Nat} {last : Run α}
    (h : (Run.first L c).iterate? L c n = .ok last) (hf : isFinite (Run.first L c).error = true) :
    last.Tracked L ∧ last.Chronicled (Run.first L c).error := by
  refine Run.iterate?_induction (P := fun r => r.Tracked L ∧ r.Chronicled _) ?_ ?_ h ?_
  · rintro r t ⟨hr, hc⟩ - ht
    exact ⟨hr.absorb ht, hc.absorb hr t⟩
  · rintro r ⟨hr, hc⟩ -
    exact ⟨{ hr with }, hc⟩
  · exact ⟨Run.tracked_first hf, chronicle_nil hf⟩

theorem chronicle_of_solve [Readout α] {a : Assembly α} {initial : PositionMap α} {o : Outcome α}
    (h : solve c a initial = .ok o) (hf : isFinite o.initialError = true) :
    Chronicle o.initialError o.error o.history.toList := by
  obtain ⟨last, hlast, rfl⟩ := solve_eq_ok h
  obtain ⟨htracked, hchronicle⟩ := Run.iterate?_tracked hlast hf
  rw [htracked.error_outcome]
  exact hchronicle

end Chronicle

/-! ## The best iterate through steps and in outcomes -/

/-- After any number of steps from a finite error the best point and the point
where the run stands have their errors, a correction of zero never counts as an
improvement, and the outcome of a solve has the least error of its history. -/
theorem best_iterate_tracked [Readout α] [LawfulOrder α] :
    (∀ (L : Linkage α) (c : Settings α) (start r : Run α), Run.start? L c = .ok start →
      isFinite start.error = true → Run.Steps L c start r →
        r.Tracked L ∧ ∀ t, r.probe? L c = .ok t → t.stand? = none → r.improves t = false) ∧
    ∀ (c : Settings α) (a : Assembly α) (initial : PositionMap α) (o : Outcome α),
      solve c a initial = .ok o → isFinite o.initialError = true →
        Chronicle o.initialError o.error o.history.toList := by
  constructor
  · intro L c start r hstart hf hr
    cases Run.start?_eq_ok hstart
    have htracked := (Run.tracked_first hf).steps hr
    exact ⟨htracked, fun t ht => htracked.improves_still (Run.probe?_eq_ok ht).2⟩
  · intro c a initial o h hf
    exact chronicle_of_solve h hf

/-- Two components that should be at two distances at once. -/
def contradiction : Assembly Float where
  metadata := ⟨⟨0⟩, "contradiction", 1, ⟨⟨2000, 1, 1⟩, 0, 0⟩, ⟨⟨2000, 1, 1⟩, 0, 0⟩⟩
  components := [⟨"base", ⟨0, 0, 0⟩, .identity, .empty⟩, ⟨"arm", ⟨3, 0, 0⟩, .identity, .empty⟩]
  constraints := [
    ⟨"ground", .fixed "base", none, 1⟩,
    ⟨"near", .pair (.distance 1) "base" "arm", none, 1⟩,
    ⟨"far", .pair (.distance 2) "base" "arm", none, 1⟩]

/-- Settings that take a run back to its best point at its second failure. -/
def impatient : Settings Float :=
  { Settings.standard with maxIterations := 5, rollbackThreshold := 1 }

/-- A run on doubles that improves once, drifts, and goes back. -/
theorem best_iterate_tracked_contradiction :
    (∃ L start t, contradiction.link? .empty false = .ok L ∧ Run.start? L impatient = .ok start ∧
      start.probe? L impatient = .ok t ∧ (start.absorb L impatient t).Tracked L) ∧
    ∃ o, solve impatient contradiction .empty = .ok o ∧ o.history.any (·.rolledBack) = true ∧
      Chronicle o.initialError o.error o.history.toList := by
  constructor
  · have hstep : (contradiction.link? .empty false).toOption.any (fun L =>
        (Run.start? L impatient).toOption.any fun start =>
          (start.probe? L impatient).toOption.any fun _ => isFinite start.error) = true := by
      decide +kernel
    obtain ⟨L, hL, hstep⟩ := exists_eq_ok hstep
    obtain ⟨start, hstart, hstep⟩ := exists_eq_ok hstep
    obtain ⟨t, ht, hf⟩ := exists_eq_ok hstep
    exact ⟨L, start, t, hL, hstart, ht,
      (best_iterate_tracked.1 L impatient start _ hstart hf (.step .refl ht)).1⟩
  · have hsolve : (solve impatient contradiction .empty).toOption.any (fun o =>
        isFinite o.initialError && o.history.any (·.rolledBack)) = true := by
      decide +kernel
    obtain ⟨o, ho, hsolve⟩ := exists_eq_ok hsolve
    obtain ⟨hf, hback⟩ := (Bool.and_eq_true _ _).mp hsolve
    exact ⟨o, ho, hback, best_iterate_tracked.2 impatient contradiction .empty o ho hf⟩

end Joinery.Newton
