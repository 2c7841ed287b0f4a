import Mathlib.Data.List.DropRight
import Joinery.Proofs.Newton.Ending
import Joinery.Proofs.Newton.Lockstep
/-!
# When a run goes back

A run counts the steps without improvement since it last stood at its best point, and goes
back there when they are too many. Nothing of that count is kept in the outcome. The history
tells it all the same: the count is the number of records at its end since the last one that
was accepted or rolled back (`Run.Waits`). So a record is rolled back exactly when it is one
failure more than is borne, no run bears more, and after every record that was accepted or
rolled back the next step is taken from the best point.
-/

namespace Joinery.Newton

open Joinery.Dense Joinery.Arithmetic

/-! ## Failures in a history -/

section Failures

variable {α : Type} {c : Settings α} {history : List (Record α)} {s : Record α} {k : Nat}

/-- Whether a run stands at its best point after a record. -/
def Record.rejoins (s : Record α) : Bool := s.accepted || s.rolledBack

/-- How many records stand at the end of a history, after the last one that rejoined the
best point or after the start. -/
def sinceRejoined (history : List (Record α)) : Nat :=
  (history.rtakeWhile fun s => !s.rejoins).length

/-- How many records in a row were not accepted, up to record `k` of a history and after the
last one before it that rejoined the best point. -/
def failuresAt (history : List (Record α)) (k : Nat) : Nat :=
  match history[k]? with
  | some s => if s.accepted then 0 else sinceRejoined (history.take k) + 1
  | none => 0

theorem sinceRejoined_concat : sinceRejoined (history ++ [s]) =
    if s.rejoins then 0 else sinceRejoined history + 1 := by
  unfold sinceRejoined
  cases hs : s.rejoins with
  | true => rw [List.rtakeWhile_concat_neg _ _ _ (by simp [hs])]; rfl
  | false => rw [List.rtakeWhile_concat_pos _ _ _ (by simp [hs]), List.length_append]; rfl

theorem failuresAt_concat (hk : k < history.length) :
    failuresAt (history ++ [s]) k = failuresAt history k := by
  rw [failuresAt, failuresAt, List.getElem?_append_left hk,
    List.take_append_of_le_length (Nat.le_of_lt hk)]

theorem failuresAt_last : failuresAt (history ++ [s]) history.length =
    if s.accepted then 0 else sinceRejoined history + 1 := by
  rw [failuresAt, List.getElem?_concat_length, List.take_left]

theorem failuresAt_of_length_le (hk : history.length ≤ k) : failuresAt history k = 0 := by
  rw [failuresAt, List.getElem?_eq_none hk]

/-- Whether the rollbacks of a history are those that were due. -/
structure Punctual (c : Settings α) (history : List (Record α)) : Prop where
  rolledBack_iff : ∀ k s, history[k]? = some s →
    (s.rolledBack = true ↔ s.accepted = false ∧ failuresAt history k = c.rollbackThreshold + 1)
  failures_le : ∀ k, failuresAt history k ≤ c.rollbackThreshold + 1

theorem punctual_nil : Punctual c ([] : List (Record α)) where
  rolledBack_iff k s h := by cases h
  failures_le k := by rw [failuresAt_of_length_le (Nat.zero_le k)]; exact Nat.zero_le _

/-- A record keeps a history punctual if it is rolled back exactly when it is one failure
more than is borne. -/
theorem Punctual.concat (h : Punctual c history)
    (hle : sinceRejoined history ≤ c.rollbackThreshold)
    (hs : s.rolledBack = true ↔
      s.accepted = false ∧ c.rollbackThreshold < sinceRejoined history + 1) :
    Punctual c (history ++ [s]) where
  rolledBack_iff k u hu := by
    rcases Nat.lt_trichotomy k history.length with hk | rfl | hk
    · rw [List.getElem?_append_left hk] at hu
      rw [failuresAt_concat hk, h.rolledBack_iff k u hu]
    · rw [List.getElem?_concat_length] at hu
      cases hu
      rw [hs, failuresAt_last]
      refine and_congr_right fun hrejected => ?_
      rw [hrejected, if_neg Bool.false_ne_true]
      omega
    · rw [List.getElem?_eq_none (by simpa using hk)] at hu
      cases hu
  failures_le k := by
    rcases Nat.lt_trichotomy k history.length with hk | rfl | hk
    · rw [failuresAt_concat hk]
      exact h.failures_le k
    · rw [failuresAt_last]
      split <;> omega
    · rw [failuresAt_of_length_le (by simpa using hk)]
      exact Nat.zero_le _

end Failures

variable {α : Type} [Scalar α] {L : Linkage α} {c : Settings α}

/-! ## Steps -/

namespace Run

variable {r last : Run α} {t : Trial α}

/-- Whether a run stands at its best point. -/
structure AtBest (L : Linkage α) (r : Run α) : Prop where
  point_eq : r.stand.point = r.best
  deviations_eq : r.stand.deviations = L.deviations r.best
  error_eq : r.error = r.bestError

/-- At its best point a run linearises there. -/
theorem AtBest.system_eq (h : r.AtBest L) (c : Settings α) :
    r.system L c = L.systemAt c r.best := by
  rw [system, Linkage.systemAt, h.deviations_eq, h.point_eq]

/-- The count of a run is what its history tells, it has not run out, and a run that waits
for nothing stands at its best point. -/
structure Waits (L : Linkage α) (c : Settings α) (r : Run α) : Prop where
  stalled_eq : r.stalled = sinceRejoined r.history.toList
  stalled_le : r.stalled ≤ c.rollbackThreshold
  atBest : r.stalled = 0 → r.AtBest L
  punctual : Punctual c r.history.toList

theorem waits_first : (first L c).Waits L c :=
  ⟨rfl, Nat.zero_le _, fun _ => ⟨rfl, rfl, rfl⟩, punctual_nil⟩

/-- A step is rolled back if it failed, and more failures are counted than are borne. -/
theorem rolledBack_record : (r.record L c t).rolledBack = true ↔
    r.improves t = false ∧ c.rollbackThreshold < r.stalled + 1 := by
  show (if r.improves t then r.accept c t else r.drift c t).isOverdue c = true ↔ _
  rw [isOverdue, decide_eq_true_iff]
  cases r.improves t with
  | true => exact iff_of_false (Nat.not_lt_zero _) (by simp)
  | false => simp

/-- The count starts again at an improvement and at a rollback. -/
theorem stalled_placed : (r.placed L c t).stalled =
    if (r.record L c t).rejoins then 0 else r.stalled + 1 := by
  have hrejoins : (r.record L c t).rejoins = (r.improves t || (r.record L c t).rolledBack) := rfl
  refine placed_cases (P := fun p => p.stalled = _) ?_ ?_ ?_
  · intro himp
    rw [hrejoins, himp]
    rfl
  · intro himp hdue
    have hback : (r.record L c t).rolledBack = false := by
      simpa [record, himp] using hdue
    rw [hrejoins, himp, hback]
    exact drift_stalled c r t
  · intro himp hdue
    have hback : (r.record L c t).rolledBack = true := by
      simpa [record, himp] using hdue
    rw [hrejoins, himp, hback]
    rfl

variable [LawfulOrder α]

/-- A run that has just improved or gone back stands at its best point. -/
theorem atBest_placed (htracked : r.Tracked L) (ht : r.Reads L t)
    (hzero : (r.placed L c t).stalled = 0) : (r.placed L c t).AtBest L := by
  refine placed_cases (P := fun p => p.stalled = 0 → p.AtBest L) ?_ ?_ ?_ hzero
  · intro himp _
    cases ht with
    | still k =>
      rw [htracked.improves_still (.still k) rfl] at himp
      cases himp
    | moved k point _ => exact ⟨rfl, rfl, rfl⟩
  · intro _ _ hzero
    rw [drift_stalled] at hzero
    cases hzero
  · exact fun _ _ _ => ⟨rfl, rfl, rfl⟩

/-- A step keeps the count, and rolls back when it has run out. -/
theorem Waits.absorb (h : r.Waits L c) (htracked : r.Tracked L) (ht : r.Reads L t) :
    (r.absorb L c t).Waits L c := by
  have hback := rolledBack_record (L := L) (c := c) (r := r) (t := t)
  have hlist : (r.absorb L c t).history.toList = r.history.toList ++ [r.record L c t] := by simp
  refine ⟨?_, ?_, ?_, ?_⟩
  · rw [absorb_stalled, stalled_placed, hlist, sinceRejoined_concat, h.stalled_eq]
  · rw [absorb_stalled, stalled_placed]
    split
    case isTrue => exact Nat.zero_le _
    case isFalse hstays =>
      have hneither : r.improves t = false ∧ ¬(r.record L c t).rolledBack = true := by
        simpa [Record.rejoins, record] using hstays
      exact not_lt.1 fun hlt => hneither.2 (hback.2 ⟨hneither.1, hlt⟩)
  · intro hzero
    rw [absorb_stalled] at hzero
    have hbest := atBest_placed htracked ht hzero
    refine ⟨?_, ?_, ?_⟩ <;> simp only [absorb_stand, absorb_best, absorb_error, absorb_bestError]
    · exact hbest.point_eq
    · exact hbest.deviations_eq
    · exact hbest.error_eq
  · rw [hlist]
    refine h.punctual.concat (h.stalled_eq ▸ h.stalled_le) ?_
    rw [← h.stalled_eq]
    exact hback

/-! ## Whole runs -/

theorem Waits.steps {u : Run α} (h : r.Waits L c) (htracked : r.Tracked L) (hu : Steps L c r u) :
    u.Waits L c := by
  induction hu with
  | refl => exact h
  | step hs ht ih => exact ih.absorb (htracked.steps hs) (probe?_eq_ok ht).2

end Run

/-! ## Stages of a run -/

namespace Run

variable {r u v last : Run α} {t : Trial α}

theorem Steps.prefix_history (h : Steps L c r u) :
    r.history.toList <+: u.history.toList := by
  induction h with
  | refl => exact List.prefix_refl _
  | step _ _ ih =>
    rw [absorb_history, Array.toList_push]
    exact ih.trans (List.prefix_append _ _)

/-- A run that has come by steps is where it started, or has taken a first one. -/
theorem Steps.head_cases (h : Steps L c r u) :
    u = r ∨ ∃ t, r.probe? L c = .ok t ∧ Steps L c (r.absorb L c t) u := by
  induction h with
  | refl => exact .inl rfl
  | @step s t _ ht ih =>
    rcases ih with rfl | ⟨t', ht', hs⟩
    · exact .inr ⟨t, ht, .refl⟩
    · exact .inr ⟨t', ht', .step hs ht⟩

/-- On its way a run has been where its history had any fewer records. -/
theorem Steps.exists_between (h : Steps L c r u) {n : Nat} (hr : r.history.size ≤ n)
    (hn : n ≤ u.history.size) :
    ∃ m, Steps L c r m ∧ Steps L c m u ∧ m.history.size = n := by
  induction h with
  | refl => exact ⟨r, .refl, .refl, Nat.le_antisymm hr hn⟩
  | @step s t hs ht ih =>
    rw [absorb_history, Array.size_push] at hn
    rcases Nat.lt_or_eq_of_le hn with hlt | rfl
    · obtain ⟨m, hm, hrest, hsize⟩ := ih (Nat.lt_succ_iff.1 hlt)
      exact ⟨m, hm, .step hrest ht, hsize⟩
    · exact ⟨_, .step hs ht, .refl, by simp⟩

/-- A run that is over has come by steps, but for its status. -/
theorem exists_steps_of_iterate? {n : Nat} (h : r.iterate? L c n = .ok last) :
    ∃ u, Steps L c r u ∧ last.history = u.history := by
  refine (iterate?_induction (P := fun s => ∃ u, Steps L c r u ∧ s.history = u.history ∧
    (s.status = .iterating → s = u)) ?_ ?_ h ⟨r, .refl, rfl, fun _ => rfl⟩).imp
      fun u hu => ⟨hu.1, hu.2.1⟩
  · rintro s t ⟨u, hu, -, heq⟩ hs ht
    cases heq hs
    exact ⟨_, .step hu ht, rfl, fun _ => rfl⟩
  · rintro s ⟨u, hu, hhistory, -⟩ _
    exact ⟨u, hu, hhistory, fun hs => by cases hs⟩

/-- Where a run stood after record `k` of its history, counted from zero: it has come there
by steps and has written just the records up to that one, and the record after it is that of
its next step. -/
structure StandsAfter (L : Linkage α) (c : Settings α) (history : List (Record α)) (k : Nat)
    (r : Run α) : Prop where
  steps : Steps L c (first L c) r
  history_eq : r.history.toList = history.take (k + 1)
  next : ∀ s, history[k + 1]? = some s → ∃ t, r.probe? L c = .ok t ∧ s = r.record L c t

theorem exists_standsAfter (h : Steps L c (first L c) u) {k : Nat} (hk : k < u.history.size) :
    ∃ r, StandsAfter L c u.history.toList k r := by
  obtain ⟨r, hr, hrest, hsize⟩ := h.exists_between (Nat.zero_le _) (Nat.succ_le_of_lt hk)
  have hlength : r.history.toList.length = k + 1 := hsize
  refine ⟨r, hr, hlength ▸ List.prefix_iff_eq_take.1 hrest.prefix_history, fun s hs => ?_⟩
  -- a record after this one is that of the first of the remaining steps
  rcases hrest.head_cases with rfl | ⟨t, ht, hlater⟩
  · rw [List.getElem?_eq_none hlength.le] at hs
    cases hs
  · refine ⟨t, ht, ?_⟩
    obtain ⟨later, hlater⟩ := hlater.prefix_history
    rw [absorb_history, Array.toList_push] at hlater
    rw [← hlater, ← hlength, List.getElem?_append_left (by simp), List.getElem?_concat_length] at hs
    exact (Option.some.inj hs).symm

/-- Where a run stands after a record that was accepted or rolled back. -/
theorem StandsAfter.atBest {history : List (Record α)} {k : Nat} {s : Record α}
    (h : StandsAfter L c history k r) (hwaits : r.Waits L c) (hs : history[k]? = some s)
    (hrejoins : s.rejoins = true) : r.AtBest L := by
  refine hwaits.atBest ?_
  rw [hwaits.stalled_eq, h.history_eq, List.take_add_one, hs, Option.toList_some,
    sinceRejoined_concat, if_pos hrejoins]

end Run

/-! ## Outcomes -/

/-- A record is rolled back exactly when it is not accepted and is one failure more than is
borne, since the last record before it that was accepted or rolled back; there are never more
failures than that; and where a record was accepted or rolled back, the run stands at its
best point after it, and the next step linearises there. -/
theorem rollback_when_due [Readout α] [LawfulOrder α] (c : Settings α) (a : Assembly α)
    (initial : PositionMap α) (o : Outcome α) (h : solve c a initial = .ok o) :
    ∃ L, a.link? initial c.turning = .ok L ∧ ∀ k s, o.history[k]? = some s →
      (s.rolledBack = true ↔ s.accepted = false ∧
        failuresAt o.history.toList k = c.rollbackThreshold + 1) ∧
      failuresAt o.history.toList k ≤ c.rollbackThreshold + 1 ∧
      ∃ r, Run.StandsAfter L c o.history.toList k r ∧
        (s.accepted = true ∨ s.rolledBack = true →
          r.AtBest L ∧ r.system L c = L.systemAt c r.best) := by
  obtain ⟨-, hwell, hfinite, -⟩ := solve_eq_ok_iff.1 h
  obtain ⟨last, hlast, rfl⟩ := solve_eq_ok h
  refine ⟨_, Assembly.link?_eq_ok_iff.2 ⟨hwell, hfinite, rfl⟩, fun k s hs => ?_⟩
  have hs : last.history[k]? = some s := hs
  cases hf : isFinite (Run.first (a.linkage initial c.turning) c).error with
  | false =>
    -- without a finite error there is no record
    rw [(Run.iterate?_of_not_isFinite hlast hf).2] at hs
    simp at hs
  | true =>
    have htracked := Run.tracked_first hf
    obtain ⟨u, hu, hhistory⟩ := Run.exists_steps_of_iterate? hlast
    have hpunctual := (Run.waits_first.steps htracked hu).punctual
    rw [hhistory] at hs
    have hs' : u.history.toList[k]? = some s := by rwa [Array.getElem?_toList]
    show (_ ↔ _ ∧ failuresAt last.history.toList k = _) ∧ failuresAt last.history.toList k ≤ _ ∧
      ∃ r, Run.StandsAfter _ c last.history.toList k r ∧ _
    rw [hhistory]
    refine ⟨hpunctual.rolledBack_iff k s hs', hpunctual.failures_le k, ?_⟩
    obtain ⟨r, hr⟩ := Run.exists_standsAfter hu (Array.getElem?_eq_some_iff.1 hs).1
    refine ⟨r, hr, fun hrejoins => ?_⟩
    have hbest := hr.atBest (Run.waits_first.steps htracked hr.steps) hs' (by
      simpa [Record.rejoins] using hrejoins)
    exact ⟨hbest, hbest.system_eq c⟩

/-- Settings that always take whole steps, and bear two failures in a row. -/
def forbearing : Settings Float := { unyielding with rollbackThreshold := 2 }

/-- A run on doubles that drifts twice and goes back at its third failure, to where it
started. -/
theorem rollback_when_due_tongs : ∃ o L s, solve forbearing tongs .empty = .ok o ∧
    tongs.link? .empty false = .ok L ∧ o.history[2]? = some s ∧ s.rolledBack = true ∧
    failuresAt o.history.toList 2 = 3 ∧
    ∃ r, Run.StandsAfter L forbearing o.history.toList 2 r ∧ r.AtBest L := by
  have hsolve : (solve forbearing tongs .empty).toOption.any (fun o =>
      o.history[2]?.any (·.rolledBack)) = true := by
    decide +kernel
  obtain ⟨o, ho, hback⟩ := exists_eq_ok hsolve
  obtain ⟨s, hs, hback⟩ := (Option.any_eq_true _ _).1 hback
  obtain ⟨L, hL, hdue⟩ := rollback_when_due forbearing tongs .empty o ho
  obtain ⟨hiff, -, r, hr, hbest⟩ := hdue 2 s hs
  exact ⟨o, L, s, ho, hL, hs, hback, (hiff.1 hback).2, r, hr, (hbest (.inr hback)).1⟩

end Joinery.Newton
