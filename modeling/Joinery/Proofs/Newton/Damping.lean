import Mathlib
import Joinery.Proofs.Newton.Contradiction
import Joinery.Proofs.Newton.Frame
import Joinery.Proofs.Newton.Inert
import Joinery.Proofs.Newton.Rollback
/-!
# The damping of a run

The damping of an iteration follows from that of the one before and from whether that one
was accepted (`Run.Steps.dampingOf_succ`): it grows to at most one, or shrinks to no less
than the least damping. So it stays between these two, and grows and shrinks in step with
what is accepted, however products are rounded (`Run.Tempered`). Failures in a row multiply
it by the same share each. So after a number of them that only the settings tell
(`patience`), it is the least one, wherever it was before, and remains so until an iteration
is accepted.
-/

namespace Joinery.Newton

open LawfulOrder LawfulArithmetic LawfulGrowth

/-! ## One step -/

section Step

variable {α : Type} [Arithmetic α] {c : Settings α} {d : α}

/-- What an iteration that is accepted, or one that is not, makes of a damping. -/
def Settings.nextDamping (c : Settings α) (accepted : Bool) (d : α) : α :=
  if accepted then Arithmetic.min (d * c.dampingGrowth) 1
  else Arithmetic.max (d * c.dampingShrink) c.minDamping

/-- Whether a damping is one between the least one and one. -/
def Settings.Allows (c : Settings α) (d : α) : Prop := c.minDamping ≤ d ∧ d ≤ 1

variable [LawfulGrowth α] (h : c.InRange) (hd : c.Allows d)

include h hd

theorem Settings.Allows.share : Share d := ⟨trans h.share_minDamping.1 hd.1, hd.2⟩

theorem Settings.Allows.le_grown : d ≤ c.nextDamping true d :=
  have hshare := hd.share h
  le_min (le_mul_of_one_le hshare.1 hshare.isFinite h.growth.1 h.growth.2) hd.2

theorem Settings.Allows.shrunk_le : c.nextDamping false d ≤ d :=
  have hshare := hd.share h
  max_le (mul_le_of_le_one hshare.1 hshare.isFinite (le_of_lt h.shrink.1) (le_of_lt h.shrink.2))
    hd.1

/-- A step does not leave the band. -/
theorem Settings.Allows.next (accepted : Bool) : c.Allows (c.nextDamping accepted d) := by
  cases accepted with
  | true =>
    exact ⟨trans hd.1 (hd.le_grown h), ((hd.share h).min_mul h.growth.2).2⟩
  | false =>
    exact ⟨le_max (isNaN_of_isFinite h.minDamping.1), trans (hd.shrunk_le h) hd.2⟩

end Step

/-! ## Runs -/

namespace Run

section Records

variable {α : Type} {r : Run α} {k : Nat}

/-- The damping of iteration `k` of a run, counted from zero, or that of the next one if the
run has not come that far. -/
def dampingOf (r : Run α) (k : Nat) : α := (r.history[k]?.map (·.damping)).getD r.damping

theorem dampingOf_size (r : Run α) : r.dampingOf r.history.size = r.damping := by
  simp [dampingOf]

theorem dampingOf_of_none (hs : r.history[k]? = none) : r.dampingOf (k + 1) = r.dampingOf k := by
  have hk := Array.getElem?_eq_none_iff.1 hs
  rw [dampingOf, dampingOf, hs, Array.getElem?_eq_none (Nat.le_succ_of_le hk)]

/-- Whether none of `n` iterations in a row is accepted, from iteration `k` on. -/
def FailsFor (r : Run α) (k n : Nat) : Prop :=
  ∀ i < n, ∃ s, r.history[k + i]? = some s ∧ s.accepted = false

end Records

section Steps

variable {α : Type} [Scalar α] {L : Linkage α} {c : Settings α} {r : Run α} {t : Trial α} {k : Nat}
  {s : Record α}

theorem damping_placed : (r.placed L c t).damping = c.nextDamping (r.improves t) r.damping := by
  refine placed_cases (P := fun p => p.damping = _) ?_ ?_ ?_
  · intro himp
    rw [himp]
    rfl
  · intro himp _
    rw [himp]
    exact drift_damping c r t
  · intro himp _
    rw [himp]
    exact drift_damping c r t

/-- A step has the damping that was to be the next one, and leaves those before. -/
theorem dampingOf_absorb (hk : k ≤ r.history.size) :
    (r.absorb L c t).dampingOf k = r.dampingOf k := by
  rcases Nat.lt_or_eq_of_le hk with hlt | rfl
  · rw [dampingOf, absorb_history, Array.getElem?_push_lt hlt, dampingOf,
      Array.getElem?_eq_getElem hlt]
    rfl
  · rw [dampingOf_size, dampingOf, absorb_history, Array.getElem?_push_size]
    rfl

theorem Steps.dampingOf_zero (h : Steps L c (first L c) r) : r.dampingOf 0 = c.damping := by
  induction h with
  | refl => rfl
  | step _ _ ih => rw [dampingOf_absorb (Nat.zero_le _), ih]

/-- What the damping of an iteration is after that of the one before. -/
theorem Steps.dampingOf_succ (h : Steps L c (first L c) r) (hs : r.history[k]? = some s) :
    r.dampingOf (k + 1) = c.nextDamping s.accepted (r.dampingOf k) := by
  induction h with
  | refl => simp [first] at hs
  | @step r t _ _ ih =>
    rw [absorb_history] at hs
    rcases Nat.lt_trichotomy k r.history.size with hlt | rfl | hgt
    · rw [Array.getElem?_push_lt hlt, ← Array.getElem?_eq_getElem hlt] at hs
      rw [dampingOf_absorb hlt, dampingOf_absorb (Nat.le_of_lt hlt)]
      exact ih hs
    · -- the record of this step
      rw [Array.getElem?_push_size] at hs
      cases hs
      have hsize : (r.absorb L c t).history.size = r.history.size + 1 := by simp
      rw [dampingOf_absorb (Nat.le_refl _), dampingOf_size, ← hsize, dampingOf_size,
        absorb_damping, damping_placed]
      rfl
    · rw [Array.getElem?_eq_none (by simpa using hgt)] at hs
      cases hs

/-- No iteration of a run leaves the band. -/
theorem Steps.allows_dampingOf [LawfulGrowth α] (h : Steps L c (first L c) r) (hc : c.InRange)
    (k : Nat) : c.Allows (r.dampingOf k) := by
  induction k with
  | zero =>
    rw [h.dampingOf_zero]
    exact hc.damping
  | succ k ih =>
    cases hs : r.history[k]? with
    | none =>
      rw [dampingOf_of_none hs]
      exact ih
    | some s =>
      rw [h.dampingOf_succ hs]
      exact ih.next hc s.accepted

/-- Whether the damping of a run starts as the settings say, keeps to their band, does not
fall where an iteration is accepted, and does not rise where one is not. -/
structure Tempered (c : Settings α) (r : Run α) : Prop where
  start : r.dampingOf 0 = c.damping
  band : ∀ k, c.minDamping ≤ r.dampingOf k ∧ r.dampingOf k ≤ 1
  accepted : ∀ (k : Nat) (s : Record α), r.history[k]? = some s → s.accepted = true →
    r.dampingOf k ≤ r.dampingOf (k + 1)
  rejected : ∀ (k : Nat) (s : Record α), r.history[k]? = some s → s.accepted = false →
    r.dampingOf (k + 1) ≤ r.dampingOf k

theorem Steps.tempered [LawfulGrowth α] (h : Steps L c (first L c) r) (hc : c.InRange) :
    r.Tempered c where
  start := h.dampingOf_zero
  band := h.allows_dampingOf hc
  accepted k s hs haccepted := by
    rw [h.dampingOf_succ hs, haccepted]
    exact (h.allows_dampingOf hc k).le_grown hc
  rejected k s hs hrejected := by
    rw [h.dampingOf_succ hs, hrejected]
    exact (h.allows_dampingOf hc k).shrunk_le hc

end Steps

/-! ## Failures in a row -/

section Exact

variable {L : Linkage ℝ} {c : Settings ℝ} {r : Run ℝ} {k n : Nat}

theorem shrunk_eq (c : Settings ℝ) (d : ℝ) :
    c.nextDamping false d = max (d * c.dampingShrink) c.minDamping := Ordered.max_eq _ _

/-- Failures in a row multiply the damping by the same share each, down to the least one. -/
theorem Steps.dampingOf_add (h : Steps L c (first L c) r) (hc : c.InRange)
    (hfails : r.FailsFor k n) :
    r.dampingOf (k + n) = max (r.dampingOf k * c.dampingShrink ^ n) c.minDamping := by
  induction n with
  | zero =>
    rw [pow_zero, mul_one, max_eq_left (h.allows_dampingOf hc k).1]
    rfl
  | succ n ih =>
    obtain ⟨s, hs, hrejected⟩ := hfails n (Nat.lt_succ_self n)
    have hfloor : c.minDamping * c.dampingShrink ≤ c.minDamping :=
      mul_le_of_le_one_right hc.minDamping.2.le hc.shrink.2.le
    calc r.dampingOf (k + n + 1)
        = max (r.dampingOf (k + n) * c.dampingShrink) c.minDamping := by
          rw [h.dampingOf_succ hs, hrejected, shrunk_eq]
      _ = max (max (r.dampingOf k * c.dampingShrink ^ n) c.minDamping * c.dampingShrink)
            c.minDamping := by
          rw [ih fun i hi => hfails i (Nat.lt_succ_of_lt hi)]
      _ = max (max (r.dampingOf k * c.dampingShrink ^ n * c.dampingShrink)
            (c.minDamping * c.dampingShrink)) c.minDamping := by
          rw [max_mul_of_nonneg _ _ hc.shrink.1.le]
      _ = max (r.dampingOf k * c.dampingShrink ^ (n + 1)) c.minDamping := by
          rw [max_assoc, max_eq_right hfloor, mul_assoc, ← pow_succ]

end Exact

end Run

/-- How many failures in a row bring any damping down to the least one. -/
noncomputable def patience (c : Settings ℝ) : Nat :=
  ⌈Real.log c.minDamping / Real.log c.dampingShrink⌉₊

theorem shrink_pow_le {c : Settings ℝ} (hc : c.InRange) {n : Nat} (hn : patience c ≤ n) :
    c.dampingShrink ^ n ≤ c.minDamping := by
  have hlog : Real.log c.dampingShrink < 0 := Real.log_neg hc.shrink.1 hc.shrink.2
  refine (Real.log_le_log_iff (pow_pos hc.shrink.1 n) hc.minDamping.2).1 ?_
  rw [Real.log_pow]
  exact (div_le_iff_of_neg hlog).1 (Nat.ceil_le.1 hn)

/-- An accepted outcome has the history of a run that came by steps. -/
theorem exists_steps_of_solve {α : Type} [Scalar α] [Readout α] {c : Settings α} {a : Assembly α}
    {initial : PositionMap α} {o : Outcome α} (h : solve c a initial = .ok o) :
    ∃ L start r, a.link? initial c.turning = .ok L ∧ Run.start? L c = .ok start ∧
      Run.Steps L c start r ∧ o.history = r.history := by
  obtain ⟨-, hwell, hfinite, -⟩ := solve_eq_ok_iff.1 h
  obtain ⟨last, hlast, rfl⟩ := solve_eq_ok h
  obtain ⟨r, hr, hhistory⟩ := Run.exists_steps_of_iterate? hlast
  exact ⟨_, _, r, Assembly.link?_eq_ok_iff.2 ⟨hwell, hfinite, rfl⟩,
    Run.start?_total (Linkage.sound_linkage hwell initial c.turning) c, hr, hhistory⟩

/-- With settings that are accepted, the damping of every run starts as they say, keeps
between the least one and one, does not fall where an iteration is accepted, and does not
rise where one is not: on exact numbers, on doubles, and on any others whose products are
rounded as lawfully. On exact numbers, failures in a row bring it down to the least one,
from wherever it was, in a number of them that only the settings tell, and keep it there.
The history of every solve is that of such a run. -/
theorem damping_tempered :
    (∀ (α : Type) [Scalar α] [LawfulGrowth α] (L : Linkage α) (c : Settings α)
      (start r : Run α), c.check = .ok () → Run.start? L c = .ok start → Run.Steps L c start r →
        r.Tempered c) ∧
    (∀ (L : Linkage ℝ) (c : Settings ℝ) (start r : Run ℝ), c.check = .ok () →
      Run.start? L c = .ok start → Run.Steps L c start r → ∀ k n, r.FailsFor k n →
        patience c ≤ n ∨ r.dampingOf k = c.minDamping → r.dampingOf (k + n) = c.minDamping) ∧
    ∀ (α : Type) [Scalar α] [Readout α] (c : Settings α) (a : Assembly α)
      (initial : PositionMap α) (o : Outcome α), solve c a initial = .ok o →
        c.check = .ok () ∧ ∃ L start r, a.link? initial c.turning = .ok L ∧
          Run.start? L c = .ok start ∧ Run.Steps L c start r ∧ o.history = r.history := by
  refine ⟨?_, ?_, ?_⟩
  · intro α _ _ L c start r hcheck hstart hr
    cases Run.start?_eq_ok hstart
    exact hr.tempered (Settings.check_eq_ok_iff.1 hcheck)
  · intro L c start r hcheck hstart hr k n hfails hlow
    cases Run.start?_eq_ok hstart
    have hc := Settings.check_eq_ok_iff.1 hcheck
    have hband := hr.allows_dampingOf hc k
    rw [hr.dampingOf_add hc hfails, max_eq_right_iff]
    have hpow : 0 ≤ c.dampingShrink ^ n := pow_nonneg hc.shrink.1.le n
    rcases hlow with hn | hleast
    · calc r.dampingOf k * c.dampingShrink ^ n ≤ 1 * c.dampingShrink ^ n :=
            mul_le_mul_of_nonneg_right hband.2 hpow
        _ = c.dampingShrink ^ n := one_mul _
        _ ≤ c.minDamping := shrink_pow_le hc hn
    · rw [hleast]
      exact mul_le_of_le_one_right hc.minDamping.2.le
        (pow_le_one₀ hc.shrink.1.le hc.shrink.2.le)
  · intro α _ _ c a initial o h
    exact ⟨Settings.check_eq_ok_iff.2 (solve_eq_ok_iff.1 h).1, exists_steps_of_solve h⟩

theorem patience_coarse : patience coarse = 1 := by
  have hlog : Real.log (1 / 2) ≠ 0 := (Real.log_neg (by norm_num) (by norm_num)).ne
  show ⌈Real.log (1 / 2) / Real.log (1 / 2)⌉₊ = 1
  rw [div_self hlog, Nat.ceil_one]

/-- A run on doubles that improves, fails and goes back, and one on exact numbers that fails
at once. -/
theorem damping_tempered_quarrel :
    (∃ o, solve impatient contradiction .empty = .ok o ∧ o.iterations = 5 ∧
      ∀ s ∈ o.history.toList, impatient.minDamping ≤ s.damping ∧ s.damping ≤ 1) ∧
    ∃ L start t, (quarrel .perpendicular .perpendicular).link? .empty false = .ok L ∧
      Run.start? L coarse = .ok start ∧ start.probe? L coarse = .ok t ∧
      (start.absorb L coarse t).dampingOf 0 = 1 ∧
      (start.absorb L coarse t).dampingOf 1 = 1 / 2 := by
  constructor
  · have hsolve : (solve impatient contradiction .empty).toOption.any (fun o =>
        decide (o.iterations = 5)) = true := by
      decide +kernel
    obtain ⟨o, ho, hfive⟩ := exists_eq_ok hsolve
    refine ⟨o, ho, of_decide_eq_true hfive, fun s hs => ?_⟩
    obtain ⟨hcheck, L, start, r, -, hstart, hr, hhistory⟩ :=
      damping_tempered.2.2 Float impatient contradiction .empty o ho
    obtain ⟨k, hk⟩ := List.getElem?_of_mem hs
    have hband := (damping_tempered.1 Float L impatient start r hcheck hstart hr).band k
    rw [Array.getElem?_toList, hhistory] at hk
    rwa [Run.dampingOf, hk] at hband
  · have hwell : (quarrel .perpendicular .perpendicular).WellFormed := wellFormed_quarrel rfl rfl
    have hcheck := Settings.check_eq_ok_iff.2 inRange_coarse
    obtain ⟨L, hL⟩ : ∃ L, (quarrel .perpendicular .perpendicular).link? .empty false = .ok L :=
      ⟨_, Assembly.link?_of_finite Exact.isFinite_eq hwell .empty false⟩
    obtain ⟨-, -, heq⟩ := Assembly.link?_eq_ok_iff.1 hL
    have hsound : L.Sound := heq ▸ Linkage.sound_linkage hwell .empty false
    have hstart := Run.start?_total hsound coarse
    obtain ⟨t, ht, -⟩ := Run.probe?_total hsound (Run.fits_first hsound coarse) coarse
    have hr := Run.Steps.step .refl ht
    -- wherever the step leads, no constraint sees it
    have hfails : ((Run.first L coarse).absorb L coarse t).FailsFor 0 1 := by
      intro i hi
      obtain rfl : i = 0 := by omega
      refine ⟨_, by rw [Run.absorb_history]; rfl, ?_⟩
      refine Run.improves_inert (by rw [heq]; rfl) ?_ (Run.probe?_eq_ok ht).2
      simp [heq, Assembly.linkage, quarrel, Constraint.linked]
      exact ⟨rfl, rfl⟩
    have hfloor := damping_tempered.2.1 L coarse _ _ hcheck hstart hr 0 1 hfails
      (.inl patience_coarse.le)
    exact ⟨L, _, t, hL, hstart, ht,
      (damping_tempered.1 ℝ L coarse _ _ hcheck hstart hr).start, hfloor⟩

end Joinery.Newton
