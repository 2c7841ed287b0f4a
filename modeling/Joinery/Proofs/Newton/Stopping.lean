import Joinery.Proofs.Newton.Ending
/-!
# Stopping later

The tolerance and the cap of iterations are read where a run starts and where its
status is settled, and nowhere else. Settings that only stop later (`Settings.Prolong`)
therefore lead through the same runs, up to the one where the first run is over:
there the second one is over for the same reason, or goes on from it. What it
goes on to it writes down after what is already in the history.
-/

namespace Joinery.Newton

open Joinery.Dense Joinery.Arithmetic LawfulOrder

/-- Settings `d` that differ from `c` at most in a larger cap and a smaller
tolerance. -/
structure Settings.Prolong {α : Type} [Arithmetic α] (c d : Settings α) : Prop where
  agree : d = { c with tolerance := d.tolerance, maxIterations := d.maxIterations }
  maxIterations_le : c.maxIterations ≤ d.maxIterations
  tolerance_le : d.tolerance ≤ c.tolerance

variable {α : Type} [Scalar α] {L : Linkage α} {c d : Settings α}

/-- Both tolerances tell the same of an error, or it is below the larger one only. -/
theorem Settings.Prolong.lt_tolerance_iff [LawfulOrder α] (h : c.Prolong d) (e : α) :
    (e < d.tolerance ↔ e < c.tolerance) ∨ (e < c.tolerance ∧ ¬c.tolerance ≤ d.tolerance) := by
  by_cases hc : e < c.tolerance
  case neg => exact .inl (iff_of_false (fun hd => hc (lt_of_lt_of_le hd h.tolerance_le)) hc)
  case pos =>
    by_cases hd : e < d.tolerance
    case pos => exact .inl (iff_of_true hd hc)
    case neg => exact .inr ⟨hc, fun hle => hd (lt_of_lt_of_le hc hle)⟩

/-! ## One run after another -/

namespace Run

variable {r s : Run α} {t : Trial α}

/-- What run `s` by settings `d` that stop later keeps of run `r` by `c`: its history,
and all of it if it diverged, or converged to the same tolerance. -/
structure Outlasts (c d : Settings α) (r s : Run α) : Prop where
  history : r.history.toList <+: s.history.toList
  diverged : r.status = .diverged → s = r
  converged : c.tolerance ≤ d.tolerance → r.status = .converged → s = r

/-- What is over at its start stays so for both. -/
theorem outlasts_of_over {m n : Nat} {last last' : Run α} (hr : r.status ≠ .iterating)
    (hc : r.iterate? L c m = .ok last) (hd : r.iterate? L d n = .ok last') :
    last.Outlasts c d last' := by
  rw [iterate?_of_over hc hr, iterate?_of_over hd hr]
  exact ⟨List.prefix_refl _, fun _ => rfl, fun _ _ => rfl⟩

/-- A trial and what is counted of it do not hang on when a run stops. -/
theorem probe?_prolong (h : c.Prolong d) (r : Run α) : r.probe? L d = r.probe? L c := by
  rw [h.agree]
  rfl

theorem counted_prolong (h : c.Prolong d) (r : Run α) (t : Trial α) :
    r.counted L d t = r.counted L c t := by
  rw [h.agree]
  rfl

/-- What a run that converged leaves to one that goes on from there by a smaller
tolerance is its history. -/
theorem outlasts_of_converged {n : Nat} {last : Run α} (hr : r.status = .converged)
    (hstrict : ¬c.tolerance ≤ d.tolerance) (hhistory : s.history = r.history)
    (h : s.iterate? L d n = .ok last) : r.Outlasts c d last where
  history := hhistory ▸ history_prefix h
  diverged hr' := by cases hr.symm.trans hr'
  converged hle := absurd hle hstrict

variable [LawfulOrder α]

/-- A run starts alike, or it has converged at its start to the larger tolerance
only. -/
theorem first_prolong (h : c.Prolong d) (L : Linkage α) :
    first L d = first L c ∨
      ((first L c).status = .converged ∧ ¬c.tolerance ≤ d.tolerance) := by
  have hdamping : d.damping = c.damping := by rw [h.agree]
  cases hf : isFinite (norm (L.deviations L.initialState)) with
  | false => exact .inl (by simp [first, hf, hdamping])
  | true =>
    rcases h.lt_tolerance_iff (norm (L.deviations L.initialState)) with hiff | ⟨hlt, hstrict⟩
    · exact .inl (by simp [first, hiff, hdamping])
    · exact .inr ⟨status_first.2 ⟨hf, hlt⟩, hstrict⟩

/-- A run is settled alike, or it has converged to the larger tolerance only. -/
theorem settle_prolong (h : c.Prolong d) (r : Run α) :
    settle d r = settle c r ∨
      ((settle c r).status = .converged ∧ ¬c.tolerance ≤ d.tolerance) := by
  have hwindow : d.divergenceWindow = c.divergenceWindow := by rw [h.agree]
  rcases h.lt_tolerance_iff r.error with hiff | ⟨hlt, hstrict⟩
  · exact .inl (by simp only [settle, hiff, hwindow])
  · refine .inr ⟨?_, hstrict⟩
    rw [settle, if_pos hlt]

/-- Of two runs from the same start, the one that is stopped later outlasts the
other. -/
theorem outlasts_of_iterate? (h : c.Prolong d) {m n : Nat} (hmn : m ≤ n) {r last last' : Run α}
    (hc : r.iterate? L c m = .ok last) (hd : r.iterate? L d n = .ok last') :
    last.Outlasts c d last' := by
  induction m generalizing n r with
  | zero =>
    by_cases hr : r.status = .iterating
    case neg => exact outlasts_of_over hr hc hd
    case pos =>
      -- the cap ends the first run, and the second one goes on from there
      unfold iterate? at hc
      rw [if_pos hr] at hc
      cases hc
      exact {
        history := history_prefix (r := r) hd
        diverged := fun hcap => by cases hcap
        converged := fun _ hcap => by cases hcap }
  | succ m ih =>
    by_cases hr : r.status = .iterating
    case neg => exact outlasts_of_over hr hc hd
    case pos =>
      cases n with
      | zero => cases hmn
      | succ n =>
        unfold iterate? at hc hd
        rw [if_pos hr] at hc hd
        rw [probe?_prolong h] at hd
        obtain ⟨t, ht, hc⟩ := bind_eq_ok hc
        rw [ht, ok_bind] at hd
        rw [absorb_eq] at hc hd
        rw [counted_prolong h] at hd
        rcases settle_prolong h (r.counted L c t) with heq | ⟨hconverged, hstrict⟩
        · rw [heq] at hd
          exact ih (Nat.le_of_succ_le_succ hmn) hc hd
        · rw [iterate?_of_over hc (by simp [hconverged])]
          refine outlasts_of_converged hconverged hstrict ?_ hd
          rw [settle_eq d, settle_eq c]

/-- Whole runs by settings of which the second ones stop later. -/
theorem outlasts_of_first (h : c.Prolong d) {last last' : Run α}
    (hc : (first L c).iterate? L c c.maxIterations = .ok last)
    (hd : (first L d).iterate? L d d.maxIterations = .ok last') : last.Outlasts c d last' := by
  rcases first_prolong h L with heq | ⟨hconverged, hstrict⟩
  · rw [heq] at hd
    exact outlasts_of_iterate? h h.maxIterations_le hc hd
  · rw [iterate?_of_over hc (by simp [hconverged])]
    exact outlasts_of_converged (s := first L d) hconverged hstrict rfl hd

end Run

/-! ## Outcomes -/

/-- A longer history has met more errors. -/
theorem errorsMet_subset {e : α} {history history' : List (Record α)} (h : history <+: history') :
    errorsMet e history ⊆ errorsMet e history' :=
  List.cons_subset_cons e (((h.map _).filter _).subset)

section Outcomes

variable [LawfulOrder α]

/-- Tolerances that bound each other satisfy the same constraints. -/
theorem reportOf_prolong (h : c.Prolong d) (hle : c.tolerance ≤ d.tolerance) :
    ConstraintReport.of d = ConstraintReport.of (α := α) c := by
  funext con deviation
  have hiff : abs deviation ≤ con.tolerance.getD d.tolerance ↔
      abs deviation ≤ con.tolerance.getD c.tolerance := by
    cases con.tolerance with
    | some tolerance => exact Iff.rfl
    | none => exact ⟨fun hd => trans hd h.tolerance_le, fun hc => trans hc hle⟩
  simp only [ConstraintReport.of, hiff]

variable [Readout α] {a : Assembly α} {initial : PositionMap α} {o p : Outcome α}

/-- Two solves are two whole runs of one linkage, from one error. -/
theorem outlasts_of_solve (h : c.Prolong d) (ho : solve c a initial = .ok o)
    (hp : solve d a initial = .ok p) :
    ∃ (L : Linkage α) (last last' : Run α), last.Outlasts c d last' ∧
      o = last.outcome L c (Run.first L c).error ∧
      p = last'.outcome L d (Run.first L c).error := by
  have hturning : d.turning = c.turning := by rw [h.agree]
  obtain ⟨last, hlast, rfl⟩ := solve_eq_ok ho
  obtain ⟨last', hlast', rfl⟩ := solve_eq_ok hp
  rw [hturning] at hlast' ⊢
  exact ⟨_, last, last', Run.outlasts_of_first h hlast hlast', rfl, rfl⟩

/-- The least error of a longer history is no larger. -/
theorem error_le_of_prefix (ho : solve c a initial = .ok o) (hp : solve d a initial = .ok p)
    (hinitial : p.initialError = o.initialError) (hf : isFinite o.initialError = true)
    (hhistory : o.history.toList <+: p.history.toList) : p.error ≤ o.error := by
  have hlate := (chronicle_of_solve hp (hinitial ▸ hf)).best_le
  rw [hinitial] at hlate
  exact hlate _ (errorsMet_subset hhistory (chronicle_of_solve ho hf).best_mem)

end Outcomes

/-- Settings that agree in all but the cap and the tolerance lead along the same
history, as far as the one that stops first: a later outcome has the earlier history
at its start and no larger error, is that of the earlier one apart from what it
reports as satisfied if that one diverged, and is the same if that one converged and
the tolerances are equal, each at most the other. -/
theorem stopping_later [Readout α] [LawfulOrder α] (c d : Settings α) (a : Assembly α)
    (initial : PositionMap α) (o p : Outcome α) (hprolong : c.Prolong d)
    (ho : solve c a initial = .ok o) (hp : solve d a initial = .ok p) :
    o.history.toList <+: p.history.toList ∧ p.initialError = o.initialError ∧
      (isFinite o.initialError = true → p.error ≤ o.error) ∧
      (o.status = .diverged → p = { o with reports := p.reports }) ∧
      (c.tolerance ≤ d.tolerance → o.status = .converged → p = o) := by
  obtain ⟨L, last, last', hlasts, rfl, rfl⟩ := outlasts_of_solve hprolong ho hp
  refine ⟨hlasts.history, rfl, ?_, ?_, ?_⟩
  · intro hf
    exact error_le_of_prefix ho hp rfl hf hlasts.history
  · intro hdiverged
    cases hlasts.diverged hdiverged
    rfl
  · intro hle hconverged
    cases hlasts.converged hle hconverged
    simp only [Run.outcome, reportOf_prolong hprolong hle]

/-- An arm whose two lengths to posts that are fixed it can reach together. -/
def caliper : Assembly Float where
  metadata := ⟨⟨0⟩, "caliper", 1, ⟨⟨2000, 1, 1⟩, 0, 0⟩, ⟨⟨2000, 1, 1⟩, 0, 0⟩⟩
  components := [
    ⟨"base", ⟨0, 0, 0⟩, .identity, .empty⟩,
    ⟨"post", ⟨10, 0, 0⟩, .identity, .empty⟩,
    ⟨"arm", ⟨5, 3, 0⟩, .identity, .empty⟩]
  constraints := [
    ⟨"ground", .fixed "base", none, 1⟩,
    ⟨"foundation", .fixed "post", none, 1⟩,
    ⟨"left", .pair (.distance 6) "base" "arm", none, 1⟩,
    ⟨"right", .pair (.distance 7) "post" "arm", none, 1⟩]

/-- Settings that are content early. -/
def lenient : Settings Float := { Settings.standard with tolerance := 1e-2 }

/-- Settings with as many iterations as the caliper needs. -/
def thrifty : Settings Float := { Settings.standard with maxIterations := 3 }

/-- Settings that bear no growing error. -/
def abrupt : Settings Float := { unyielding with divergenceWindow := 1 }

/-- The same, but content earlier and with only the iteration in which the tongs
diverge. -/
def curbed : Settings Float := { abrupt with maxIterations := 1, tolerance := 1e-3 }

/-- Solves on doubles: one that is content early and goes on to a smaller tolerance,
one that converges at its cap, and one that diverges at it. -/
theorem stopping_later_caliper :
    (∃ o p, solve lenient caliper .empty = .ok o ∧ solve .standard caliper .empty = .ok p ∧
      o.iterations = 2 ∧ p.iterations = 3 ∧ o.history.toList <+: p.history.toList ∧
      p.error ≤ o.error) ∧
    (∃ o, solve thrifty caliper .empty = .ok o ∧ solve .standard caliper .empty = .ok o) ∧
    ∃ o p, solve curbed tongs .empty = .ok o ∧ solve abrupt tongs .empty = .ok p ∧
      o.status = .diverged ∧ p = { o with reports := p.reports } := by
  have hlate : (solve .standard caliper .empty).toOption.any
      (fun p => decide (p.iterations = 3)) = true := by
    decide +kernel
  obtain ⟨p, hp, hlate⟩ := exists_eq_ok hlate
  refine ⟨?_, ?_, ?_⟩
  · have hearly : (solve lenient caliper .empty).toOption.any
        (fun o => isFinite o.initialError && decide (o.iterations = 2)) = true := by
      decide +kernel
    obtain ⟨o, ho, hearly⟩ := exists_eq_ok hearly
    obtain ⟨hf, hearly⟩ := (Bool.and_eq_true _ _).mp hearly
    obtain ⟨hhistory, -, herror, -, -⟩ := stopping_later lenient .standard caliper .empty o p
      ⟨rfl, by decide, by decide +kernel⟩ ho hp
    exact ⟨o, p, ho, hp, of_decide_eq_true hearly, of_decide_eq_true hlate, hhistory, herror hf⟩
  · have hcapped : (solve thrifty caliper .empty).toOption.any
        (fun o => decide (o.status = .converged)) = true := by
      decide +kernel
    obtain ⟨o, ho, hcapped⟩ := exists_eq_ok hcapped
    obtain ⟨-, -, -, -, hsame⟩ := stopping_later thrifty .standard caliper .empty o p
      ⟨rfl, by decide, by decide +kernel⟩ ho hp
    cases hsame (by decide +kernel) (of_decide_eq_true hcapped)
    exact ⟨p, ho, hp⟩
  · have hcapped : (solve curbed tongs .empty).toOption.any
        (fun o => decide (o.status = .diverged)) = true := by
      decide +kernel
    have hlong : (solve abrupt tongs .empty).toOption.any (fun _ => true) = true := by
      decide +kernel
    obtain ⟨o, ho, hcapped⟩ := exists_eq_ok hcapped
    obtain ⟨p, hp, -⟩ := exists_eq_ok hlong
    obtain ⟨-, -, -, hsame, -⟩ := stopping_later curbed abrupt tongs .empty o p
      ⟨rfl, by decide, by decide +kernel⟩ ho hp
    exact ⟨o, p, ho, hp, of_decide_eq_true hcapped, hsame (of_decide_eq_true hcapped)⟩

end Joinery.Newton
