import Joinery.Proofs.Newton.Convergence
/-!
# How a run ends

A run counts the errors that grow in a row at the least damping, and nothing of
that count is kept in its outcome. The history tells it all the same: the count is
the number of records at its end that grew (`Run.Tallied`), so a run diverges
exactly when the last `divergenceWindow` of them did, and never goes on past that.
The only other ways to end are convergence and the cap of iterations.
-/

namespace Joinery.Newton

open Joinery.Dense Joinery.Arithmetic LawfulOrder

/-! ## Growth in a history -/

section Before

variable {α : Type} {e : α} {history : List (Record α)} {s : Record α} {k : Nat}

/-- The error that record `k` of a history, counted from zero, is compared with:
that of the trial before, or the initial error. -/
def errorBefore (initialError : α) (history : List (Record α)) (k : Nat) : α :=
  (initialError :: history.map (·.trialError)).getD k initialError

theorem errorBefore_concat (hk : k ≤ history.length) :
    errorBefore e (history ++ [s]) k = errorBefore e history k := by
  cases k with
  | zero => rfl
  | succ k => simp [errorBefore, List.getElem?_append_left, Nat.lt_of_succ_le hk]

theorem errorBefore_last : errorBefore e (history ++ [s]) (history.length + 1) = s.trialError := by
  simp [errorBefore]

end Before

variable {α : Type} [Scalar α] {L : Linkage α} {c : Settings α}

/-- Whether a record is one of no improvement, at the least damping, with an error
worse than the one before. -/
structure Record.Grew (c : Settings α) (before : α) (s : Record α) : Prop where
  rejected : s.accepted = false
  least : s.damping ≤ c.minDamping
  worse : isFinite s.trialError = false ∨ before < s.trialError

/-- Whether a history has a record `k`, and that one grew. -/
def GrewAt (c : Settings α) (initialError : α) (history : List (Record α)) (k : Nat) : Prop :=
  ∃ s, history[k]? = some s ∧ s.Grew c (errorBefore initialError history k)

/-- Whether the last `m` of the first `n` records are there, and all of them grew. -/
def GrewFor (c : Settings α) (initialError : α) (history : List (Record α)) (m n : Nat) : Prop :=
  m ≤ n ∧ ∀ k, n - m ≤ k → k < n → GrewAt c initialError history k

section Growth

variable {e : α} {history : List (Record α)} {s : Record α} {k m n : Nat}

theorem grewAt_concat (hk : k < history.length) :
    GrewAt c e (history ++ [s]) k ↔ GrewAt c e history k := by
  unfold GrewAt
  rw [List.getElem?_append_left hk, errorBefore_concat (Nat.le_of_lt hk)]

theorem grewAt_last :
    GrewAt c e (history ++ [s]) history.length ↔
      s.Grew c (errorBefore e history history.length) := by
  unfold GrewAt
  rw [List.getElem?_concat_length, errorBefore_concat (Nat.le_refl _)]
  simp

theorem grewFor_concat (hn : n ≤ history.length) :
    GrewFor c e (history ++ [s]) m n ↔ GrewFor c e history m n := by
  refine and_congr_right fun _ => forall_congr' fun k => forall_congr' fun _ => ?_
  refine forall_congr' fun hk => grewAt_concat (Nat.lt_of_lt_of_le hk hn)

/-- One more record at the end grew, and those before it. -/
theorem grewFor_succ :
    GrewFor c e history (m + 1) (n + 1) ↔ GrewAt c e history n ∧ GrewFor c e history m n := by
  constructor
  · rintro ⟨hle, hall⟩
    exact ⟨hall n (by omega) (by omega), by omega, fun k hk hkn => hall k (by omega) (by omega)⟩
  · rintro ⟨hlast, hle, hall⟩
    refine ⟨by omega, fun k hk hkn => ?_⟩
    rcases Nat.lt_or_eq_of_le (Nat.lt_succ_iff.1 hkn) with hlt | rfl
    · exact hall k (by omega) hlt
    · exact hlast

end Growth

/-! ## Counters and history -/

/-- The counters of a run are what its history tells, and the run has diverged
exactly when its errors grew for long enough, which they did not before. -/
structure Run.Tallied (c : Settings α) (initialError : α) (r : Run α) : Prop where
  numbered : ∀ k s, r.history.toList[k]? = some s → s.iteration = k + 1
  lastTrialError_eq :
    r.lastTrialError = errorBefore initialError r.history.toList r.history.size
  growing_iff : ∀ m, GrewFor c initialError r.history.toList m r.history.size ↔ m ≤ r.growing
  not_before : ∀ n < r.history.size, ¬GrewFor c initialError r.history.toList c.divergenceWindow n
  diverged_iff : r.status = .diverged ↔ c.divergenceWindow ≤ r.growing

namespace Run

variable {r : Run α} {t : Trial α} {e : α}

/-- A trial counts as growing exactly when the record of it grew. -/
theorem grows_iff : r.grows c t = true ↔ (r.record L c t).Grew c r.lastTrialError := by
  unfold grows
  simp only [Bool.and_eq_true, Bool.or_eq_true, Bool.not_eq_true', decide_eq_true_iff]
  constructor
  · rintro ⟨⟨hrejected, hleast⟩, hworse⟩
    exact ⟨hrejected, hleast, hworse⟩
  · rintro ⟨hrejected, hleast, hworse⟩
    exact ⟨⟨hrejected, hleast⟩, hworse⟩

/-- What a step can end in: convergence, divergence, or the next step. -/
theorem status_absorb_cases (hr : r.status = .iterating) :
    (r.absorb L c t).status = .converged ∨
      (r.absorb L c t).status =
        if c.divergenceWindow ≤ (r.absorb L c t).growing then .diverged else .iterating := by
  have hstatus : (r.counted L c t).status = .iterating := status_placed.trans hr
  have hgrowing : (r.counted L c t).growing = (r.absorb L c t).growing :=
    (absorb_growing L c r t).symm
  rw [← hgrowing, absorb_eq]
  unfold settle
  split
  case isTrue => exact .inl rfl
  case isFalse =>
    right
    split
    case isTrue => rfl
    case isFalse => exact hstatus

/-- A step that converges has improved, so its error does not count as growing. -/
theorem growing_of_converged (htruthful : r.Truthful c) (hafter : (r.absorb L c t).Truthful c)
    (hr : r.status = .iterating) (hconverged : (r.absorb L c t).status = .converged) :
    (r.absorb L c t).growing = 0 := by
  have hbest := hafter.1 hconverged
  rw [absorb_bestError, bestError_placed] at hbest
  rw [absorb_growing]
  split
  case isFalse => rfl
  case isTrue hgrows =>
    have hrejected : r.improves t = false := (grows_iff (L := L).1 hgrows).rejected
    rw [hrejected] at hbest
    -- the best error is the one from before, which was not below the tolerance
    cases hr.symm.trans (htruthful.2 hbest)

/-! ## Whole runs -/

/-- The three ways to be over at the start. -/
theorem status_first_cases : ((first L c).status = .diverged ∧ isFinite (first L c).error = false) ∨
    isFinite (first L c).error = true ∧ ((first L c).status = .converged ∨
      ((first L c).status = .maxIterationsReached ∧ L.size = 0) ∨
        (first L c).status = .iterating) := by
  cases hf : isFinite (first L c).error with
  | false => exact .inl ⟨status_first_of_not_isFinite hf, rfl⟩
  | true =>
    right
    have hf' : isFinite (norm (L.deviations L.initialState)) = true := hf
    unfold first
    simp only [hf', Bool.not_true, Bool.false_eq_true, if_false, true_and]
    split
    · exact .inl rfl
    · split
      case isTrue hsize => exact .inr (.inl ⟨rfl, hsize⟩)
      case isFalse => exact .inr (.inr rfl)

theorem tallied_first (hf : isFinite (first L c).error = true) (hwindow : c.divergenceWindow ≠ 0) :
    (first L c).Tallied c (first L c).error where
  numbered k s h := by simp [first] at h
  lastTrialError_eq := rfl
  growing_iff m := ⟨fun h => h.1, fun h => ⟨h, fun k _ hk => absurd hk (Nat.not_lt_zero k)⟩⟩
  not_before n hn := absurd hn (Nat.not_lt_zero n)
  diverged_iff := by
    refine iff_of_false ?_ fun h => hwindow (Nat.le_zero.1 h)
    rcases status_first_cases (L := L) (c := c) with
      ⟨-, hf'⟩ | ⟨-, hstatus | ⟨hstatus, -⟩ | hstatus⟩
    · cases hf.symm.trans hf'
    all_goals simp [hstatus]

/-- A step keeps the tally: its record is counted as it is written down. -/
theorem Tallied.absorb (h : r.Tallied c e) (htruthful : r.Truthful c)
    (hafter : (r.absorb L c t).Truthful c) (hwindow : c.divergenceWindow ≠ 0)
    (hr : r.status = .iterating) : (r.absorb L c t).Tallied c e := by
  have hlength : r.history.toList.length = r.history.size := rfl
  have hlist : (r.absorb L c t).history.toList = r.history.toList ++ [r.record L c t] := by simp
  have hsize : (r.absorb L c t).history.size = r.history.size + 1 := by simp
  have hgrew : GrewAt c e (r.history.toList ++ [r.record L c t]) r.history.size ↔
      r.grows c t = true := by
    rw [← hlength, grewAt_last, hlength, ← h.lastTrialError_eq, grows_iff]
  refine ⟨?_, ?_, ?_, ?_, ?_⟩
  · intro k s hs
    rw [hlist, List.getElem?_append] at hs
    split at hs
    case isTrue => exact h.numbered k s hs
    case isFalse hk =>
      rw [List.getElem?_singleton] at hs
      split at hs
      case isTrue hzero =>
        cases hs
        show r.history.size + 1 = k + 1
        omega
      case isFalse => cases hs
  · rw [hlist, hsize, absorb_lastTrialError, ← hlength, errorBefore_last]
    rfl
  · intro m
    rw [hlist, hsize, absorb_growing]
    cases m with
    | zero => exact iff_of_true ⟨Nat.zero_le _, fun k hk hk' => by omega⟩ (Nat.zero_le _)
    | succ m =>
      rw [grewFor_succ, hgrew, grewFor_concat (Nat.le_of_eq hlength.symm), h.growing_iff]
      cases r.grows c t <;> simp
  · intro n hn
    rw [hsize] at hn
    rw [hlist, grewFor_concat (Nat.lt_succ_iff.1 hn)]
    rcases Nat.lt_or_eq_of_le (Nat.lt_succ_iff.1 hn) with hlt | rfl
    · exact h.not_before n hlt
    · -- the run was still under way, so its errors had not grown for long enough
      rw [h.growing_iff, ← h.diverged_iff, hr]
      simp
  · rcases status_absorb_cases (L := L) (c := c) (t := t) hr with hstatus | hstatus
    · rw [growing_of_converged htruthful hafter hr hstatus, hstatus]
      exact iff_of_false (by simp) fun hle => hwindow (Nat.le_zero.1 hle)
    · rw [hstatus]
      split
      case isTrue hle => exact iff_of_true rfl hle
      case isFalse hle => exact iff_of_false (by simp) hle

/-- The tally of a run that is over, if it started from a finite error. -/
theorem iterate?_tallied [LawfulOrder α] {n : Nat} {last : Run α}
    (h : (first L c).iterate? L c n = .ok last) (hf : isFinite (first L c).error = true)
    (hwindow : c.divergenceWindow ≠ 0) : last.Tallied c (first L c).error := by
  refine (iterate?_induction (P := fun r => r.Tallied c (first L c).error ∧
    (r.status = .iterating → r.Tracked L ∧ r.Truthful c)) ?_ ?_ h ?_).1
  · rintro r t ⟨htallied, htrue⟩ hr ht
    obtain ⟨htracked, htruthful⟩ := htrue hr
    have htracked' := htracked.absorb (c := c) ht
    have htruthful' := htruthful.absorb htracked' hr
    exact ⟨htallied.absorb htruthful htruthful' hwindow hr, fun _ => ⟨htracked', htruthful'⟩⟩
  · rintro r ⟨htallied, -⟩ hr
    -- the cap ends a run that has not diverged
    have hgrowing : ¬c.divergenceWindow ≤ r.growing := by
      rw [← htallied.diverged_iff, hr]
      simp
    exact ⟨{ htallied with diverged_iff := iff_of_false (by simp) hgrowing },
      fun hr' => by cases hr'⟩
  · exact ⟨tallied_first hf hwindow,
      fun _ => ⟨tracked_first hf, status_first.trans (and_iff_right hf)⟩⟩

/-- A run takes at most the iterations it is given, it is over after them, and the
cap is the reason only if all of them were taken. -/
theorem iterate?_ends {n : Nat} {r last : Run α} (h : r.iterate? L c n = .ok last)
    (hr : r.status ≠ .initializing) :
    last.history.size ≤ r.history.size + n ∧ last.status.isTerminal = true ∧
      (last.status = .maxIterationsReached →
        last = r ∨ last.history.size = r.history.size + n) := by
  have hover : ∀ {status : Status}, status ≠ .initializing → status ≠ .iterating →
      status.isTerminal = true := by
    intro status h h'
    cases status <;> first | rfl | contradiction
  induction n generalizing r with
  | zero =>
    unfold iterate? at h
    split at h
    case isTrue => cases h; exact ⟨Nat.le_refl _, rfl, fun _ => .inr rfl⟩
    case isFalse hs => cases h; exact ⟨Nat.le_refl _, hover hr hs, fun _ => .inl rfl⟩
  | succ n ih =>
    unfold iterate? at h
    split at h
    case isFalse hs => cases h; exact ⟨Nat.le_add_right _ _, hover hr hs, fun _ => .inl rfl⟩
    case isTrue hs =>
      obtain ⟨t, -, h⟩ := bind_eq_ok h
      have hstatus : (r.absorb L c t).status ≠ .initializing ∧
          (r.absorb L c t).status ≠ .maxIterationsReached := by
        rcases status_absorb_cases (L := L) (c := c) (t := t) hs with hs' | hs' <;> rw [hs']
        · simp
        · split <;> simp
      obtain ⟨hle, hterminal, hcap⟩ := ih h hstatus.1
      rw [absorb_history, Array.size_push] at hle hcap
      refine ⟨by omega, hterminal, fun hmax => .inr ?_⟩
      rcases hcap hmax with rfl | hsize
      · exact absurd hmax hstatus.2
      · omega

end Run

/-! ## Outcomes -/

/-- How a solve of a linkage has ended, as its history tells it. -/
structure Classified (L : Linkage α) (c : Settings α) (o : Outcome α) : Prop where
  terminal : o.status = .converged ∨ o.status = .maxIterationsReached ∨ o.status = .diverged
  iterations_eq : o.iterations = o.history.size
  iterations_le : o.iterations ≤ c.maxIterations
  numbered : ∀ k s, o.history[k]? = some s → s.iteration = k + 1
  diverged_at_start : o.status = .diverged ∧ o.iterations = 0 ↔ isFinite o.initialError = false
  diverged_later : o.status = .diverged ∧ 0 < o.iterations ↔
    GrewFor c o.initialError o.history.toList c.divergenceWindow o.iterations
  not_before : ∀ n < o.iterations,
    ¬GrewFor c o.initialError o.history.toList c.divergenceWindow n
  capped : o.status = .maxIterationsReached →
    o.iterations = c.maxIterations ∨ (L.size = 0 ∧ o.iterations = 0)

namespace Run

theorem status_first_ne_initializing : (first L c).status ≠ .initializing := by
  rcases status_first_cases (L := L) (c := c) with ⟨hs, -⟩ | ⟨-, hs | ⟨hs, -⟩ | hs⟩ <;> simp [hs]

/-- A run from no finite error has diverged without an iteration. -/
theorem iterate?_of_not_isFinite {n : Nat} {last : Run α}
    (h : (first L c).iterate? L c n = .ok last) (hf : isFinite (first L c).error = false) :
    last.status = .diverged ∧ last.history = #[] := by
  have hstatus := status_first_of_not_isFinite hf
  cases iterate?_of_over h (by simp [hstatus])
  exact ⟨hstatus, rfl⟩

/-- A run that is tallied has diverged exactly at the end of a whole window of
growing errors. -/
theorem Tallied.diverged_iff_grewFor {r : Run α} {e : α} (h : r.Tallied c e) :
    r.status = .diverged ↔ GrewFor c e r.history.toList c.divergenceWindow r.history.size := by
  rw [h.diverged_iff, h.growing_iff]

end Run

/-- A run that is over has its outcome classified. -/
theorem classified_of_run [Readout α] [LawfulOrder α] {last : Run α}
    (h : (Run.first L c).iterate? L c c.maxIterations = .ok last)
    (hwindow : c.divergenceWindow ≠ 0) :
    Classified L c (last.outcome L c (Run.first L c).error) := by
  obtain ⟨hle, hterminal, hcap⟩ := Run.iterate?_ends h Run.status_first_ne_initializing
  have hstart : (Run.first L c).history.size = 0 := rfl
  rw [hstart, Nat.zero_add] at hle hcap
  have hthree : last.status = .converged ∨ last.status = .maxIterationsReached ∨
      last.status = .diverged := by
    cases hs : last.status <;> simp_all [Status.isTerminal]
  cases hf : isFinite (Run.first L c).error with
  | false =>
    obtain ⟨hdiverged, hempty⟩ := Run.iterate?_of_not_isFinite h hf
    have hsize : last.history.size = 0 := by rw [hempty]; rfl
    exact {
      terminal := hthree
      iterations_eq := rfl
      iterations_le := hle
      numbered := fun k s hs => by simp [Run.outcome, hempty] at hs
      diverged_at_start := iff_of_true ⟨hdiverged, hsize⟩ hf
      diverged_later := by
        refine iff_of_false (fun hlate => ?_) (fun hgrew => ?_)
        · exact Nat.lt_irrefl 0 (hsize ▸ hlate.2)
        · exact hwindow (Nat.le_zero.1 (hsize ▸ hgrew.1))
      not_before := fun n hn => absurd (hsize ▸ hn) (Nat.not_lt_zero n)
      capped := fun hmax => by cases hdiverged.symm.trans hmax }
  | true =>
    have htallied := Run.iterate?_tallied h hf hwindow
    -- a window is not empty, so what diverged by one has gone through iterations
    have hlate : last.status = .diverged → 0 < last.history.size := fun hdiverged =>
      Nat.lt_of_lt_of_le (Nat.pos_of_ne_zero hwindow) (htallied.diverged_iff_grewFor.1 hdiverged).1
    exact {
      terminal := hthree
      iterations_eq := rfl
      iterations_le := hle
      numbered := fun k s hs => htallied.numbered k s (Array.getElem?_toList.trans hs)
      diverged_at_start := by
        refine iff_of_false (fun hearly => ?_) (fun hf' => by cases hf.symm.trans hf')
        exact Nat.lt_irrefl 0 (hearly.2 ▸ hlate hearly.1)
      diverged_later := (and_iff_left_of_imp hlate).trans htallied.diverged_iff_grewFor
      not_before := htallied.not_before
      capped := fun hmax => by
        rcases hcap hmax with rfl | hsize
        · rcases Run.status_first_cases (L := L) (c := c) with ⟨hs, -⟩ | ⟨-, hs | ⟨-, hzero⟩ | hs⟩
          · cases hs.symm.trans hmax
          · cases hs.symm.trans hmax
          · exact .inr ⟨hzero, rfl⟩
          · cases hs.symm.trans hmax
        · exact .inl hsize }

/-- The status and the history of a solve tell each other: it diverged exactly
when it started from no finite error or its errors grew for a whole window at the
end, and otherwise it converged, used up its iterations or had nothing to move. -/
theorem ending_classified [Readout α] [LawfulOrder α] (c : Settings α) (a : Assembly α)
    (initial : PositionMap α) (o : Outcome α) (h : solve c a initial = .ok o) :
    ∃ L, a.link? initial c.turning = .ok L ∧ Classified L c o := by
  obtain ⟨hrange, hwell, hfinite, -⟩ := solve_eq_ok_iff.1 h
  obtain ⟨last, hlast, rfl⟩ := solve_eq_ok h
  exact ⟨_, Assembly.link?_eq_ok_iff.2 ⟨hwell, hfinite, rfl⟩, classified_of_run hlast hrange.window⟩

/-- Two lengths that are too short together for an arm between two posts. -/
def tongs : Assembly Float where
  metadata := ⟨⟨0⟩, "tongs", 1, ⟨⟨2000, 1, 1⟩, 0, 0⟩, ⟨⟨2000, 1, 1⟩, 0, 0⟩⟩
  components := [
    ⟨"base", ⟨0, 0, 0⟩, .identity, .empty⟩,
    ⟨"post", ⟨10, 0, 0⟩, .identity, .empty⟩,
    ⟨"arm", ⟨5, 0.1, 0⟩, .identity, .empty⟩]
  constraints := [
    ⟨"ground", .fixed "base", none, 1⟩,
    ⟨"foundation", .fixed "post", none, 1⟩,
    ⟨"left", .pair (.distance 3) "base" "arm", none, 1⟩,
    ⟨"right", .pair (.distance 4) "post" "arm", none, 1⟩]

/-- Settings that always take whole steps, and bear one growing error. -/
def unyielding : Settings Float :=
  { Settings.standard with minDamping := 1, divergenceWindow := 2, maxIterations := 30 }

/-- A run on doubles that goes back to its best point and diverges right after:
the error is compared with that of the trial before, from where it went back. -/
theorem ending_classified_tongs : ∃ o L, solve unyielding tongs .empty = .ok o ∧
    tongs.link? .empty false = .ok L ∧ (∃ s, o.history[5]? = some s ∧ s.rolledBack = true) ∧
    o.status = .diverged ∧ o.iterations = 7 ∧ Classified L unyielding o ∧
    GrewFor unyielding o.initialError o.history.toList 2 7 := by
  have hsolve : (solve unyielding tongs .empty).toOption.any (fun o =>
      decide (o.status = .diverged ∧ o.iterations = 7) &&
        o.history[5]?.any (·.rolledBack)) = true := by
    decide +kernel
  obtain ⟨o, ho, hsolve⟩ := exists_eq_ok hsolve
  obtain ⟨hended, hback⟩ := (Bool.and_eq_true _ _).mp hsolve
  obtain ⟨hdiverged, hseven⟩ := of_decide_eq_true hended
  obtain ⟨L, hL, hclassified⟩ := ending_classified unyielding tongs .empty o ho
  refine ⟨o, L, ho, hL, (Option.any_eq_true _ _).1 hback, hdiverged, hseven, hclassified, ?_⟩
  have hgrew := hclassified.diverged_later.1 ⟨hdiverged, by rw [hseven]; decide⟩
  rwa [hseven] at hgrew

end Joinery.Newton
