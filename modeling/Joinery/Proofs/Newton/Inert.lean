import Mathlib
import Joinery.Proofs.Linkage.Lookup
import Joinery.Proofs.Newton.Convergence
import Joinery.Proofs.Newton.Told
/-!
# Directions where nothing turns

Where components do not turn, no variable is an angle, so a constraint on directions
reads nothing of a state. Its row is zero and tells nothing, in every state, so the
correction is that of the assembly without it. It deviates at the end of a solve as it
did at the start.
-/

namespace Joinery

open Joinery.Dense Joinery.Newton

/-! ## Linkages -/

theorem Layout.not_turns {l : Layout} (h : l.turning = false) (i j : Nat) : ¬l.Turns i j := by
  rintro ⟨k, -, hle, hlt⟩
  have hthree : l.stride = 3 := by simp [stride, freedomOfPart, h]
  omega

/-- A bond on directions hangs on no variable where nothing turns. -/
theorem Bond.not_reads {α : Type} {l : Layout} {bond : Bond Nat α} (h : l.turning = false)
    (hd : bond.isDirectional = true) (j : Nat) : ¬bond.Reads l j := by
  rw [reads_iff]
  rintro ⟨-, i, -, hturns⟩
  rw [if_pos hd] at hturns
  exact Layout.not_turns h i j hturns

namespace Linkage

variable {L : Linkage ℝ}

/-- The linkage without its constraints on directions. -/
def undirected {α : Type} (L : Linkage α) : Linkage α :=
  { L with constraints := L.constraints.filter fun con => !con.bond.isDirectional }

/-- The correction is told the same without the constraints on directions. -/
theorem told_undirected (h : L.layout.turning = false) (c : Settings ℝ) (s : Array ℝ) :
    L.undirected.told c s = L.told c s := by
  have hread : ∀ con ∈ L.constraints, (!con.bond.isDirectional) = false →
      ∀ j, ¬con.bond.Reads L.layout j := by
    intro con _ hd
    exact Bond.not_reads h (by simpa using hd)
  exact told_filter hread c s

theorem correctionAt?_undirected (h : L.layout.turning = false) (c : Settings ℝ) (s : Array ℝ) :
    L.undirected.correctionAt? c s = L.correctionAt? c s := by
  rw [correctionAt?_eq, correctionAt?_eq, told_undirected h]
  rfl

theorem Sound.undirected (h : L.Sound) (hregular : L.undirected.Regular) : L.undirected.Sound where
  regular := hregular
  ends_lt con hcon := h.ends_lt con (List.mem_of_mem_filter hcon)

end Linkage

/-! ## Assemblies -/

namespace Assembly

variable {a : Assembly ℝ} {initial : PositionMap ℝ} {turning : Bool} {L : Linkage ℝ}

/-- The assembly without its constraints on directions. -/
def undirected {α : Type} (a : Assembly α) : Assembly α :=
  { a with constraints := a.constraints.filter fun con => !con.bond.isDirectional }

/-- What fixes a member is no constraint on directions. -/
theorem isFixedBy_undirected (l : List (Constraint Nat ℝ)) :
    isFixedBy (l.filter fun con => !con.bond.isDirectional) = isFixedBy l := by
  funext i
  unfold isFixedBy
  rw [List.any_filter]
  refine congrArg (List.any l) (funext fun con => ?_)
  cases con.bond with
  | fixed => rfl
  | pair relation => simp [Bond.isFixed]

theorem linkage_undirected (a : Assembly ℝ) (initial : PositionMap ℝ) (turning : Bool) :
    a.undirected.linkage initial turning = (a.linkage initial turning).undirected := by
  have hconstraints : (a.constraints.filter fun con => !con.bond.isDirectional).map
      (Constraint.linked (a.components.map (·.id))) =
        (a.constraints.map (Constraint.linked (a.components.map (·.id)))).filter
          fun con => !con.bond.isDirectional := by
    rw [List.filter_map]
    refine congrArg (List.map _) (List.filter_congr fun con _ => ?_)
    simp [Constraint.linked]
  simp only [linkage, undirected, Linkage.undirected, hconstraints, isFixedBy_undirected]

/-- An assembly that is linked is linked without its constraints on directions too. -/
theorem link?_undirected (h : a.link? initial turning = .ok L) :
    a.undirected.link? initial turning = .ok L.undirected := by
  obtain ⟨hwell, hfinite, rfl⟩ := link?_eq_ok_iff.1 h
  have hmem : ∀ con ∈ a.undirected.constraints, con ∈ a.constraints :=
    fun con hcon => List.mem_of_mem_filter hcon
  have hwell' : a.undirected.WellFormed := {
    components_nodup := hwell.components_nodup
    radius_ok := hwell.radius_ok
    constraints_nodup :=
      hwell.constraints_nodup.sublist (List.Sublist.map _ List.filter_sublist)
    ends_known := fun con hcon => hwell.ends_known con (hmem con hcon)
    numbers_ok := fun con hcon => hwell.numbers_ok con (hmem con hcon) }
  exact link?_eq_ok_iff.2 ⟨hwell', hfinite, (a.linkage_undirected initial turning).symm⟩

end Assembly

/-! ## Steps and solves -/

namespace Newton

variable {L : Linkage ℝ} {c : Settings ℝ} {a : Assembly ℝ} {initial : PositionMap ℝ}

/-- A run whose state fits can take a step. -/
theorem Run.exists_probe? (hL : L.Sound) (c : Settings ℝ) {r : Run ℝ} {s : Array ℝ}
    (hs : s.size = L.size) (hr : r.stand = ⟨s, L.deviations s⟩) :
    ∃ t, r.probe? L c = .ok t ∧ L.correctionAt? c s = .ok t.correction := by
  -- a step does not look at the best point
  have hfits : ({ r with best := s } : Run ℝ).Fits L :=
    ⟨by simp [hr, hs], by simp [hr], hs⟩
  have hsited : r.Sited L := by simp [Run.Sited, hr]
  obtain ⟨t, ht, -⟩ := Run.probe?_total hL hfits c
  have ht' : r.probe? L c = .ok t := ht
  have hk := hsited.correctionAt?_eq ht'
  rw [hr] at hk
  exact ⟨t, ht', hk⟩

/-- In one state, the runs with and without constraints on directions take the same
step. -/
theorem probe?_undirected (hL : L.Sound) (hU : L.undirected.Sound) (h : L.layout.turning = false)
    {s : Array ℝ} (hs : s.size = L.size) (c : Settings ℝ) {r r' : Run ℝ}
    (hr : r.stand = ⟨s, L.deviations s⟩) (hr' : r'.stand = ⟨s, L.undirected.deviations s⟩) :
    ∃ t t', r.probe? L c = .ok t ∧ r'.probe? L.undirected c = .ok t' ∧
      t'.correction = t.correction := by
  obtain ⟨t, ht, hk⟩ := Run.exists_probe? hL c hs hr
  obtain ⟨t', ht', hk'⟩ := Run.exists_probe? hU c hs hr'
  rw [Linkage.correctionAt?_undirected h, hk] at hk'
  exact ⟨t, t', ht, ht', (Except.ok.inj hk').symm⟩

/-- Where nothing turns and all constraints are on directions, a run is as far off wherever
its first step leads. -/
theorem Run.improves_inert {t : Trial ℝ} (h : L.layout.turning = false)
    (hd : ∀ con ∈ L.constraints, con.bond.isDirectional = true) (ht : (first L c).Reads L t) :
    (first L c).improves t = false := by
  have hsame : ∀ s, L.deviations s = L.deviations L.initialState := fun s =>
    congrArg List.toArray (List.map_congr_left fun con hcon =>
      Linkage.deviation_inert (Bond.not_reads h (hd con hcon)) s _)
  have herror : t.error = (first L c).bestError := by
    cases ht with
    | still k => rfl
    | moved k point _ => exact congrArg Dense.norm (hsame point)
  rw [Run.improves, herror]
  simp

section Solves

variable [Readout ℝ] {o : Outcome ℝ} {con : Constraint String ℝ} {i : Nat}

/-- A constraint on directions deviates at the end of a solve as at its start. -/
theorem deviation_inert_of_solve (hc : c.turning = false) (h : solve c a initial = .ok o)
    (hi : a.constraints[i]? = some con) (hd : con.bond.isDirectional = true) :
    ∃ d, con.errorIn a initial = .ok d ∧ o.deviations[i]? = some d := by
  have hends := (solve_eq_ok_iff.1 h).2.1.ends_known con (List.mem_of_getElem? hi)
  obtain ⟨last, -, rfl⟩ := solve_eq_ok h
  have hlinked : (con.linked (a.components.map (·.id))).bond.isDirectional = true := by
    simpa [Constraint.linked] using hd
  refine ⟨_, Constraint.errorIn_eq_deviation c.turning hends, ?_⟩
  rw [Linkage.deviation_inert (L := a.linkage initial c.turning) (Bond.not_reads hc hlinked) _
    last.best]
  simp [Run.outcome, Linkage.deviations, Assembly.linkage, hi]

/-- Where a constraint on directions is off by the tolerance at the start, no solve
converges. -/
theorem not_converged_of_inert (h : solve c a initial = .ok o) {d : ℝ}
    (hi : o.deviations[i]? = some d) (hd : c.tolerance ≤ |d|) :
    o.status ≠ .converged ∧ o.converged = false := by
  have hnever : ¬o.converged = true := by
    intro hconverged
    have hmem : d ∈ o.deviations.toList := Array.mem_toList_iff.2 (Array.mem_of_getElem? hi)
    have hlt := abs_lt_of_converged h hconverged d hmem
    exact absurd hd (not_le.2 hlt)
  exact ⟨fun hstatus => hnever ((converged_eq h).2 hstatus), Bool.eq_false_iff.2 hnever⟩

end Solves

end Newton

end Joinery
