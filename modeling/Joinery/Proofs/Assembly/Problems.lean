import Joinery.Assembly.Problems
/-!
# Assemblies without problems

An assembly has no problems exactly when it is well formed: identifiers are used
once, every end of a constraint is a component, and the numbers of components
and constraints are in range.
-/

namespace Joinery

variable {α : Type}

theorem Bond.first_mem_ends {ρ : Type} (bond : Bond ρ α) : bond.first ∈ bond.ends := by
  cases bond <;> simp [first, ends]

variable [Scalar α]

/-- What the search for problems finds nothing wrong with. -/
structure Assembly.WellFormed (a : Assembly α) : Prop where
  components_nodup : (a.components.map (·.id)).Nodup
  radius_ok : ∀ c ∈ a.components, c.radiusProblem? = none
  constraints_nodup : (a.constraints.map (·.id)).Nodup
  ends_known : ∀ c ∈ a.constraints, ∀ id ∈ c.bond.ends, id ∈ a.components.map (·.id)
  numbers_ok : ∀ c ∈ a.constraints, c.defect? = none

theorem Component.problems_eq_nil_iff {seen : List String} {l : List (Component α)} :
    Component.problems seen l = [] ↔
      (l.map (·.id)).Nodup ∧ (∀ c ∈ l, c.id ∉ seen) ∧ ∀ c ∈ l, c.radiusProblem? = none := by
  induction l generalizing seen with
  | nil => simp [problems]
  | cons c rest ih =>
    simp only [problems, List.append_eq_nil_iff, ih, List.map_cons, List.nodup_cons,
      List.mem_cons, forall_eq_or_imp, Option.toList_eq_nil_iff, not_or]
    constructor
    · rintro ⟨⟨hseen, hradius⟩, hnodup, hrest, hall⟩
      refine ⟨⟨?_, hnodup⟩, ⟨by simpa using hseen, fun d hd => (hrest d hd).2⟩, hradius, hall⟩
      rw [List.mem_map]
      rintro ⟨d, hd, heq⟩
      exact (hrest d hd).1 heq
    · rintro ⟨⟨hnew, hnodup⟩, ⟨hseen, hrest⟩, hradius, hall⟩
      refine ⟨⟨by simpa using hseen, hradius⟩, hnodup, fun d hd => ⟨?_, hrest d hd⟩, hall⟩
      intro heq
      exact hnew (heq ▸ List.mem_map_of_mem hd)

theorem Constraint.problems_eq_nil_iff {known seen : List String}
    {l : List (Constraint String α)} :
    Constraint.problems known seen l = [] ↔
      (l.map (·.id)).Nodup ∧ (∀ c ∈ l, c.id ∉ seen) ∧
        (∀ c ∈ l, ∀ id ∈ c.bond.ends, id ∈ known) ∧ ∀ c ∈ l, c.defect? = none := by
  induction l generalizing seen with
  | nil => simp [problems]
  | cons c rest ih =>
    simp only [problems, List.append_eq_nil_iff, ih, List.map_cons, List.nodup_cons,
      List.mem_cons, forall_eq_or_imp, Option.toList_eq_nil_iff, Option.map_eq_none_iff,
      List.map_eq_nil_iff, List.filter_eq_nil_iff, not_or]
    constructor
    · rintro ⟨⟨⟨hseen, hends⟩, hnumbers⟩, hnodup, hrest, hknown, hall⟩
      refine ⟨⟨?_, hnodup⟩, ⟨by simpa using hseen, fun d hd => (hrest d hd).2⟩,
        ⟨by simpa using hends, hknown⟩, hnumbers, hall⟩
      rw [List.mem_map]
      rintro ⟨d, hd, heq⟩
      exact (hrest d hd).1 heq
    · rintro ⟨⟨hnew, hnodup⟩, ⟨hseen, hrest⟩, ⟨hends, hknown⟩, hnumbers, hall⟩
      refine ⟨⟨⟨by simpa using hseen, by simpa using hends⟩, hnumbers⟩, hnodup,
        fun d hd => ⟨?_, hrest d hd⟩, hknown, hall⟩
      intro heq
      exact hnew (heq ▸ List.mem_map_of_mem hd)

/-- An assembly has no problems exactly when it is well formed. -/
theorem Assembly.problems_eq_nil_iff {a : Assembly α} : a.problems = [] ↔ a.WellFormed := by
  unfold problems
  rw [List.append_eq_nil_iff, List.append_eq_nil_iff, Component.problems_eq_nil_iff,
    Constraint.problems_eq_nil_iff]
  constructor
  · rintro ⟨⟨-, hnodup, -, hradius⟩, hnodup', -, hends, hnumbers⟩
    exact ⟨hnodup, hradius, hnodup', hends, hnumbers⟩
  · rintro ⟨hnodup, hradius, hnodup', hends, hnumbers⟩
    refine ⟨⟨?_, hnodup, by simp, hradius⟩, hnodup', by simp, hends, hnumbers⟩
    -- a constraint without components has an end that is not there
    rcases hc : a.constraints with _ | ⟨c, rest⟩
    · simp
    · have hend := hends c (by simp [hc]) c.bond.first c.bond.first_mem_ends
      cases hcomp : a.components with
      | nil => simp [hcomp] at hend
      | cons => simp

end Joinery
