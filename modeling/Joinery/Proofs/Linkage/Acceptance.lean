import Joinery.Proofs.Assembly.Listing
import Joinery.Proofs.Linkage.Poses
import Joinery.Proofs.Scalar.Double
/-!
# Which assemblies are linked

An assembly is refused for the first problem in the list, and one without problems
for the first component that does not start from finite numbers. All others have a
linkage, and it says the same as the assembly: its members are the components, and
its constraints hold the components they name.
-/

namespace Joinery

variable {α : Type}

namespace Bond

variable {ρ σ τ : Type} {bond : Bond ρ α}

theorem map_map (f : ρ → σ) (g : σ → τ) : (bond.map f).map g = bond.map fun x => g (f x) := by
  cases bond <;> rfl

theorem map_congr {f g : ρ → σ} (h : ∀ x ∈ bond.ends, f x = g x) : bond.map f = bond.map g := by
  cases bond with
  | fixed a => rw [map, map, h a (by simp [ends])]
  | pair relation a b => rw [map, map, h a (by simp [ends]), h b (by simp [ends])]

end Bond

variable [Scalar α]

/-- What a linkage says of its assembly. -/
structure Linkage.Describes (L : Linkage α) (a : Assembly α) (initial : PositionMap α)
    (turning : Bool) : Prop where
  /-- The members are the components in their order, from where they start. -/
  members : L.members.toList = a.components.map fun part =>
    ⟨part.id, ⟨(initial.get? part.id).getD part.position, part.orientation⟩, part.radius⟩
  /-- With the identifiers of the components for their places, the constraints are
  those of the assembly in their order. -/
  constraints : L.constraints.map (fun con =>
      { con with bond := con.bond.map fun i => a.components[i]?.map (·.id) }) =
    a.constraints.map fun con => { con with bond := con.bond.map some }
  turning : L.layout.turning = turning
  /-- What is not fixed has a stretch of the state, in the order of the components. -/
  regular : L.Regular
  pinned : ∀ i part, a.components[i]? = some part →
    (L.layout.isPinned i = true ↔ ∃ con ∈ a.constraints, con.bond = .fixed part.id)

namespace Assembly

variable {a : Assembly α} {initial : PositionMap α} {turning : Bool}

/-- A place is pinned exactly when a constraint fixes the component there. -/
theorem isPinned_linkage_iff (hwell : a.WellFormed) {i : Nat} {part : Component α}
    (hi : a.components[i]? = some part) :
    (a.linkage initial turning).layout.isPinned i = true ↔
      ∃ con ∈ a.constraints, con.bond = .fixed part.id := by
  rw [Layout.isPinned, Option.isNone_iff_eq_none]
  constructor
  · intro hnone
    obtain ⟨hlt, -⟩ := List.getElem?_eq_some_iff.1 hi
    have hsize : i < (a.linkage initial turning).members.size := by simpa [linkage] using hlt
    rw [(Linkage.regular_linkage a initial turning).offset?_eq hsize] at hnone
    have hfixed : isFixedBy (a.linkage initial turning).constraints i = true := by
      by_contra hfree
      rw [if_neg hfree] at hnone
      cases hnone
    obtain ⟨linked, hlinked, hi'⟩ := List.any_eq_true.1 hfixed
    obtain ⟨con, hcon, rfl⟩ := List.mem_map.1 hlinked
    rw [Bool.and_eq_true, beq_iff_eq] at hi'
    obtain ⟨hfix, hfirst⟩ := hi'
    refine ⟨con, hcon, ?_⟩
    cases hbond : con.bond with
    | fixed id =>
      simp only [Constraint.linked, hbond, Bond.map, Bond.first] at hfirst
      rw [a.eq_id_of_idxOf hwell hcon hi (by simp [hbond, Bond.ends]) hfirst]
    | pair relation x y =>
      simp only [Constraint.linked, hbond, Bond.map, Bond.isFixed] at hfix
      cases hfix
  · rintro ⟨con, hcon, hbond⟩
    exact a.offset?_of_fixed hwell hcon hi hbond

/-- The linkage of a well-formed assembly says what the assembly says. -/
theorem describes_linkage (hwell : a.WellFormed) (initial : PositionMap α) (turning : Bool) :
    (a.linkage initial turning).Describes a initial turning where
  members := by simp [linkage, Component.member]
  constraints := by
    rw [linkage, List.map_map]
    refine List.map_congr_left fun con hcon => ?_
    have hname : ∀ id ∈ con.bond.ends,
        a.components[(a.components.map (·.id)).idxOf id]?.map (·.id) = some id := by
      intro id hid
      have hlt := List.idxOf_lt_length_iff.2 (hwell.ends_known con hcon id hid)
      rw [← List.getElem?_map, List.getElem?_eq_getElem hlt, List.getElem_idxOf]
    simp only [Function.comp_apply, Constraint.linked, Bond.map_map, Bond.map_congr hname]
  turning := rfl
  regular := Linkage.regular_linkage a initial turning
  pinned _ _ hi := isPinned_linkage_iff hwell hi

/-- The problems of an assembly are what its identifiers, ends and numbers say
they are, and there is none exactly when it is in order. The first problem refuses
it, else the first component that does not start from finite numbers, and else it
has a linkage that says the same. -/
theorem accepted_exactly [LawfulArithmetic α] (a : Assembly α) (initial : PositionMap α)
    (turning : Bool) :
    (a.problems = [] ↔ a.InOrder) ∧ a.Lists ∧
      (∀ e rest, a.problems = e :: rest → a.link? initial turning = .error (.rejected e)) ∧
      (∀ before part after, a.problems = [] → a.components = before ++ part :: after →
        (∀ other ∈ before, other.startIsFinite initial = true) →
        part.startIsFinite initial = false →
        a.link? initial turning = .error (.rejected (.nonFiniteInput part.id))) ∧
      (a.problems = [] → (∀ part ∈ a.components, part.startIsFinite initial = true) →
        ∃ L, a.link? initial turning = .ok L ∧ L.Describes a initial turning) := by
  refine ⟨problems_eq_nil_iff.trans wellFormed_iff_inOrder, lists_problems a, ?_, ?_, ?_⟩
  · intro e rest hproblems
    rw [link?_eq, hproblems]
    rfl
  · intro before part after hproblems hparts hbefore hpart
    have hfind : a.components.find? (fun c => !c.startIsFinite initial) = some part := by
      rw [List.find?_eq_some_iff_append, hpart]
      exact ⟨rfl, before, after, hparts, fun other hother => by simp [hbefore other hother]⟩
    rw [link?_eq, hproblems, hfind]
    rfl
  · intro hproblems hparts
    have hfind : a.components.find? (fun c => !c.startIsFinite initial) = none :=
      List.find?_eq_none.2 fun part hpart => by simp [hparts part hpart]
    rw [link?_eq, hproblems, hfind]
    exact ⟨_, rfl, describes_linkage (problems_eq_nil_iff.1 hproblems) initial turning⟩

/-- Three shelves of one name, and a weight of nothing on a screw that holds none of them. -/
def stack : Assembly Float where
  metadata := ⟨⟨0⟩, "stack", 1, ⟨⟨2000, 1, 1⟩, 0, 0⟩, ⟨⟨2000, 1, 1⟩, 0, 0⟩⟩
  components := [
    ⟨"shelf", ⟨0, 0, 0⟩, .identity, .empty⟩,
    ⟨"shelf", ⟨0, 0, 1⟩, .identity, .empty⟩,
    ⟨"shelf", ⟨0, 0, 2⟩, .identity, .empty⟩]
  constraints := [
    ⟨"screw", .pair (.distance 1) "shelf" "wall", none, 0⟩]

theorem accepted_exactly_stack :
    stack.link? .empty false = .error (.rejected (.duplicateComponent "shelf")) ∧
      (stack.problems.filterMap InputError.repeatedComponent?).count "shelf" = 2 ∧
      stack.problems.filterMap InputError.dangling? = [("screw", "wall")] := by
  obtain ⟨-, hlists, hfirst, -, -⟩ := accepted_exactly stack .empty false
  exact ⟨hfirst _ _ rfl, hlists.components "shelf", hlists.dangling.trans (by decide)⟩

end Assembly

end Joinery
