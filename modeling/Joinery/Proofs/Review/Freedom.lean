import Mathlib
import Joinery.Proofs.Linkage.Stretches
import Joinery.Review.Freedom
/-!
# Freedom and the size of a state

A review counts freedom by the identifiers that constraints fix, and a linkage by the places
that they fix. Both come to the same: what fixing takes away is that of the components with
one of these identifiers, each of them once (`freedomRemoved_eq`), and all others have their
numbers in the state. So the freedom that remains is the size of the state less what the
constraints between components take away.
-/

namespace Joinery

variable {α ρ : Type}

/-- The identifiers of the components that constraints fix, as often as they are fixed. -/
def fixedIds (constraints : List (Constraint ρ α)) : List ρ :=
  (constraints.filter (·.bond.isFixed)).map (·.bond.first)

/-- What constraints between components take away together. -/
def removedBetween (turning : Bool) (constraints : List (Constraint ρ α)) : Nat :=
  ((constraints.filter fun con => !con.bond.isFixed).map (·.bond.freedomRemoved turning)).sum

/-! ## Components that are fixed again -/

/-- What constraints take away is what they take from each component that they fix and that
was not fixed before, and what they take away between components. -/
theorem freedomRemoved_eq (turning : Bool) (pinned : List String)
    (constraints : List (Constraint String α)) :
    freedomRemoved turning pinned constraints =
      freedomOfPart turning * ((fixedIds constraints).toFinset \ pinned.toFinset).card +
        removedBetween turning constraints := by
  induction constraints generalizing pinned with
  | nil => simp [freedomRemoved, fixedIds, removedBetween]
  | cons con rest ih =>
    unfold freedomRemoved
    cases hfixed : con.bond.isFixed with
    | false =>
      have hids : fixedIds (con :: rest) = fixedIds rest := by simp [fixedIds, hfixed]
      have hbetween : removedBetween turning (con :: rest) =
          con.bond.freedomRemoved turning + removedBetween turning rest := by
        simp [removedBetween, hfixed]
      rw [if_neg Bool.false_ne_true, ih, hids, hbetween]
      omega
    | true =>
      have hids : (fixedIds (con :: rest)).toFinset =
          insert con.bond.first (fixedIds rest).toFinset := by
        simp [fixedIds, hfixed]
      have hbetween : removedBetween turning (con :: rest) = removedBetween turning rest := by
        simp [removedBetween, hfixed]
      rw [if_pos rfl, hids, hbetween]
      by_cases hseen : con.bond.first ∈ pinned
      · rw [if_pos (List.contains_iff_mem.2 hseen), ih,
          Finset.insert_sdiff_of_mem _ (List.mem_toFinset.2 hseen)]
      · have hnew : con.bond.first ∉ pinned.toFinset := fun h => hseen (List.mem_toFinset.1 h)
        -- the component counts here, and not again among the rest
        have hcard : (insert con.bond.first (fixedIds rest).toFinset \ pinned.toFinset).card =
            ((fixedIds rest).toFinset \ (con.bond.first :: pinned).toFinset).card + 1 := by
          rw [Finset.insert_sdiff_of_notMem _ hnew, List.toFinset_cons, Finset.sdiff_insert,
            ← Finset.erase_insert_eq_erase,
            Finset.card_erase_add_one (Finset.mem_insert_self _ _)]
        have hremoved : con.bond.freedomRemoved turning = freedomOfPart turning := by
          cases hbond : con.bond with
          | fixed id => rfl
          | pair relation x y => rw [hbond] at hfixed; cases hfixed
        rw [if_neg (by simpa using hseen), ih, hcard, hremoved, Nat.mul_succ]
        omega

/-- What fixing takes away does not hang on the order of constraints. -/
theorem freedomRemoved_perm {constraints constraints' : List (Constraint String α)}
    (h : constraints'.Perm constraints) (turning : Bool) :
    freedomRemoved turning [] constraints' = freedomRemoved turning [] constraints := by
  have hids : (fixedIds constraints').toFinset = (fixedIds constraints).toFinset :=
    List.toFinset_eq_of_perm _ _ ((h.filter _).map _)
  have hbetween : removedBetween turning constraints' = removedBetween turning constraints :=
    ((h.filter _).map _).sum_eq
  rw [freedomRemoved_eq, freedomRemoved_eq, hids, hbetween]

/-! ## Assemblies with a linkage -/

namespace Assembly

variable {a : Assembly α}

theorem mem_fixedIds {id : String} : id ∈ fixedIds a.constraints ↔ a.fixes id = true := by
  simp [fixedIds, fixes, and_assoc]

variable [Scalar α]

/-- In a well-formed assembly each identifier that is fixed is that of one component. -/
theorem card_fixedIds (hwell : a.WellFormed) :
    (fixedIds a.constraints).toFinset.card = a.components.countP fun part => a.fixes part.id := by
  have hids : (fixedIds a.constraints).toFinset =
      ((a.components.map (·.id)).filter a.fixes).toFinset := by
    ext id
    simp only [List.mem_toFinset, List.mem_filter, mem_fixedIds]
    refine ⟨fun hfixed => ⟨?_, hfixed⟩, And.right⟩
    obtain ⟨con, hcon, hbond⟩ := fixes_iff.1 hfixed
    exact hwell.ends_known con hcon id (by simp [hbond, Bond.ends])
  rw [hids, List.toFinset_card_of_nodup (hwell.components_nodup.filter _),
    ← List.countP_eq_length_filter, List.countP_map]
  rfl

/-- The constraints of a linkage take away between its members what those of the assembly
take away between components. -/
theorem removedBetween_linkage (initial : PositionMap α) (turning : Bool) :
    removedBetween turning (a.linkage initial turning).constraints =
      removedBetween turning a.constraints := by
  show removedBetween turning (a.constraints.map _) = _
  unfold removedBetween
  rw [List.filter_map, List.map_map]
  have hfixed : ((fun con : Constraint Nat α => !con.bond.isFixed) ∘
      Constraint.linked (a.components.map (·.id))) = fun con => !con.bond.isFixed := by
    funext con
    simp [Constraint.linked]
  rw [hfixed]
  refine congrArg List.sum (List.map_congr_left fun con _ => ?_)
  rw [Function.comp_apply, Constraint.linked]
  cases con.bond <;> rfl

/-- The freedom that remains in an assembly that has a linkage is the size of its states less
what the constraints take away that fix nothing, in the assembly or in the linkage, whichever
components are fixed and how often; and the order of components and constraints does not
matter for the freedom of any assembly. -/
theorem freedom_of_link :
    (∀ (a : Assembly α) (initial : PositionMap α) (turning : Bool) (L : Linkage α),
      a.link? initial turning = .ok L →
        a.freedom turning = (L.size : Int) -
          ((a.constraints.filter fun con => !con.bond.isFixed).map
            (·.bond.freedomRemoved turning)).sum ∧
        ((L.constraints.filter fun con => !con.bond.isFixed).map
            (·.bond.freedomRemoved turning)).sum =
          ((a.constraints.filter fun con => !con.bond.isFixed).map
            (·.bond.freedomRemoved turning)).sum) ∧
    ∀ (a b : Assembly α) (turning : Bool), b.components.Perm a.components →
      b.constraints.Perm a.constraints → b.freedom turning = a.freedom turning := by
  constructor
  · intro a initial turning L h
    obtain ⟨hwell, -, rfl⟩ := link?_eq_ok_iff.1 h
    refine ⟨?_, removedBetween_linkage initial turning⟩
    show _ = _ - (removedBetween turning a.constraints : Int)
    rw [size_linkage hwell, freedom, freedomRemoved_eq, List.toFinset_nil, Finset.sdiff_empty,
      card_fixedIds hwell]
    -- every component is fixed or has its numbers in the state
    have hsplit := a.components.length_eq_countP_add_countP fun part => a.fixes part.id
    simp only [Bool.not_eq_true, Bool.decide_eq_false] at hsplit
    rw [hsplit]
    push_cast
    ring
  · intro a b turning hcomponents hconstraints
    rw [freedom, freedom, hcomponents.length_eq, freedomRemoved_perm hconstraints]

/-- Two drawers that turn have twelve numbers and lose one to the gap between them, however
the two screws of the frame are listed. -/
theorem freedom_of_link_chest :
    (∃ L, chest.link? .empty true = .ok L ∧ L.size = 12 ∧ chest.freedom true = 11) ∧
      { chest with constraints := chest.constraints.reverse }.freedom true =
        chest.freedom true := by
  constructor
  · have hlink : (chest.link? .empty true).toOption.any (fun L => L.size = 12 ∧
        ((L.constraints.filter fun con => !con.bond.isFixed).map
          (·.bond.freedomRemoved true)).sum = 1) = true := by
      decide +kernel
    obtain ⟨L, hL, hlink⟩ := exists_eq_ok hlink
    obtain ⟨hsize, hsum⟩ := of_decide_eq_true hlink
    obtain ⟨hfreedom, hsame⟩ := freedom_of_link.1 chest .empty true L hL
    refine ⟨L, hL, hsize, ?_⟩
    rw [hfreedom, ← hsame, hsize, hsum]
    rfl
  · exact freedom_of_link.2 chest _ true (.refl _) (List.reverse_perm _)

end Assembly

end Joinery
