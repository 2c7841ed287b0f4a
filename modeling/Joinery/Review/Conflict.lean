import Joinery.Assembly.Basic
/-!
# Conflicts

Two distances, or two angles, between the same two components conflict when
their targets differ. It does not matter which component stands first. Every
target is compared with the first one for its relation and pair.
-/

namespace Joinery.Review

/-- What two constraints must share to conflict: the kind of relation and the
two components, the lesser identifier first. -/
structure Subject where
  kind : String
  first : String
  second : String
deriving Repr, DecidableEq

/-- Two constraints that ask for different numbers. -/
structure Conflict (α : Type) where
  subject : Subject
  earlier : String
  earlierTarget : α
  later : String
  laterTarget : α
deriving Repr

variable {α : Type} [Arithmetic α]

/-- The subject of a constraint that has a target, and that target. -/
def subject? (c : Constraint String α) : Option (Subject × α) :=
  match c.bond with
  | .fixed _ => none
  | .pair relation a b =>
    let pair := if b < a then (b, a) else (a, b)
    relation.target?.map fun target => (⟨relation.name, pair.1, pair.2⟩, target)

/-- Whether two targets are too far apart to be one. -/
def differ (s t : α) : Prop := 1e-9 < Arithmetic.abs (s - t)

instance (s t : α) : Decidable (differ s t) := inferInstanceAs (Decidable (_ < _))

/-- The conflicts of constraints, after those whose first targets are `seen`. -/
def conflictsAfter (seen : List (Subject × String × α)) :
    List (Constraint String α) → List (Conflict α)
  | [] => []
  | c :: rest =>
    match subject? c with
    | none => conflictsAfter seen rest
    | some (subject, target) =>
      match seen.lookup subject with
      | none => conflictsAfter ((subject, c.id, target) :: seen) rest
      | some (earlier, earlierTarget) =>
        if differ earlierTarget target then
          ⟨subject, earlier, earlierTarget, c.id, target⟩ :: conflictsAfter seen rest
        else conflictsAfter seen rest

/-- The conflicts among the constraints of an assembly. -/
def conflicts (a : Assembly α) : List (Conflict α) := conflictsAfter [] a.constraints

end Joinery.Review
