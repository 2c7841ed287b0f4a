import Joinery.Assembly.Constraint
import Joinery.Exchange.Geometry
/-!
# Constraints in JSON

A constraint is one flat object: its name, its kind under `type`, the fields of
that kind, its weight, and its tolerance if it has one. It cannot be an array.

What stands under names other than `id`, `tolerance` and `weight` is taken in
before the kind is known. So all of it must be fit to be taken in, even what is
dropped afterwards: every string stands for a text, every number is within the
doubles, and nothing is nested too deeply. Two spellings count only there: a
kind may be given by its number, and an empty object is nothing, as null is.
-/

namespace Joinery.Exchange

variable {α : Type} (form : NumberForm α)

/-- How deep arrays and objects may stand inside each other. -/
def deepest : Nat := 127

mutual

/-- Whether every string in a value is a text and every number can be read. -/
def isTakenIn : Json → Bool
  | .null => true
  | .bool _ => true
  | .number n => (form.read (.number n)).isSome
  | .string l => l.text?.isSome
  | .array items => areItemsTakenIn items
  | .object members => areMembersTakenIn members

def areItemsTakenIn : List Json → Bool
  | [] => true
  | item :: rest => isTakenIn item && areItemsTakenIn rest

def areMembersTakenIn : List (Literal × Json) → Bool
  | [] => true
  | (name, value) :: rest => name.text?.isSome && isTakenIn value && areMembersTakenIn rest

end

/-- The kinds in the order of their numbers. -/
def kindNames : List String :=
  ["coincident", "distance", "fixed", "parallel", "perpendicular", "angle", "tangent", "symmetric"]

/-- A kind by its name or its number. -/
def kind? : Json → Option String
  | .string l => l.text?.bind fun name => if kindNames.contains name then some name else none
  | .number n => n.natural?.bind fun k => kindNames[k]?
  | _ => none

/-- An axis that was taken in. -/
def takenAxis? : Json → Option Axis :=
  choiceWith? (fun value => isNull value || value matches .object []) axisNames

/-- The fields that the number of a relation stands in. -/
def writeRelation : Relation α → List (String × Json)
  | .distance target => [("value", form.write target)]
  | .angle target => [("value", form.write target)]
  | .symmetric plane => [("plane", writePlane form plane)]
  | _ => []

def writeBond : Bond String α → List (String × Json)
  | .fixed a => [("element_a", .ofText a)]
  | .pair relation a b =>
    [("element_a", .ofText a), ("element_b", .ofText b)] ++ writeRelation form relation

/-- The fields of a constraint in the order they are written. -/
def constraintMembers (c : Constraint String α) : List (String × Json) :=
  [("id", .ofText c.id), ("type", .ofText c.bond.name)]
    ++ writeBond form c.bond
    ++ (match c.tolerance with
      | some tolerance => [("tolerance", form.write tolerance)]
      | none => [])
    ++ [("weight", form.write c.weight)]

def writeConstraint (c : Constraint String α) : Json := .ofMembers (constraintMembers form c)

/-- The names of the fields that all kinds have, next to the kind itself. -/
def ownNames : List String := ["id", "tolerance", "weight"]

/-- What stands under other names. -/
def otherMembers (members : List (String × Json)) : List (String × Json) :=
  members.filter fun m => !ownNames.contains m.1

/-- The relation of a kind from the fields of a constraint, each of which may
stand only once. -/
def readRelation? [Arithmetic α] (kind : String) (members : List (String × Json)) :
    Option (Relation α) :=
  let f : Fields := ⟨false, members⟩
  match kind with
  | "coincident" => some .coincident
  | "distance" =>
    if eachOnce ["value"] members then (f.required "value" form.read).map .distance else none
  | "parallel" => some .parallel
  | "perpendicular" => some .perpendicular
  | "angle" =>
    if eachOnce ["value"] members then (f.required "value" form.read).map .angle else none
  | "tangent" => some .tangent
  | "symmetric" =>
    if eachOnce ["plane"] members then
      (f.withDefault "plane" (readPlaneWith? form takenAxis?) .centre).map .symmetric
    else none
  | _ => none

def readBond? [Arithmetic α] (members : List (String × Json)) : Option (Bond String α) := do
  let f : Fields := ⟨false, members⟩
  if !eachOnce ["type", "element_a"] members then none
  let kind ← f.required "type" kind?
  let a ← f.required "element_a" text?
  if kind = "fixed" then return .fixed a
  if !eachOnce ["element_b"] members then none
  let b ← f.required "element_b" text?
  return .pair (← readRelation? form kind members) a b

/-- A constraint that stands inside `level` arrays and objects. -/
def readConstraint? [Arithmetic α] (level : Nat) (j : Json) : Option (Constraint String α) := do
  let .object members := j | none
  let members ← members? members
  let others := otherMembers members
  if !eachOnce ownNames members then none
  if !others.all (fun m => isTakenIn form m.2 && level + 1 + m.2.depth ≤ deepest) then none
  let f : Fields := ⟨false, members⟩
  return {
    id := ← f.required "id" text?
    bond := ← readBond? form others
    tolerance := ← f.optional "tolerance" form.read
    weight := ← f.withDefault "weight" form.read 1 }

end Joinery.Exchange
