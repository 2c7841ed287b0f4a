import Joinery.Json.Basic
/-!
# Records in JSON

A record is an object with named fields, or an array of its fields in order. In
an object unknown names are passed over, and a known name may stand only once.
An array may end early; then the fields at its end are missing.

A field can be required, have a default, or be optional. A default stands in
for a missing field in either form. An optional field may be missing from an
object but not from an array.
-/

namespace Joinery.Exchange

/-- The fields of a record as far as they are there. -/
structure Fields where
  /-- Whether the record was an array. -/
  listed : Bool
  values : List (String × Json)

/-- The members of an object, if all names are texts. -/
def members? (members : List (Literal × Json)) : Option (List (String × Json)) :=
  members.mapM fun m => m.1.text?.map fun name => (name, m.2)

/-- Whether none of the names stands twice. -/
def eachOnce (names : List String) (members : List (String × Json)) : Bool :=
  names.all fun name => (members.filter fun m => m.1 == name).length ≤ 1

def fields? (names : List String) : Json → Option Fields
  | .object members => do
    let members ← members? members
    if eachOnce names members then some ⟨false, members⟩ else none
  | .array items => if items.length ≤ names.length then some ⟨true, names.zip items⟩ else none
  | _ => none

namespace Fields

variable {β : Type}

def required (f : Fields) (name : String) (read : Json → Option β) : Option β :=
  (f.values.lookup name).bind read

def withDefault (f : Fields) (name : String) (read : Json → Option β) (default : β) : Option β :=
  match f.values.lookup name with
  | some value => read value
  | none => some default

/-- A field that may be missing or null. -/
def optional (f : Fields) (name : String) (read : Json → Option β) : Option (Option β) :=
  match f.values.lookup name with
  | some .null => some none
  | some value => (read value).map some
  | none => if f.listed then none else some none

end Fields

/-! ## Values -/

def text? : Json → Option String
  | .string l => l.text?
  | _ => none

def bool? : Json → Option Bool
  | .bool b => some b
  | _ => none

/-- A whole number below a bound. -/
def natBelow? (bound : Nat) : Json → Option Nat
  | .number n => n.natural?.bind fun k => if k < bound then some k else none
  | _ => none

/-- A count: a whole number of 64 bits. -/
def count? : Json → Option Nat := natBelow? 18446744073709551616

/-- A whole number of 64 bits with a sign. -/
def integer? : Json → Option Int
  | .number n => n.integer?.bind fun k =>
    if -9223372036854775808 ≤ k ∧ k ≤ 9223372036854775807 then some k else none
  | _ => none

def list? {β : Type} (read : Json → Option β) : Json → Option (List β)
  | .array items => items.mapM read
  | _ => none

/-- One of several names, as a text or as the only member of an object whose
value is nothing. -/
def choiceWith? {β : Type} (isNothing : Json → Bool) (options : List (String × β)) :
    Json → Option β
  | .string l => l.text?.bind (options.lookup ·)
  | .object [(name, value)] =>
    if isNothing value then name.text?.bind (options.lookup ·) else none
  | _ => none

/-- Null is nothing. -/
def isNull : Json → Bool
  | .null => true
  | _ => false

/-- One of several names, where null is nothing. -/
def choice? {β : Type} : List (String × β) → Json → Option β := choiceWith? isNull

/-- How numbers are written and read. -/
structure NumberForm (α : Type) where
  write : α → Json
  read : Json → Option α

/-- Doubles with all their digits; those that are not finite are written as
null, and numbers beyond all doubles are not read. -/
def exactDoubles : NumberForm Float where
  write x := match Double.numeral? x with
    | some n => .number n
    | none => .null
  read
    | .number n => n.double?
    | _ => none

end Joinery.Exchange
