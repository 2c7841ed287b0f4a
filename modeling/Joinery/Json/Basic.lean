import Joinery.Json.Numeral
/-!
# JSON trees

A tree keeps what a text says and no more: members of an object in their order,
repeated names and all, and numbers as they are spelled. An escape in a string
may name half of a surrogate pair; such a string stands for no text, and a
reader can only pass it over.
-/

namespace Joinery

/-- What stands between quotes. -/
inductive Literal
  | text (s : String)
  /-- Half of a surrogate pair stands alone. -/
  | unpaired
deriving Repr, DecidableEq

inductive Json
  | null
  | bool (b : Bool)
  | number (n : Numeral)
  | string (l : Literal)
  | array (items : List Json)
  | object (members : List (Literal × Json))
deriving Repr

namespace Literal

def text? : Literal → Option String
  | text s => some s
  | unpaired => none

end Literal

namespace Json

def ofText (s : String) : Json := .string (.text s)

def ofNat (n : Nat) : Json := .number (.ofNat n)

def ofInt (n : Int) : Json := .number (.ofInt n)

/-- An object from names and values. -/
def ofMembers (members : List (String × Json)) : Json :=
  .object (members.map fun m => (.text m.1, m.2))

mutual

/-- How many arrays and objects stand inside each other. -/
def depth : Json → Nat
  | array items => itemsDepth items + 1
  | object members => membersDepth members + 1
  | _ => 0

def itemsDepth : List Json → Nat
  | [] => 0
  | item :: rest => Nat.max item.depth (itemsDepth rest)

def membersDepth : List (Literal × Json) → Nat
  | [] => 0
  | (_, value) :: rest => Nat.max value.depth (membersDepth rest)

end

end Json

end Joinery
