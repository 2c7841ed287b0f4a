import Joinery.Json.Basic
/-!
# Writing JSON

Texts are written without blanks. In strings the quote, the backslash and the
control characters are escaped; a string that stands for no text is written as
the mark for a missing character.
-/

namespace Joinery.Json

def hexChar (n : Nat) : Char := if n < 10 then Char.ofNat (48 + n) else Char.ofNat (87 + n)

/-- A character as it stands in a string. -/
def escaped (c : Char) : List Char :=
  if c = '"' then ['\\', '"']
  else if c = '\\' then ['\\', '\\']
  else if c.toNat < 0x20 then ['\\', 'u', '0', '0', hexChar (c.toNat / 16), hexChar (c.toNat % 16)]
  else [c]

def quoted (s : String) : String := "\"" ++ String.ofList (s.toList.flatMap escaped) ++ "\""

def renderLiteral : Literal → String
  | .text s => quoted s
  | .unpaired => quoted "\ufffd"

mutual

def render : Json → String
  | null => "null"
  | bool true => "true"
  | bool false => "false"
  | number n => n.render
  | string l => renderLiteral l
  | array items => "[" ++ renderItems items ++ "]"
  | object members => "\x7b" ++ renderMembers members ++ "\x7d"

def renderItems : List Json → String
  | [] => ""
  | item :: rest =>
    match rest with
    | [] => render item
    | _ :: _ => render item ++ "," ++ renderItems rest

def renderMembers : List (Literal × Json) → String
  | [] => ""
  | (name, value) :: rest =>
    match rest with
    | [] => renderLiteral name ++ ":" ++ render value
    | _ :: _ => renderLiteral name ++ ":" ++ render value ++ "," ++ renderMembers rest

end

end Joinery.Json
