import Joinery.Json.Basic
import Joinery.Text.Digits
/-!
# Reading JSON

The reader is strict: no leading zeros, no bare points, no commas before a
closing bracket, no control characters in strings, nothing but blanks around
the text. Each step takes characters off the front; the fuel of the nested part
is twice the length of the text, which every value and every bracket shortens.
-/

namespace Joinery.Json

def isSpace (c : Char) : Bool := c = ' ' || c = '\n' || c = '\r' || c = '\t'

def skipSpace (s : List Char) : List Char := s.dropWhile isSpace

/-! ## Numbers -/

/-- One digit or more. -/
def readDigits? (s : List Char) : Option (List Char × List Char) :=
  let digits := s.takeWhile Char.isDigit
  if digits.isEmpty then none else some (digits, s.dropWhile Char.isDigit)

/-- The digits of a whole number, without a zero in front. -/
def readWhole? (s : List Char) : Option (List Char × List Char) := do
  let (digits, rest) ← readDigits? s
  if digits.head? = some '0' ∧ digits.length ≠ 1 then none else some (digits, rest)

/-- The digits after a point, if there is one. -/
def readFraction? : List Char → Option (Option (List Char) × List Char)
  | '.' :: s => (readDigits? s).map fun x => (some x.1, x.2)
  | s => some (none, s)

/-- The power of ten, if there is one. -/
def readPower? : List Char → Option (Option Int × List Char)
  | c :: s =>
    if c = 'e' || c = 'E' then
      let (negative, s) := match s with
        | '-' :: s => (true, s)
        | '+' :: s => (false, s)
        | s => (false, s)
      (readDigits? s).map fun x =>
        let power : Int := Text.decimalValue x.1
        (some (if negative then -power else power), x.2)
    else some (none, c :: s)
  | [] => some (none, [])

def readNumeral? (s : List Char) : Option (Numeral × List Char) := do
  let (negative, s) := match s with
    | '-' :: s => (true, s)
    | s => (false, s)
  let (whole, s) ← readWhole? s
  let (fraction, s) ← readFraction? s
  let (power, s) ← readPower? s
  let places := fraction.getD []
  let numeral : Numeral :=
    { negative
      digits := Text.decimalValue (whole ++ places)
      exponent := power.getD 0 - places.length
      whole := fraction.isNone && power.isNone }
  return (numeral, s)

/-! ## Strings -/

/-- A character of a string, or half of a surrogate pair from an escape. -/
inductive Piece
  | char (c : Char)
  | half (unit : Nat)

/-- What an escape with four hexadecimal digits stands for. -/
def unitPiece? (digits : List Char) : Option Piece := do
  let unit ← Text.hexValue? digits
  return if 0xD800 ≤ unit ∧ unit ≤ 0xDFFF then .half unit else .char (Char.ofNat unit)

/-- What the letter after a backslash stands for. -/
def escape? : Char → Option Char
  | '"' => some '"'
  | '\\' => some '\\'
  | '/' => some '/'
  | 'b' => some '\x08'
  | 'f' => some '\x0c'
  | 'n' => some '\n'
  | 'r' => some '\r'
  | 't' => some '\t'
  | _ => none

/-- The pieces up to the closing quote, in reverse after `done`. -/
def readPieces? (done : List Piece) : List Char → Option (List Piece × List Char)
  | [] => none
  | '"' :: rest => some (done, rest)
  | '\\' :: 'u' :: a :: b :: c :: d :: rest => do
    let piece ← unitPiece? [a, b, c, d]
    readPieces? (piece :: done) rest
  | '\\' :: c :: rest => do
    let c ← escape? c
    readPieces? (.char c :: done) rest
  | c :: rest => if c.toNat < 0x20 then none else readPieces? (.char c :: done) rest

/-- Joins halves of pairs that stand next to each other; none where a half is
left over. The pieces come in reverse, and so the low half first. -/
def joinReversed (done : List Char) : List Piece → Option (List Char)
  | [] => some done
  | .char c :: rest => joinReversed (c :: done) rest
  | .half low :: .half high :: rest =>
    if 0xDC00 ≤ low ∧ high < 0xDC00 then
      joinReversed (Char.ofNat (0x10000 + (high - 0xD800) * 0x400 + (low - 0xDC00)) :: done) rest
    else none
  | .half _ :: _ => none

/-- A string after its opening quote. -/
def readLiteral? (s : List Char) : Option (Literal × List Char) := do
  let (pieces, rest) ← readPieces? [] s
  match joinReversed [] pieces with
  | some chars => return (.text (String.ofList chars), rest)
  | none => return (.unpaired, rest)

/-! ## Values -/

mutual

def readValue? : Nat → List Char → Option (Json × List Char)
  | 0, _ => none
  | fuel + 1, s =>
    match skipSpace s with
    | 'n' :: 'u' :: 'l' :: 'l' :: rest => some (.null, rest)
    | 't' :: 'r' :: 'u' :: 'e' :: rest => some (.bool true, rest)
    | 'f' :: 'a' :: 'l' :: 's' :: 'e' :: rest => some (.bool false, rest)
    | '"' :: rest => (readLiteral? rest).map fun x => (.string x.1, x.2)
    | '[' :: rest =>
      match skipSpace rest with
      | ']' :: rest => some (.array [], rest)
      | rest => readItems? fuel [] rest
    | '\x7b' :: rest =>
      match skipSpace rest with
      | '\x7d' :: rest => some (.object [], rest)
      | rest => readMembers? fuel [] rest
    | rest => (readNumeral? rest).map fun x => (.number x.1, x.2)

/-- Items up to the closing bracket, after those in `done`. -/
def readItems? : Nat → List Json → List Char → Option (Json × List Char)
  | 0, _, _ => none
  | fuel + 1, done, s =>
    match readValue? fuel s with
    | none => none
    | some (item, rest) =>
      match skipSpace rest with
      | ',' :: rest => readItems? fuel (item :: done) rest
      | ']' :: rest => some (.array (item :: done).reverse, rest)
      | _ => none

/-- Members up to the closing brace, after those in `done`. -/
def readMembers? : Nat → List (Literal × Json) → List Char → Option (Json × List Char)
  | 0, _, _ => none
  | fuel + 1, done, s =>
    match skipSpace s with
    | '"' :: s =>
      match readLiteral? s with
      | none => none
      | some (name, s) =>
        match skipSpace s with
        | ':' :: s =>
          match readValue? fuel s with
          | none => none
          | some (value, rest) =>
            match skipSpace rest with
            | ',' :: rest => readMembers? fuel ((name, value) :: done) rest
            | '\x7d' :: rest => some (.object ((name, value) :: done).reverse, rest)
            | _ => none
        | _ => none
    | _ => none

end

/-- The tree of a text that holds one value. -/
def parse? (text : String) : Option Json := do
  let chars := text.toList
  let (value, rest) ← readValue? (2 * chars.length + 2) chars
  if (skipSpace rest).isEmpty then some value else none

end Joinery.Json
