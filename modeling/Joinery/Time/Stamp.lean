import Joinery.Text.Digits
import Joinery.Time.Date
/-!
# Time stamps

A stamp is an instant in universal time, to the nanosecond. It is written as
`YYYY-MM-DDTHH:MM:SS` with no, three, six or nine digits of a second, and `Z`.

The reader is lenient: blanks may stand before a number and around the marks
between numbers, a number may lack leading zeros, a year may have a sign and
then any number of digits, and the zone may be `Z`, `UTC` or an offset in hours
and minutes. A sixtieth second is a leap second: it is the fifty-ninth with a
fraction of one or more.
-/

namespace Joinery

/-- An instant: the day, the second of the day and the nanosecond. In a leap
second the nanoseconds go on past a thousand million. -/
structure Stamp where
  date : Date
  second : Nat
  nano : Nat
deriving Repr, DecidableEq

namespace Stamp

/-! ## Reading -/

/-- Characters that count as blank. -/
def isBlank (c : Char) : Bool :=
  let n := c.toNat
  (9 ≤ n && n ≤ 13) || n = 0x20 || n = 0x85 || n = 0xA0 || n = 0x1680
    || (0x2000 ≤ n && n ≤ 0x200A) || n = 0x2028 || n = 0x2029 || n = 0x202F
    || n = 0x205F || n = 0x3000

def skipBlanks (s : List Char) : List Char := s.dropWhile isBlank

/-- One to `width` digits. -/
def number? (width : Nat) (s : List Char) : Option (Nat × List Char) :=
  let digits := (s.take width).takeWhile Char.isDigit
  if digits.isEmpty then none else some (Text.decimalValue digits, s.drop digits.length)

/-- A field of at most two digits, after blanks. -/
def field? (s : List Char) : Option (Nat × List Char) := number? 2 (skipBlanks s)

/-- A year: four digits at most, or a sign and any number of digits. -/
def year? (s : List Char) : Option (Int × List Char) :=
  match skipBlanks s with
  | '-' :: rest => (number? rest.length rest).map fun x => (-(x.1 : Int), x.2)
  | '+' :: rest => (number? rest.length rest).map fun x => ((x.1 : Int), x.2)
  | rest => (number? 4 rest).map fun x => ((x.1 : Int), x.2)

/-- The mark between two numbers, after blanks. -/
def mark? (c : Char) (s : List Char) : Option (List Char) :=
  match skipBlanks s with
  | first :: rest => if first = c then some rest else none
  | [] => none

/-- The fraction of a second in nanoseconds: up to nine digits count, the
others are passed over. -/
def fraction? : List Char → Option (Nat × List Char)
  | '.' :: rest =>
    (number? 9 rest).map fun x =>
      (x.1 * Nat.pow 10 (9 - (rest.length - x.2.length)), x.2.dropWhile Char.isDigit)
  | s => some (0, s)

/-- Hours and minutes of an offset, in seconds. Colons and blanks may stand
between them. -/
def offset? (s : List Char) : Option (Nat × List Char) :=
  match s with
  | h1 :: h2 :: rest =>
    if h1.isDigit && h2.isDigit then
      match rest.dropWhile fun c => c = ':' || isBlank c with
      | m1 :: m2 :: rest =>
        if m1.isDigit && m2.isDigit && m1 ≤ '5' then
          some (Text.decimalValue [h1, h2] * 3600 + Text.decimalValue [m1, m2] * 60, rest)
        else none
      | _ => none
    else none
  | _ => none

/-- The zone as seconds ahead of universal time. -/
def zone? (s : List Char) : Option (Int × List Char) :=
  if (s.take 3).map Char.toUpper = ['U', 'T', 'C'] then some (0, s.drop 3)
  else
    match s with
    | 'Z' :: rest => some (0, rest)
    | 'z' :: rest => some (0, rest)
    | '+' :: rest => (offset? rest).map fun x => ((x.1 : Int), x.2)
    | '-' :: rest => (offset? rest).map fun x => (-(x.1 : Int), x.2)
    | '\u2212' :: rest => (offset? rest).map fun x => (-(x.1 : Int), x.2)
    | _ => none

/-- The instant of a local time in a zone less than a day from universal time. -/
def ofLocal? (date : Date) (second nano : Nat) (zone : Int) : Option Stamp :=
  let shifted := (second : Int) - zone
  let day :=
    if shifted < 0 then date.previous
    else if 86400 ≤ shifted then date.next
    else date
  if date.isValid && day.isValid && zone.natAbs < 86400 then
    some ⟨day, (shifted % 86400).toNat, nano⟩
  else none

def parse? (text : String) : Option Stamp := do
  let (year, s) ← year? text.toList
  let s ← mark? '-' s
  let (month, s) ← field? s
  let s ← mark? '-' s
  let (day, s) ← field? s
  let s ← match s with
    | c :: rest => if c = 'T' || c = 't' || c = ' ' then some rest else none
    | [] => none
  let (hour, s) ← field? s
  let s ← mark? ':' s
  let (minute, s) ← field? s
  let s ← mark? ':' s
  let (second, s) ← field? s
  let (nano, s) ← fraction? s
  let (zone, s) ← zone? (skipBlanks s)
  if 24 ≤ hour ∨ 60 ≤ minute ∨ 60 < second ∨ !(skipBlanks s).isEmpty then none
  else
    let leap := second = 60
    ofLocal? ⟨year, month, day⟩ (hour * 3600 + minute * 60 + if leap then 59 else second)
      (if leap then nano + 1000000000 else nano) zone

/-! ## Writing -/

/-- A number with at least `width` digits. -/
def padded (width n : Nat) : String :=
  let digits := toString n
  String.ofList (List.replicate (width - digits.length) '0') ++ digits

/-- Four digits, or a sign and four digits or more where four will not do. -/
def yearText (year : Int) : String :=
  if 0 ≤ year ∧ year ≤ 9999 then padded 4 year.toNat
  else (if year < 0 then "-" else "+") ++ padded 4 year.natAbs

/-- The fewest of no, three, six or nine digits. -/
def fractionText (nano : Nat) : String :=
  if nano = 0 then ""
  else if nano % 1000000 = 0 then "." ++ padded 3 (nano / 1000000)
  else if nano % 1000 = 0 then "." ++ padded 6 (nano / 1000)
  else "." ++ padded 9 nano

def render (t : Stamp) : String :=
  let leap := 1000000000 ≤ t.nano
  let second := t.second % 60 + if leap then 1 else 0
  let nano := if leap then t.nano - 1000000000 else t.nano
  yearText t.date.year ++ "-" ++ padded 2 t.date.month ++ "-" ++ padded 2 t.date.day
    ++ "T" ++ padded 2 (t.second / 3600) ++ ":" ++ padded 2 (t.second / 60 % 60)
    ++ ":" ++ padded 2 second ++ fractionText nano ++ "Z"

end Stamp

end Joinery
