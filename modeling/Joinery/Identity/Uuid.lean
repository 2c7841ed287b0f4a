import Joinery.Text.Digits
/-!
# Unique identifiers

An identifier of 128 bits. It is written as 32 hexadecimal digits in groups of
8, 4, 4, 4 and 12, and read in four spellings: the groups with hyphens, the
groups in braces, the groups after `urn:uuid:`, or the bare digits. Letters may
be of either case, those of `urn:uuid:` too.
-/

namespace Joinery

structure Uuid where
  value : BitVec 128
deriving Repr, DecidableEq

namespace Uuid

/-- Exactly 32 digits. -/
def ofDigits? (digits : List Char) : Option Uuid :=
  if digits.length = 32 then
    (Text.hexValue? digits).map fun n => ⟨BitVec.ofNat 128 n⟩
  else none

/-- Digits with hyphens after the first four groups. -/
def ofGroups? (text : List Char) : Option Uuid :=
  let hyphens := [8, 13, 18, 23]
  if text.length = 36 ∧ hyphens.all (fun i => text[i]? = some '-') then
    ofDigits? ((text.zipIdx.filter fun x => !hyphens.contains x.2).map (·.1))
  else none

/-- What stands before the groups of a name, in lower case. -/
def nameSpace : List Char := "urn:uuid:".toList

def parse? (text : String) : Option Uuid :=
  let chars := text.toList
  match chars.length with
  | 32 => ofDigits? chars
  | 36 => ofGroups? chars
  | 38 =>
    if chars.head? = some '\x7b' ∧ chars.getLast? = some '\x7d' then
      ofGroups? ((chars.drop 1).take 36)
    else none
  | 45 => if (chars.take 9).map Char.toLower = nameSpace then ofGroups? (chars.drop 9) else none
  | _ => none

/-- Lower-case digits in groups. -/
def render (u : Uuid) : String :=
  let digits := Nat.toDigits 16 u.value.toNat
  let padded := List.replicate (32 - digits.length) '0' ++ digits
  String.ofList <|
    padded.take 8 ++ '-' :: (padded.drop 8).take 4 ++ '-' :: (padded.drop 12).take 4
      ++ '-' :: (padded.drop 16).take 4 ++ '-' :: padded.drop 20

end Uuid

end Joinery
