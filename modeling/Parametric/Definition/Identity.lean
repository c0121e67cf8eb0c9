import Parametric.Json.Value
import Parametric.Text.Blank

/-!
Identity tokens: 128-bit numbers in the notation of UUIDs.
-/

namespace Parametric

/-- A token that stays with a definition for its life. -/
structure Identity where
  value : BitVec 128
deriving DecidableEq, Repr, Inhabited

namespace Identity

def digitValue? (c : Char) : Option Nat :=
  if c.isDigit then some (c.toNat - '0'.toNat)
  else if 'a' ≤ c && c ≤ 'f' then some (c.toNat - 'a'.toNat + 10)
  else if 'A' ≤ c && c ≤ 'F' then some (c.toNat - 'A'.toNat + 10)
  else none

def ofDigits? (digits : List Char) : Option Identity :=
  if digits.length = 32 then
    (digits.mapM digitValue?).map fun values => ⟨.ofNat 128 (values.foldl (16 * · + ·) 0)⟩
  else none

/-- The token of digits in groups of 8, 4, 4, 4 and 12 with hyphens between them. -/
def ofHyphenated? (text : List Char) : Option Identity :=
  let isHyphen := fun i => text[i]? == some '-'
  if text.length = 36 && isHyphen 8 && isHyphen 13 && isHyphen 18 && isHyphen 23 then
    ofDigits? (text.take 8 ++ (text.drop 9).take 4 ++ (text.drop 14).take 4 ++
      (text.drop 19).take 4 ++ text.drop 24)
  else none

def namespaceName : List Char := "urn:uuid:".toList

/-- Reads a token: digits alone, digits with hyphens, or the latter in braces or after the name of
the UUID namespace. -/
def parse? (text : String) : Option Identity :=
  let chars := text.toList
  if chars.head? == some '\x7b' && chars.getLast? == some '\x7d' then
    ofHyphenated? (chars.drop 1).dropLast
  else if (chars.take 9).map Char.toLower == namespaceName then ofHyphenated? (chars.drop 9)
  else if chars.length = 32 then ofDigits? chars
  else ofHyphenated? chars

def parseTrimmed? (text : String) : Option Identity := parse? (Text.trim text)

def digits (t : Identity) : List Char :=
  let digits := Nat.toDigits 16 t.value.toNat
  List.replicate (32 - digits.length) '0' ++ digits

def text (t : Identity) : String :=
  let d := t.digits
  .ofList (d.take 8 ++ '-' :: (d.drop 8).take 4 ++ '-' :: (d.drop 12).take 4 ++
    '-' :: (d.drop 16).take 4 ++ '-' :: d.drop 20)

def ofJson? (value : Json) : Option Identity := value.text?.bind parse?

end Identity

end Parametric
