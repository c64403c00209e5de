import Outliner.Text.Quoted

/-!
# Hexadecimal text

Numbers and bytes written with hexadecimal digits.
-/

namespace Outliner.Text

/-- The last `width` digits of a number, in lower case. -/
def hexNumber (width n : Nat) : String :=
  String.ofList (hexDigits width n)

/-- Bytes with two digits each. -/
def hexBytes (bytes : List UInt8) : String :=
  String.ofList (bytes.flatMap fun b => hexDigits 2 b.toNat)

/-- The value of a digit of either case; other characters count as 0. -/
def hexValue (c : Char) : Nat :=
  if '0' ≤ c && c ≤ '9' then c.toNat - 48
  else if 'a' ≤ c && c ≤ 'f' then c.toNat - 87
  else if 'A' ≤ c && c ≤ 'F' then c.toNat - 55
  else 0

/-- The number that digits stand for. -/
def readHex (s : String) : Nat :=
  s.toList.foldl (fun n c => n * 16 + hexValue c) 0

/-- The bytes of pairs of digits, after those given in reverse. -/
def readHexPairs : List Char → List UInt8 → List UInt8
  | a :: b :: rest, bytes => readHexPairs rest (UInt8.ofNat (hexValue a * 16 + hexValue b) :: bytes)
  | _, bytes => bytes.reverse

/-- The bytes that pairs of digits stand for; a last digit without a partner is dropped. -/
def readHexBytes (s : String) : List UInt8 :=
  readHexPairs s.toList []

end Outliner.Text
