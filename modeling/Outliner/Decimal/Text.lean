import Outliner.Decimal.Shortest

/-!
# Floating-point numbers as text

The shortest digits that read back, written positionally while the power of ten of the first digit
is at least -4 and less than 6, and with an exponent otherwise. An exponent has a sign and at least
two digits.
-/

namespace Outliner.Decimal

/-- Which powers of ten of the first digit are written without an exponent: from `low` on, and below
`high`. -/
structure Positional where
  low : Int
  high : Int

namespace Positional

/-- Listings and results write an exponent below `0.0001` and from a million on. -/
def usual : Positional := ⟨-4, 6⟩

end Positional

/-- The characters of digits. -/
def digitChars (digits : List Nat) : List Char :=
  digits.map fun d => Char.ofNat (48 + d)

/-- Digits with the point after the first one and an exponent. -/
def scientific (d : Digits) : List Char :=
  let mantissa := match digitChars d.digits with
    | [] => ['0']
    | [c] => [c]
    | c :: rest => c :: '.' :: rest
  let size := Nat.toDigits 10 d.exponent.natAbs
  mantissa ++ ['e', if d.exponent < 0 then '-' else '+'] ++
    (if size.length < 2 then '0' :: size else size)

/-- Digits with the point where it belongs. -/
def positional (d : Digits) : List Char :=
  let chars := digitChars d.digits
  if d.exponent < 0 then '0' :: '.' :: List.replicate (d.exponent.natAbs - 1) '0' ++ chars
  else
    let whole := d.exponent.toNat + 1
    let head := chars.take whole
    let padded := head ++ List.replicate (whole - head.length) '0'
    match chars.drop whole with
    | [] => padded
    | rest => padded ++ '.' :: rest

/-- The text of a number taken apart. -/
def showBinary (p : Positional) (f : BinaryFormat) (b : Binary) : String :=
  let sign := if b.negative then "-" else ""
  match b.magnitude with
  | .notNumber => "NaN"
  | .infinite => if b.negative then "-Inf" else "+Inf"
  | .finite 0 _ => sign ++ "0"
  | .finite mantissa exponent =>
    let d := Shortest.digits f mantissa exponent
    sign ++ String.ofList
      (if p.low ≤ d.exponent && d.exponent < p.high then positional d else scientific d)

/-- The text of a number of four bytes. -/
def showSingle (bits : UInt32) : String :=
  showBinary .usual .single (.ofBits .single bits.toNat)

/-- The text of a number of eight bytes. -/
def showDouble (bits : UInt64) : String :=
  showBinary .usual .double (.ofBits .double bits.toNat)

end Outliner.Decimal
