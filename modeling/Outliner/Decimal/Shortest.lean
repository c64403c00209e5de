import Outliner.Decimal.Binary

/-!
# The fewest digits that read back

`Shortest.digits` finds, for a finite binary number, a decimal with the fewest digits among those
that lie in its rounding interval: the reals that are nearer to it than to any other number of its
format, where the two ends belong to it when its mantissa is even. Of two such decimals the nearer
one is taken, and of two equally near ones the one with the even last digit.

All comparisons are between products of natural numbers, so nothing is rounded on the way.
-/

namespace Outliner.Decimal

/-- A positive decimal number: the digits, most significant first and without zeros at the end, and
the power of ten of the first one. -/
structure Digits where
  digits : List Nat
  exponent : Int
  deriving DecidableEq, Repr

namespace Shortest

/-- A positive fraction. -/
structure Ratio where
  num : Nat
  den : Nat

namespace Ratio

/-- `mantissa * 2 ^ exponent`. -/
def ofBinary (mantissa : Nat) (exponent : Int) : Ratio :=
  if exponent < 0 then ⟨mantissa, Nat.pow 2 exponent.natAbs⟩
  else ⟨mantissa * Nat.pow 2 exponent.natAbs, 1⟩

/-- The fraction divided by `10 ^ power`. -/
def shift (r : Ratio) (power : Int) : Ratio :=
  if power < 0 then ⟨r.num * Nat.pow 10 power.natAbs, r.den⟩
  else ⟨r.num, r.den * Nat.pow 10 power.natAbs⟩

end Ratio

/-- A number of decimal places beyond the smallest number of either format. -/
def places : Nat := 400

/-- The power of ten of the first digit of a positive fraction. -/
def leadingPower (r : Ratio) : Int :=
  ((Nat.toDigits 10 (r.num * Nat.pow 10 places / r.den)).length : Int) - 1 - places

/-- A rounding interval around a number, with a common denominator. -/
structure Interval where
  low : Nat
  value : Nat
  high : Nat
  den : Nat
  /-- Whether the ends belong to the interval. -/
  closed : Bool

namespace Interval

/-- The rounding interval of a finite number of a format. The number below a power of two is twice
as near as the one above it. -/
def ofBinary (f : BinaryFormat) (mantissa : Nat) (exponent : Int) : Interval :=
  let unit := Ratio.ofBinary 1 (exponent - 2)
  let narrow := mantissa = Nat.pow 2 f.mantissaBits && f.leastExponent < exponent
  { low := (4 * mantissa - if narrow then 1 else 2) * unit.num
    value := 4 * mantissa * unit.num
    high := (4 * mantissa + 2) * unit.num
    den := unit.den
    closed := mantissa % 2 = 0 }

/-- The interval divided by `10 ^ power`. -/
def shift (i : Interval) (power : Int) : Interval :=
  if power < 0 then
    let k := Nat.pow 10 power.natAbs
    { i with low := i.low * k, value := i.value * k, high := i.high * k }
  else { i with den := i.den * Nat.pow 10 power.natAbs }

/-- Whether a whole number lies in the interval. -/
def contains (i : Interval) (n : Nat) : Bool :=
  if i.closed then i.low ≤ n * i.den && n * i.den ≤ i.high
  else i.low < n * i.den && n * i.den < i.high

/-- The whole number of the interval to take, if there is one: one of the two neighbours of the
value. -/
def pick (i : Interval) : Option Nat :=
  let below := i.value / i.den
  let above := below + 1
  match i.contains below, i.contains above with
  | true, false => some below
  | false, true => some above
  | false, false => none
  | true, true =>
    let down := i.value - below * i.den
    let up := above * i.den - i.value
    if down < up then some below
    else if up < down then some above
    else if below % 2 = 0 then some below else some above

end Interval

/-- Drops zeros from the end. -/
def dropZeros (digits : List Nat) : List Nat :=
  (digits.reverse.dropWhile (· = 0)).reverse

/-- The digits of a whole number that counts units of `10 ^ power`. -/
def ofWhole (n : Nat) (power : Int) : Digits :=
  let digits := (Nat.toDigits 10 n).map fun c => c.toNat - 48
  ⟨dropZeros digits, power + digits.length - 1⟩

/-- Tries one grid of decimals after the other, the coarsest first. -/
def search (i : Interval) (leading : Int) : (fuel count : Nat) → Digits
  | 0, count => ofWhole (i.shift (leading - count + 1)).value (leading - count + 1)
  | fuel + 1, count =>
    let power := leading - count + 1
    match (i.shift power).pick with
    | some n => ofWhole n power
    | none => search i leading fuel (count + 1)

/-- **The fewest digits that read back** as the given finite number, which is not zero. -/
def digits (f : BinaryFormat) (mantissa : Nat) (exponent : Int) : Digits :=
  search (.ofBinary f mantissa exponent) (leadingPower (.ofBinary mantissa exponent)) 20 1

end Shortest

end Outliner.Decimal
