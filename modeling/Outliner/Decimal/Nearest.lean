import Outliner.Decimal.Shortest

/-!
# The nearest number of a format

`nearest` rounds a fraction to the nearest number of a binary format; of two equally near ones it
takes the one with the even mantissa. Only whole numbers are computed with, so the result is exact.
-/

namespace Outliner.Decimal

open Shortest (Ratio)

/-- The fraction divided by `2 ^ power`. -/
def halved (r : Ratio) (power : Int) : Ratio :=
  if power < 0 then ⟨r.num * Nat.pow 2 power.natAbs, r.den⟩
  else ⟨r.num, r.den * Nat.pow 2 power.natAbs⟩

/-- A fraction rounded to a whole number, to the even one of two equally near ones. -/
def rounded (r : Ratio) : Nat :=
  let below := r.num / r.den
  let rest := 2 * (r.num % r.den)
  if rest < r.den || (rest = r.den && below % 2 = 0) then below else below + 1

/-- The exponent of the least significant bit of the numbers of a format around a positive fraction.
-/
def scaleOf (f : BinaryFormat) (r : Ratio) : Int :=
  let guess : Int := (Nat.log2 r.num : Int) - Nat.log2 r.den - f.mantissaBits
  let scaled := halved r guess
  max f.leastExponent
    (if scaled.num / scaled.den < Nat.pow 2 f.mantissaBits then guess - 1 else guess)

/-- The bit pattern, the sign apart, of the number of a format that is nearest to a fraction. There
is none if the fraction is beyond the greatest number. -/
def nearest (f : BinaryFormat) (r : Ratio) : Option Nat :=
  if r.num = 0 then some 0
  else
    let scale := scaleOf f r
    -- the hidden bit of the mantissa adds one to the exponent field, and so does a carry out of it
    let bits :=
      (scale - f.leastExponent).toNat * Nat.pow 2 f.mantissaBits + rounded (halved r scale)
    if bits < f.specialField * Nat.pow 2 f.mantissaBits then some bits else none

end Outliner.Decimal
