/-!
# Binary floating-point numbers

A bit pattern of one of the two interchange formats, taken apart into a sign and either a finite
number `mantissa * 2 ^ exponent`, an infinity, or no number at all.
-/

namespace Outliner.Decimal

/-- A binary interchange format. -/
structure BinaryFormat where
  /-- The number of bits of the exponent field. -/
  exponentBits : Nat
  /-- The number of bits of the trailing mantissa field. -/
  mantissaBits : Nat
  deriving DecidableEq, Repr

namespace BinaryFormat

/-- The format of four bytes. -/
def single : BinaryFormat := ⟨8, 23⟩

/-- The format of eight bytes. -/
def double : BinaryFormat := ⟨11, 52⟩

/-- The exponent of the least significant bit of the smallest numbers. -/
def leastExponent (f : BinaryFormat) : Int :=
  2 - Nat.pow 2 (f.exponentBits - 1) - f.mantissaBits

/-- The value of the exponent field for infinities and for what is no number. -/
def specialField (f : BinaryFormat) : Nat :=
  Nat.pow 2 f.exponentBits - 1

end BinaryFormat

/-- What a bit pattern stands for, the sign apart. -/
inductive Magnitude where
  | finite (mantissa : Nat) (exponent : Int)
  | infinite
  | notNumber
  deriving DecidableEq, Repr

/-- A bit pattern taken apart. -/
structure Binary where
  negative : Bool
  magnitude : Magnitude
  deriving DecidableEq, Repr

namespace Binary

/-- Takes a bit pattern apart. Every finite number has the exponent of its least significant bit. -/
def ofBits (f : BinaryFormat) (bits : Nat) : Binary :=
  let mantissa := bits % Nat.pow 2 f.mantissaBits
  let field := bits / Nat.pow 2 f.mantissaBits % Nat.pow 2 f.exponentBits
  { negative := bits / Nat.pow 2 (f.mantissaBits + f.exponentBits) % 2 = 1
    magnitude :=
      if field = f.specialField then
        if mantissa = 0 then .infinite else .notNumber
      else if field = 0 then .finite mantissa f.leastExponent
      else .finite (Nat.pow 2 f.mantissaBits + mantissa) (f.leastExponent + (field - 1)) }

end Binary

end Outliner.Decimal
