/-!
# Numbers as bytes

Numbers written with a fixed number of bytes, most significant first.
-/

namespace Outliner.Bytes

/-- The last `count` bytes of a number. -/
def bigEndian : (count : Nat) → Nat → List UInt8
  | 0, _ => []
  | count + 1, n => bigEndian count (n / 256) ++ [UInt8.ofNat (n % 256)]

/-- The number written by bytes. -/
def toNat (bytes : List UInt8) : Nat :=
  bytes.foldl (fun n b => n * 256 + b.toNat) 0

/-- The last `count` bytes of an integer in two's complement. -/
def bigEndianInt (count : Nat) (n : Int) : List UInt8 :=
  bigEndian count (n % Nat.pow 2 (8 * count)).toNat

end Outliner.Bytes
