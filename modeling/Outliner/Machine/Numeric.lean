import Outliner.Decimal.Binary
import Outliner.Descriptor
import Outliner.Opcode

/-!
# Arithmetic

The arithmetic of the machine on its four number types. Integers wrap around and their division goes
toward zero; dividing by zero has no result. Floating-point numbers follow the interchange formats,
and the conversions to integers saturate and send what is no number to zero.
-/

namespace Outliner.Numeric

/-- Integer arithmetic on 32 bits; no result for a division by zero. -/
def intArith (op : ArithOp) (a b : Int32) : Option Int32 :=
  match op with
  | .add => some (a + b)
  | .sub => some (a - b)
  | .mul => some (a * b)
  | .div => if b = 0 then none else some (a / b)
  | .rem => if b = 0 then none else some (a % b)

/-- Integer arithmetic on 64 bits; no result for a division by zero. -/
def longArith (op : ArithOp) (a b : Int64) : Option Int64 :=
  match op with
  | .add => some (a + b)
  | .sub => some (a - b)
  | .mul => some (a * b)
  | .div => if b = 0 then none else some (a / b)
  | .rem => if b = 0 then none else some (a % b)

/-- A shift of 32 bits by the low five bits of the amount. -/
def intShift (op : ShiftOp) (a amount : Int32) : Int32 :=
  let k := amount &&& 31
  match op with
  | .left => a <<< k
  | .right => a >>> k
  | .logical => (a.toUInt32 >>> k.toUInt32).toInt32

/-- A shift of 64 bits by the low six bits of the amount. -/
def longShift (op : ShiftOp) (a : Int64) (amount : Int32) : Int64 :=
  let k := (amount &&& 63).toInt64
  match op with
  | .left => a <<< k
  | .right => a >>> k
  | .logical => (a.toUInt64 >>> k.toUInt64).toInt64

def intBits (op : BitOp) (a b : Int32) : Int32 :=
  match op with
  | .and => a &&& b
  | .or => a ||| b
  | .xor => a ^^^ b

def longBits (op : BitOp) (a b : Int64) : Int64 :=
  match op with
  | .and => a &&& b
  | .or => a ||| b
  | .xor => a ^^^ b

/-- What is no number. -/
def notNumber : Float := 0.0 / 0.0

/-- The remainder of `m * 2 ^ e` by `n * 2 ^ k`, counted in units of the smaller power of two. -/
def remainderUnits (m : Nat) (e : Int) (n : Nat) (k : Int) : Nat × Int :=
  if k ≤ e then (m * Nat.pow 2 (e - k).toNat % n, k) else (m % (n * Nat.pow 2 (k - e).toNat), e)

/-- The exact remainder of a division toward zero, with the sign of the dividend. -/
def remainder (x y : Float) : Float :=
  match (Decimal.Binary.ofBits .double x.toBits.toNat),
    (Decimal.Binary.ofBits .double y.toBits.toNat).magnitude with
  | ⟨_, .infinite⟩, _ | ⟨_, .notNumber⟩, _ | _, .notNumber | _, .finite 0 _ => notNumber
  | _, .infinite => x
  | ⟨negative, .finite m e⟩, .finite n k =>
    let units := remainderUnits m e n k
    let r := (Float.ofNat units.1).scaleB units.2
    if negative then -r else r

/-- Floating-point arithmetic on 64 bits. -/
def doubleArith (op : ArithOp) (a b : Float) : Float :=
  match op with
  | .add => a + b
  | .sub => a - b
  | .mul => a * b
  | .div => a / b
  | .rem => remainder a b

/-- Floating-point arithmetic on 32 bits, rounded from the result on 64 bits. -/
def floatArith (op : ArithOp) (a b : Float32) : Float32 :=
  (doubleArith op a.toFloat b.toFloat).toFloat32

/-- Compares two integers: -1, 0 or 1. -/
def compareLongs (a b : Int64) : Int32 :=
  if b < a then 1 else if a < b then -1 else 0

/-- Compares two floating-point numbers; the answer for what is no number is given. -/
def compareDoubles (unordered : Int32) (a b : Float) : Int32 :=
  if a.isNaN || b.isNaN then unordered
  else if b < a then 1
  else if a < b then -1
  else 0

/-- Whether a condition holds between two integers. -/
def holds (cond : Cond) (a b : Int32) : Bool :=
  match cond with
  | .eq => a = b
  | .ne => a ≠ b
  | .lt => a < b
  | .ge => b ≤ a
  | .gt => b < a
  | .le => a ≤ b

/-- An integer narrowed to the elements of a primitive type. -/
def narrow (p : Primitive) (n : Int32) : Int32 :=
  match p with
  | .boolean => n &&& 1
  | .byte => n.toInt8.toInt32
  | .char => n.toUInt32.toUInt16.toUInt32.toInt32
  | .short => n.toInt16.toInt32
  | _ => n

end Outliner.Numeric
