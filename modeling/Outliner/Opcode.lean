/-!
# Opcodes

The operations of the instruction set, grouped by what they do. Each has a number, and the ones that
programs may name have a mnemonic, an operand form and a way control leaves them.

`Opcode.ofCode` finds the operation with a number and `Opcode.code` gives the number back; numbers
without an operation are kept as `unassigned`, so that an instruction that carries one can still be
shown.

* `Opcode.code_ofCode` — a number is the code of the operation found for it.
-/

namespace Outliner

/-- The four types arithmetic works on. -/
inductive NumKind where
  | int
  | long
  | float
  | double
  deriving DecidableEq, Repr, Inhabited

/-- The types of values a slot can hold. -/
inductive SlotKind where
  | int
  | long
  | float
  | double
  | ref
  deriving DecidableEq, Repr, Inhabited

/-- The types of array elements. -/
inductive ElemKind where
  | int
  | long
  | float
  | double
  | ref
  | byte
  | char
  | short
  deriving DecidableEq, Repr, Inhabited

/-- Arithmetic on two operands. -/
inductive ArithOp where
  | add
  | sub
  | mul
  | div
  | rem
  deriving DecidableEq, Repr, Inhabited

/-- Shifts: to the left, to the right keeping the sign, and to the right filling with zeros. -/
inductive ShiftOp where
  | left
  | right
  | logical
  deriving DecidableEq, Repr, Inhabited

/-- Bitwise operations. -/
inductive BitOp where
  | and
  | or
  | xor
  deriving DecidableEq, Repr, Inhabited

/-- Conversions between numeric types, and from `int` to the small integers. -/
inductive Conversion where
  | i2l
  | i2f
  | i2d
  | l2i
  | l2f
  | l2d
  | f2i
  | f2l
  | f2d
  | d2i
  | d2l
  | d2f
  | i2b
  | i2c
  | i2s
  deriving DecidableEq, Repr, Inhabited

/-- Conditions on an integer compared with another one. -/
inductive Cond where
  | eq
  | ne
  | lt
  | ge
  | gt
  | le
  deriving DecidableEq, Repr, Inhabited

/-- Rearrangements of the top cells of the operand stack. -/
inductive Shuffle where
  | dup
  | dupX1
  | dupX2
  | dup2
  | dup2X1
  | dup2X2
  | swap
  deriving DecidableEq, Repr, Inhabited

/-- Accesses to a field. -/
inductive FieldOp where
  | getStatic
  | putStatic
  | getField
  | putField
  deriving DecidableEq, Repr, Inhabited

/-- Calls of a method. -/
inductive InvokeOp where
  | virtual
  | special
  | static
  | interface
  | dynamic
  deriving DecidableEq, Repr, Inhabited

namespace NumKind

def index : NumKind → Nat
  | int => 0
  | long => 1
  | float => 2
  | double => 3

def letter : NumKind → String
  | int => "I"
  | long => "L"
  | float => "F"
  | double => "D"

end NumKind

namespace SlotKind

def index : SlotKind → Nat
  | int => 0
  | long => 1
  | float => 2
  | double => 3
  | ref => 4

def letter : SlotKind → String
  | int => "I"
  | long => "L"
  | float => "F"
  | double => "D"
  | ref => "A"

/-- The number of slots a value takes. -/
def size : SlotKind → Nat
  | long | double => 2
  | _ => 1

end SlotKind

namespace ElemKind

def index : ElemKind → Nat
  | int => 0
  | long => 1
  | float => 2
  | double => 3
  | ref => 4
  | byte => 5
  | char => 6
  | short => 7

def letter : ElemKind → String
  | int => "I"
  | long => "L"
  | float => "F"
  | double => "D"
  | ref => "A"
  | byte => "B"
  | char => "C"
  | short => "S"

end ElemKind

namespace ArithOp

def index : ArithOp → Nat
  | add => 0
  | sub => 1
  | mul => 2
  | div => 3
  | rem => 4

def mnemonic : ArithOp → String
  | add => "ADD"
  | sub => "SUB"
  | mul => "MUL"
  | div => "DIV"
  | rem => "REM"

end ArithOp

namespace ShiftOp

def index : ShiftOp → Nat
  | left => 0
  | right => 1
  | logical => 2

def mnemonic : ShiftOp → String
  | left => "SHL"
  | right => "SHR"
  | logical => "USHR"

end ShiftOp

namespace BitOp

def index : BitOp → Nat
  | and => 0
  | or => 1
  | xor => 2

def mnemonic : BitOp → String
  | and => "AND"
  | or => "OR"
  | xor => "XOR"

end BitOp

namespace Conversion

def index : Conversion → Nat
  | i2l => 0
  | i2f => 1
  | i2d => 2
  | l2i => 3
  | l2f => 4
  | l2d => 5
  | f2i => 6
  | f2l => 7
  | f2d => 8
  | d2i => 9
  | d2l => 10
  | d2f => 11
  | i2b => 12
  | i2c => 13
  | i2s => 14

def mnemonic : Conversion → String
  | i2l => "I2L"
  | i2f => "I2F"
  | i2d => "I2D"
  | l2i => "L2I"
  | l2f => "L2F"
  | l2d => "L2D"
  | f2i => "F2I"
  | f2l => "F2L"
  | f2d => "F2D"
  | d2i => "D2I"
  | d2l => "D2L"
  | d2f => "D2F"
  | i2b => "I2B"
  | i2c => "I2C"
  | i2s => "I2S"

/-- The type of the result. -/
def result : Conversion → NumKind
  | i2l | f2l | d2l => .long
  | i2f | l2f | d2f => .float
  | i2d | l2d | f2d => .double
  | _ => .int

end Conversion

namespace Cond

def index : Cond → Nat
  | eq => 0
  | ne => 1
  | lt => 2
  | ge => 3
  | gt => 4
  | le => 5

def mnemonic : Cond → String
  | eq => "EQ"
  | ne => "NE"
  | lt => "LT"
  | ge => "GE"
  | gt => "GT"
  | le => "LE"

end Cond

namespace Shuffle

def index : Shuffle → Nat
  | dup => 0
  | dupX1 => 1
  | dupX2 => 2
  | dup2 => 3
  | dup2X1 => 4
  | dup2X2 => 5
  | swap => 6

def mnemonic : Shuffle → String
  | dup => "DUP"
  | dupX1 => "DUP_X1"
  | dupX2 => "DUP_X2"
  | dup2 => "DUP2"
  | dup2X1 => "DUP2_X1"
  | dup2X2 => "DUP2_X2"
  | swap => "SWAP"

/-- The number of cells taken off the stack. -/
def taken : Shuffle → Nat
  | dup => 1
  | dupX1 | dup2 | swap => 2
  | dupX2 | dup2X1 => 3
  | dup2X2 => 4

/-- What is put back in place of the cells taken off. Both lists have the top cell first. -/
def apply {α : Type} : Shuffle → List α → Option (List α)
  | dup, [a] => some [a, a]
  | dupX1, [a, b] => some [a, b, a]
  | dupX2, [a, b, c] => some [a, b, c, a]
  | dup2, [a, b] => some [a, b, a, b]
  | dup2X1, [a, b, c] => some [a, b, c, a, b]
  | dup2X2, [a, b, c, d] => some [a, b, c, d, a, b]
  | swap, [a, b] => some [b, a]
  | _, _ => none

end Shuffle

namespace FieldOp

def index : FieldOp → Nat
  | getStatic => 0
  | putStatic => 1
  | getField => 2
  | putField => 3

def mnemonic : FieldOp → String
  | getStatic => "GETSTATIC"
  | putStatic => "PUTSTATIC"
  | getField => "GETFIELD"
  | putField => "PUTFIELD"

end FieldOp

namespace InvokeOp

def index : InvokeOp → Nat
  | virtual => 0
  | special => 1
  | static => 2
  | interface => 3
  | dynamic => 4

def mnemonic : InvokeOp → String
  | virtual => "INVOKEVIRTUAL"
  | special => "INVOKESPECIAL"
  | static => "INVOKESTATIC"
  | interface => "INVOKEINTERFACE"
  | dynamic => "INVOKEDYNAMIC"

end InvokeOp

/-- The operand form of an opcode. -/
inductive OperandForm where
  | plain
  | int
  | slot
  | iinc
  | type
  | field
  | method
  | ldc
  | jump
  | tableSwitch
  | lookupSwitch
  | multiArray
  | callSite
  deriving DecidableEq, Repr, Inhabited

/-- How control leaves an instruction. -/
inductive ControlFlow where
  /-- On to the next instruction. -/
  | next
  /-- On to the next instruction or to a label. -/
  | branch
  /-- Always to a label. -/
  | goto
  /-- To one of several labels. -/
  | switch
  /-- Out of the routine. -/
  | leave
  /-- Out through an exception. -/
  | throw
  /-- Into or out of a subroutine of the same routine. -/
  | subroutine
  deriving DecidableEq, Repr, Inhabited

namespace ControlFlow

/-- Whether control can reach the next instruction. -/
def fallsThrough : ControlFlow → Bool
  | next | branch => true
  | _ => false

end ControlFlow

/-- An operation of the instruction set. -/
inductive Opcode where
  /-- The code of markers, which are no operations. -/
  | marker
  | nop
  | aconstNull
  /-- Push `k - 1`. -/
  | iconst (k : Fin 7)
  | lconst (k : Fin 2)
  | fconst (k : Fin 3)
  | dconst (k : Fin 2)
  | bipush
  | sipush
  | ldc
  | load (kind : SlotKind)
  | arrayLoad (kind : ElemKind)
  | store (kind : SlotKind)
  | arrayStore (kind : ElemKind)
  | pop
  | pop2
  | shuffle (form : Shuffle)
  | arith (op : ArithOp) (kind : NumKind)
  | neg (kind : NumKind)
  | shift (op : ShiftOp) (wide : Bool)
  | bitwise (op : BitOp) (wide : Bool)
  | iinc
  | convert (conversion : Conversion)
  | lcmp
  /-- Comparison of floats; `high` is the answer for values that do not compare. -/
  | fcmp (high : Bool)
  /-- Comparison of doubles; `high` is the answer for values that do not compare. -/
  | dcmp (high : Bool)
  | ifZero (cond : Cond)
  | ifInt (cond : Cond)
  /-- Jump when two references are the same, or, if `differ`, when they are not. -/
  | ifRef (differ : Bool)
  | goto
  | jsr
  | ret
  | tableSwitch
  | lookupSwitch
  | returnValue (kind : SlotKind)
  | returnVoid
  | field (op : FieldOp)
  | invoke (op : InvokeOp)
  | new
  | newArray
  | newObjectArray
  | arrayLength
  | athrow
  | checkCast
  | instanceOf
  | monitorEnter
  | monitorExit
  | multiArray
  | ifNull
  | ifNonNull
  /-- A jump with a wide offset. It has no mnemonic. -/
  | gotoWide
  /-- A subroutine call with a wide offset. It has no mnemonic. -/
  | jsrWide
  /-- A number without an operation. -/
  | unassigned (code : Int)
  deriving DecidableEq, Repr, Inhabited

namespace Opcode

/-- The operations by number, from 0 to 201. -/
def table : Array Opcode := #[
  nop, aconstNull, iconst 0, iconst 1, iconst 2, iconst 3, iconst 4, iconst 5, iconst 6,
  lconst 0, lconst 1, fconst 0, fconst 1, fconst 2, dconst 0, dconst 1, bipush, sipush, ldc,
  unassigned 19, unassigned 20,
  load .int, load .long, load .float, load .double, load .ref,
  unassigned 26, unassigned 27, unassigned 28, unassigned 29, unassigned 30, unassigned 31,
  unassigned 32, unassigned 33, unassigned 34, unassigned 35, unassigned 36, unassigned 37,
  unassigned 38, unassigned 39, unassigned 40, unassigned 41, unassigned 42, unassigned 43,
  unassigned 44, unassigned 45,
  arrayLoad .int, arrayLoad .long, arrayLoad .float, arrayLoad .double, arrayLoad .ref,
  arrayLoad .byte, arrayLoad .char, arrayLoad .short,
  store .int, store .long, store .float, store .double, store .ref,
  unassigned 59, unassigned 60, unassigned 61, unassigned 62, unassigned 63, unassigned 64,
  unassigned 65, unassigned 66, unassigned 67, unassigned 68, unassigned 69, unassigned 70,
  unassigned 71, unassigned 72, unassigned 73, unassigned 74, unassigned 75, unassigned 76,
  unassigned 77, unassigned 78,
  arrayStore .int, arrayStore .long, arrayStore .float, arrayStore .double, arrayStore .ref,
  arrayStore .byte, arrayStore .char, arrayStore .short,
  pop, pop2, shuffle .dup, shuffle .dupX1, shuffle .dupX2, shuffle .dup2, shuffle .dup2X1,
  shuffle .dup2X2, shuffle .swap,
  arith .add .int, arith .add .long, arith .add .float, arith .add .double,
  arith .sub .int, arith .sub .long, arith .sub .float, arith .sub .double,
  arith .mul .int, arith .mul .long, arith .mul .float, arith .mul .double,
  arith .div .int, arith .div .long, arith .div .float, arith .div .double,
  arith .rem .int, arith .rem .long, arith .rem .float, arith .rem .double,
  neg .int, neg .long, neg .float, neg .double,
  shift .left false, shift .left true, shift .right false, shift .right true,
  shift .logical false, shift .logical true,
  bitwise .and false, bitwise .and true, bitwise .or false, bitwise .or true,
  bitwise .xor false, bitwise .xor true,
  iinc,
  convert .i2l, convert .i2f, convert .i2d, convert .l2i, convert .l2f, convert .l2d,
  convert .f2i, convert .f2l, convert .f2d, convert .d2i, convert .d2l, convert .d2f,
  convert .i2b, convert .i2c, convert .i2s,
  lcmp, fcmp false, fcmp true, dcmp false, dcmp true,
  ifZero .eq, ifZero .ne, ifZero .lt, ifZero .ge, ifZero .gt, ifZero .le,
  ifInt .eq, ifInt .ne, ifInt .lt, ifInt .ge, ifInt .gt, ifInt .le,
  ifRef false, ifRef true, goto, jsr, ret, tableSwitch, lookupSwitch,
  returnValue .int, returnValue .long, returnValue .float, returnValue .double,
  returnValue .ref, returnVoid,
  field .getStatic, field .putStatic, field .getField, field .putField,
  invoke .virtual, invoke .special, invoke .static, invoke .interface, invoke .dynamic,
  new, newArray, newObjectArray, arrayLength, athrow, checkCast, instanceOf,
  monitorEnter, monitorExit, unassigned 196, multiArray, ifNull, ifNonNull, gotoWide, jsrWide]

/-- The operation with the given number. -/
def ofCode (code : Int) : Opcode :=
  if code = -1 then marker
  else if code < 0 then unassigned code
  else table.getD code.toNat (unassigned code)

/-- The number of an operation. -/
def code : Opcode → Int
  | marker => -1
  | nop => 0
  | aconstNull => 1
  | iconst k => 2 + k.val
  | lconst k => 9 + k.val
  | fconst k => 11 + k.val
  | dconst k => 14 + k.val
  | bipush => 16
  | sipush => 17
  | ldc => 18
  | load kind => 21 + kind.index
  | arrayLoad kind => 46 + kind.index
  | store kind => 54 + kind.index
  | arrayStore kind => 79 + kind.index
  | pop => 87
  | pop2 => 88
  | shuffle form => 89 + form.index
  | arith op kind => 96 + 4 * op.index + kind.index
  | neg kind => 116 + kind.index
  | shift op wide => 120 + 2 * op.index + wide.toNat
  | bitwise op wide => 126 + 2 * op.index + wide.toNat
  | iinc => 132
  | convert conversion => 133 + conversion.index
  | lcmp => 148
  | fcmp high => 149 + high.toNat
  | dcmp high => 151 + high.toNat
  | ifZero cond => 153 + cond.index
  | ifInt cond => 159 + cond.index
  | ifRef differ => 165 + differ.toNat
  | goto => 167
  | jsr => 168
  | ret => 169
  | tableSwitch => 170
  | lookupSwitch => 171
  | returnValue kind => 172 + kind.index
  | returnVoid => 177
  | field op => 178 + op.index
  | invoke op => 182 + op.index
  | new => 187
  | newArray => 188
  | newObjectArray => 189
  | arrayLength => 190
  | athrow => 191
  | checkCast => 192
  | instanceOf => 193
  | monitorEnter => 194
  | monitorExit => 195
  | multiArray => 197
  | ifNull => 198
  | ifNonNull => 199
  | gotoWide => 200
  | jsrWide => 201
  | unassigned code => code

/-- Each entry of the table stands at its own number. -/
theorem code_table : ∀ i : Fin table.size, (table[i]).code = (i.val : Int) := by
  decide +kernel

/-- A number is the code of the operation found for it. -/
@[simp] theorem code_ofCode (c : Int) : (ofCode c).code = c := by
  unfold ofCode
  split
  · rename_i h; exact h.symm
  · split
    · rfl
    · rename_i hneg
      rw [Array.getD_eq_getD_getElem?]
      by_cases h : c.toNat < table.size
      · rw [Array.getElem?_eq_getElem h, Option.getD_some]
        have := code_table ⟨c.toNat, h⟩
        simp only [Fin.getElem_fin] at this
        rw [this]
        omega
      · rw [Array.getElem?_eq_none (by omega)]
        rfl

/-- The mnemonic of an operation that has one. -/
def mnemonic? : Opcode → Option String
  | marker | gotoWide | jsrWide | unassigned _ => none
  | nop => some "NOP"
  | aconstNull => some "ACONST_NULL"
  | iconst k => some (if k = 0 then "ICONST_M1" else "ICONST_" ++ toString (k.val - 1))
  | lconst k => some ("LCONST_" ++ toString k.val)
  | fconst k => some ("FCONST_" ++ toString k.val)
  | dconst k => some ("DCONST_" ++ toString k.val)
  | bipush => some "BIPUSH"
  | sipush => some "SIPUSH"
  | ldc => some "LDC"
  | load kind => some (kind.letter ++ "LOAD")
  | arrayLoad kind => some (kind.letter ++ "ALOAD")
  | store kind => some (kind.letter ++ "STORE")
  | arrayStore kind => some (kind.letter ++ "ASTORE")
  | pop => some "POP"
  | pop2 => some "POP2"
  | shuffle form => some form.mnemonic
  | arith op kind => some (kind.letter ++ op.mnemonic)
  | neg kind => some (kind.letter ++ "NEG")
  | shift op wide => some ((if wide then "L" else "I") ++ op.mnemonic)
  | bitwise op wide => some ((if wide then "L" else "I") ++ op.mnemonic)
  | iinc => some "IINC"
  | convert conversion => some conversion.mnemonic
  | lcmp => some "LCMP"
  | fcmp high => some (if high then "FCMPG" else "FCMPL")
  | dcmp high => some (if high then "DCMPG" else "DCMPL")
  | ifZero cond => some ("IF" ++ cond.mnemonic)
  | ifInt cond => some ("IF_ICMP" ++ cond.mnemonic)
  | ifRef differ => some (if differ then "IF_ACMPNE" else "IF_ACMPEQ")
  | goto => some "GOTO"
  | jsr => some "JSR"
  | ret => some "RET"
  | tableSwitch => some "TABLESWITCH"
  | lookupSwitch => some "LOOKUPSWITCH"
  | returnValue kind => some (kind.letter ++ "RETURN")
  | returnVoid => some "RETURN"
  | field op => some op.mnemonic
  | invoke op => some op.mnemonic
  | new => some "NEW"
  | newArray => some "NEWARRAY"
  | newObjectArray => some "ANEWARRAY"
  | arrayLength => some "ARRAYLENGTH"
  | athrow => some "ATHROW"
  | checkCast => some "CHECKCAST"
  | instanceOf => some "INSTANCEOF"
  | monitorEnter => some "MONITORENTER"
  | monitorExit => some "MONITOREXIT"
  | multiArray => some "MULTIANEWARRAY"
  | ifNull => some "IFNULL"
  | ifNonNull => some "IFNONNULL"

/-- The text of an opcode in messages. -/
def display (op : Opcode) : String :=
  op.mnemonic?.getD "UNKNOWN"

/-- The operand form; operations without a mnemonic count as having no operand. -/
def form : Opcode → OperandForm
  | bipush | sipush | newArray => .int
  | ldc => .ldc
  | load _ | store _ | ret => .slot
  | iinc => .iinc
  | ifZero _ | ifInt _ | ifRef _ | goto | jsr | ifNull | ifNonNull => .jump
  | tableSwitch => .tableSwitch
  | lookupSwitch => .lookupSwitch
  | field _ => .field
  | invoke .dynamic => .callSite
  | invoke _ => .method
  | new | newObjectArray | checkCast | instanceOf => .type
  | multiArray => .multiArray
  | _ => .plain

/-- How control leaves; operations without a mnemonic count as going on to the next instruction. -/
def flow : Opcode → ControlFlow
  | ifZero _ | ifInt _ | ifRef _ | ifNull | ifNonNull => .branch
  | goto => .goto
  | jsr | ret => .subroutine
  | tableSwitch | lookupSwitch => .switch
  | returnValue _ | returnVoid => .leave
  | athrow => .throw
  | _ => .next

/-- Whether control can reach the next instruction. -/
def fallsThrough (op : Opcode) : Bool :=
  op.flow.fallsThrough

/-- Whether the operand form names labels. -/
def isBranch (op : Opcode) : Bool :=
  match op.form with
  | .jump | .tableSwitch | .lookupSwitch => true
  | _ => false

/-- Whether the operation returns from the routine. -/
def isReturn : Opcode → Bool
  | returnValue _ | returnVoid => true
  | _ => false

/-- Whether the operation calls a subroutine of the same routine. -/
def isSubroutineCall : Opcode → Bool
  | jsr | jsrWide => true
  | _ => false

/-- The number under which an opcode is listed: bytes without a listed operation appear as 0. -/
def listedCode (op : Opcode) : Int :=
  if op.mnemonic?.isSome || op.code < 0 || 255 < op.code then op.code else 0

/-- The low byte of the number, as it stands in assembled code. -/
def byte (op : Opcode) : UInt8 :=
  UInt8.ofInt op.code

end Opcode

end Outliner
