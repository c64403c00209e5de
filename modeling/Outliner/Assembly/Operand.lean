import Outliner.Assembly.Pool
import Outliner.Instruction

/-!
# Operands

Before code can be laid out, every operand must be known to fit its field and every constant must
have an index in the pool. `Instruction.bindOperand` checks one instruction and gives the index of
its constant.
-/

namespace Outliner

/-- What is wrong with the operand of an instruction. -/
inductive OperandFault where
  | operand (op : Opcode) (value : Int32)
  | slot (index : Int)
  | increment (index : Int) (amount : Int32)
  | unsupportedConstant
  | pool (e : PoolError)
  | descriptor (e : DescriptorError)
  deriving DecidableEq, Repr

namespace OperandFault

/-- The wording of a fault. -/
def message : OperandFault → String
  | operand op value => op.display ++ " operand " ++ toString value.toInt ++ " out of range"
  | slot index => "local " ++ toString index ++ " out of range"
  | increment index amount =>
    "iinc " ++ toString index ++ " " ++ toString amount.toInt ++ " out of range"
  | unsupportedConstant => "unsupported constant <nil>"
  | pool e => e.message
  | descriptor e => e.message

end OperandFault

/-- Whether a slot number fits the widest field for it. -/
def slotFits (index : Int) : Bool :=
  0 ≤ index && index ≤ 65535

/-- Whether an immediate operand is in the range of its operation. -/
def operandFits (op : Opcode) (value : Int32) : Bool :=
  match op with
  | .bipush => -128 ≤ value && value ≤ 127
  | .sipush => -32768 ≤ value && value ≤ 32767
  | .newArray => 4 ≤ value && value ≤ 11
  | _ => true

namespace Constant

/-- The index of a constant. -/
def bind : Constant → Except OperandFault (Pooling Nat)
  | int n => .ok (Pooling.entry (.integer n))
  | float bits => .ok (Pooling.entry (.float bits))
  | long n => .ok (Pooling.entry (.long n))
  | double bits => .ok (Pooling.entry (.double bits))
  | string s => .ok (Pooling.string s)
  | .class t => .ok (Pooling.classNamed t.internalName)
  | missing => .error .unsupportedConstant

end Constant

namespace Instruction

/-- The checks on the operand of an instruction, and how its index in the pool is found.
Instructions without a constant have index 0. -/
def operand : Instruction → Except OperandFault (Pooling Nat)
  | int op value => if operandFits op value then .ok (pure 0) else .error (.operand op value)
  | slot _ index => if slotFits index then .ok (pure 0) else .error (.slot index)
  | iinc index amount =>
    if slotFits index && -32768 ≤ amount && amount ≤ 32767 then .ok (pure 0)
    else .error (.increment index amount)
  | type _ name => .ok (Pooling.classNamed name)
  | multiArray descriptor _ => .ok (Pooling.classNamed descriptor)
  | field _ owner name descriptor => .ok (Pooling.member .field owner name descriptor)
  | method op owner name descriptor onInterface =>
    if op = .invoke .dynamic then .ok (Pooling.callSite name descriptor)
    else if onInterface || op = .invoke .interface then
      .ok (Pooling.member .interfaceMethod owner name descriptor)
    else .ok (Pooling.member .method owner name descriptor)
  | ldc c => c.bind
  | _ => .ok (pure 0)

/-- Checks the operand of an instruction and finds the index of its constant. -/
def bindOperand (insn : Instruction) (p : Pool) : Except OperandFault Nat × Pool :=
  match insn.operand with
  | .error fault => (.error fault, p)
  | .ok work =>
    match work p with
    | (.ok index, p) => (.ok index, p)
    | (.error e, p) => (.error (.pool e), p)

end Instruction

end Outliner
