import Outliner.Assembly.Layout
import Outliner.Assembly.Operand
import Outliner.Bytes
import Outliner.Stop

/-!
# Emission

The bytes of each instruction once its place and the places of all labels are settled.
-/

namespace Outliner

namespace Opcode

/-- The code that stands in front of an operation whose operand takes two bytes. -/
def wideMark : UInt8 := 196

/-- The code of a load of a narrow constant by a two-byte index. -/
def ldcWide : UInt8 := 19

/-- The code of a load of a wide constant. -/
def ldcDouble : UInt8 := 20

/-- The one-byte operation that loads or stores one of the first four slots. -/
def compactCode (op : Opcode) (index : Int) : UInt8 :=
  if 21 ≤ op.code ∧ op.code ≤ 25 then UInt8.ofInt (26 + (op.code - 21) * 4 + index)
  else UInt8.ofInt (59 + (op.code - 54) * 4 + index)

/-- The code of the conditional jump that is taken exactly when the given one is not. Conditions
come in pairs of neighbouring codes. -/
def invertedCode (op : Opcode) : Int :=
  match op with
  | .ifNull => Opcode.ifNonNull.code
  | .ifNonNull => Opcode.ifNull.code
  | op => if (op.code - 153) % 2 = 0 then op.code + 1 else op.code - 1

end Opcode

/-- Pairs the keys of a switch with their targets; a key without a target is a breakdown. -/
def keyTargets {ε : Type} : List Int32 → List Label → Answer ε (List (Int32 × Label))
  | [], _ => .ok []
  | _ :: _, [] => Answer.breakdown
  | key :: keys, target :: targets => do
    return (key, target) :: (← keyTargets keys targets)

namespace Layout

/-- Four bytes that lead from the start of an instruction to a label. -/
def branch (l : Layout) (r : Routine) (offset : Nat) (label : Label) : List UInt8 :=
  Bytes.bigEndianInt 4 (l.distance r offset label)

/-- The bytes of a jump. A long condition jumps, inverted, over an unconditional long jump. -/
def jumpBytes (l : Layout) (r : Routine) (offset : Nat) (op : Opcode) (label : Label) :
    List UInt8 :=
  let distance := l.distance r offset label
  if !(l.long.getD offset false) then op.byte :: Bytes.bigEndianInt 2 distance
  else match op with
    | .goto => Opcode.gotoWide.byte :: Bytes.bigEndianInt 4 distance
    | .jsr => Opcode.jsrWide.byte :: Bytes.bigEndianInt 4 distance
    | op =>
      UInt8.ofInt op.invertedCode :: Bytes.bigEndian 2 8 ++
        (Opcode.gotoWide.byte :: Bytes.bigEndianInt 4 (distance - 3))

/-- The zeros that align the operands of a switch. -/
def padding (l : Layout) (offset : Nat) : List UInt8 :=
  List.replicate (switchPadding (l.position offset)) 0

end Layout

namespace Bound

/-- **The bytes of the instruction at an offset.** -/
def emit (b : Bound) (l : Layout) (offset : Nat) (insn : Instruction) :
    Answer OperandFault (List UInt8) :=
  let r := b.routine
  let index := b.indexes.getD offset 0
  let branch := l.branch r offset
  match insn with
  | .label _ | .line _ | .frame => .ok []
  | .plain op => .ok [op.byte]
  | .int op value =>
    .ok (op.byte :: Bytes.bigEndianInt (if op = .sipush then 2 else 1) value.toInt)
  | .slot op n =>
    if op ≠ .ret ∧ n ≤ 3 then .ok [op.compactCode n]
    else if n ≤ 255 then .ok [op.byte, UInt8.ofInt n]
    else .ok (Opcode.wideMark :: op.byte :: Bytes.bigEndianInt 2 n)
  | .iinc n amount =>
    if n ≤ 255 ∧ -128 ≤ amount ∧ amount ≤ 127 then
      .ok [Opcode.iinc.byte, UInt8.ofInt n, UInt8.ofInt amount.toInt]
    else
      .ok (Opcode.wideMark :: Opcode.iinc.byte ::
        (Bytes.bigEndianInt 2 n ++ Bytes.bigEndianInt 2 amount.toInt))
  | .type op _ | .field op _ _ _ => .ok (op.byte :: Bytes.bigEndian 2 index)
  | .method op _ _ descriptor _ =>
    let call := op.byte :: Bytes.bigEndian 2 index
    match op with
    | .invoke .interface =>
      match Signature.parse descriptor with
      | .ok s => .ok (call ++ [UInt8.ofNat (s.argumentsSize + 1), 0])
      | .error e => Answer.refuse (.descriptor e)
    | .invoke .dynamic => .ok (call ++ [0, 0])
    | _ => .ok call
  | .ldc c =>
    if c.isWide then .ok (Opcode.ldcDouble :: Bytes.bigEndian 2 index)
    else if index ≤ 255 then .ok [Opcode.ldc.byte, UInt8.ofNat index]
    else .ok (Opcode.ldcWide :: Bytes.bigEndian 2 index)
  | .jump op label => .ok (l.jumpBytes r offset op label)
  | .tableSwitch low high fallback targets =>
    .ok (Opcode.tableSwitch.byte :: (l.padding offset ++ branch fallback ++
      Bytes.bigEndianInt 4 low.toInt ++ Bytes.bigEndianInt 4 high.toInt ++
      targets.flatMap branch))
  | .lookupSwitch fallback keys targets => do
    let pairs ← keyTargets keys targets
    return Opcode.lookupSwitch.byte :: (l.padding offset ++ branch fallback ++
      Bytes.bigEndian 4 keys.length ++
      pairs.flatMap fun (key, target) => Bytes.bigEndianInt 4 key.toInt ++ branch target)
  | .multiArray _ dims =>
    .ok (Opcode.multiArray.byte :: (Bytes.bigEndian 2 index ++ [UInt8.ofInt dims]))

end Bound

end Outliner
