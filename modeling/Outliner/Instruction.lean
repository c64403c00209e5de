import Outliner.JType
import Outliner.Opcode

/-!
# Instructions

A routine is a sequence of instructions. The form of an instruction says which operands it has, and
the opcode what it does; nothing forces the two to agree, and an instruction whose opcode belongs to
another form is still an instruction. Labels, line numbers and frame markers occupy a place in the
sequence without being operations.

Labels are identities: two labels are the same when their identifiers are, whatever their names.
-/

namespace Outliner

/-- A position in a routine that jumps can refer to. -/
structure Label where
  /-- What makes the label the label it is. -/
  id : Nat
  /-- A name for messages and listings, which may be empty and need not be unique. -/
  name : String
  deriving DecidableEq, Repr, Inhabited

namespace Label

/-- The text of a label in messages: its name, or one made from its identity. -/
def display (l : Label) : String :=
  if l.name.isEmpty then "L" ++ toString l.id else l.name

end Label

/-- A constant that can be pushed. Floating-point constants are kept as bits, so that every bit
pattern is a constant of its own. -/
inductive Constant where
  | int (value : Int32)
  | long (value : Int64)
  | float (bits : UInt32)
  | double (bits : UInt64)
  | string (value : String)
  | class (type : JType)
  /-- No constant at all, which nothing supports. -/
  | missing
  deriving DecidableEq, Repr, Inhabited

namespace Constant

/-- Whether the constant takes two cells. -/
def isWide : Constant → Bool
  | long _ | double _ => true
  | _ => false

end Constant

/-- One element of a routine. -/
inductive Instruction where
  /-- An operation without operands. -/
  | plain (op : Opcode)
  /-- An operation with an immediate integer. -/
  | int (op : Opcode) (operand : Int32)
  /-- An operation on a local slot. -/
  | slot (op : Opcode) (index : Int)
  /-- Add a constant to a local slot. -/
  | iinc (index : Int) (amount : Int32)
  /-- An operation on a class. -/
  | type (op : Opcode) (name : String)
  /-- An access to a field. -/
  | field (op : Opcode) (owner name descriptor : String)
  /-- A call. -/
  | method (op : Opcode) (owner name descriptor : String) (onInterface : Bool)
  /-- Push a constant. -/
  | ldc (constant : Constant)
  /-- Jump to a label. -/
  | jump (op : Opcode) (target : Label)
  /-- Jump by a key in the range from `low` to `high`. -/
  | tableSwitch (low high : Int32) (fallback : Label) (targets : List Label)
  /-- Jump by a key in a list. -/
  | lookupSwitch (fallback : Label) (keys : List Int32) (targets : List Label)
  /-- Create an array of arrays. -/
  | multiArray (descriptor : String) (dims : Int)
  /-- The place of a label. -/
  | label (l : Label)
  /-- The instructions from here on belong to the given source line. -/
  | line (number : Int)
  /-- The place of a stack map frame. -/
  | frame
  deriving DecidableEq, Repr, Inhabited

namespace Instruction

/-- The opcode an instruction carries. -/
def opcode : Instruction → Opcode
  | plain op | int op _ | slot op _ | type op _ | field op _ _ _ | method op _ _ _ _
  | jump op _ => op
  | iinc _ _ => .iinc
  | ldc _ => .ldc
  | tableSwitch _ _ _ _ => .tableSwitch
  | lookupSwitch _ _ _ => .lookupSwitch
  | multiArray _ _ => .multiArray
  | label _ | line _ | frame => .marker

/-- Whether the instruction only marks a position. -/
def isMarker (insn : Instruction) : Bool :=
  match insn.opcode with
  | .marker => true
  | _ => false

/-- Whether control can go on to the next instruction. -/
def fallsThrough (insn : Instruction) : Bool :=
  insn.isMarker || insn.opcode.fallsThrough

/-- The labels an instruction can jump to, the one taken by default first. -/
def targets : Instruction → List Label
  | jump _ target => [target]
  | tableSwitch _ _ fallback targets => fallback :: targets
  | lookupSwitch fallback _ targets => fallback :: targets
  | _ => []

/-- Replaces every label, both where it is placed and where it is referred to. -/
def relabel (f : Label → Label) : Instruction → Instruction
  | jump op target => jump op (f target)
  | tableSwitch low high fallback targets =>
    tableSwitch low high (f fallback) (targets.map f)
  | lookupSwitch fallback keys targets => lookupSwitch (f fallback) keys (targets.map f)
  | label l => label (f l)
  | insn => insn

/-- The label an instruction places. -/
def placed? : Instruction → Option Label
  | label l => some l
  | _ => none

/-- A slot an instruction names, with the number of slots it reaches there. -/
def slotAccess? : Instruction → Option (Int × Nat)
  | slot (.load kind) index | slot (.store kind) index => some (index, kind.size)
  | slot _ index => some (index, 1)
  | iinc index _ => some (index, 1)
  | _ => none

end Instruction

/-- The replacement that gives every label placed in a sequence a new identity and keeps its name.
Labels placed elsewhere stay as they are. -/
def relabelling (insns : List Instruction) : Label → Label :=
  let placed := insns.filterMap Instruction.placed?
  let used := insns.flatMap fun insn => (insn.placed?.toList ++ insn.targets).map Label.id
  let base := used.foldl max 0 + 1
  fun l => if placed.any (·.id = l.id) then ⟨base + l.id, l.name⟩ else l

/-- The replacement given by a list of labels with what replaces them. -/
def relabelBy (pairs : List (Label × Label)) : Label → Label :=
  fun l => match pairs.find? (·.1.id = l.id) with
    | some pair => pair.2
    | none => l

end Outliner
