import Outliner.Routine
import Outliner.Snippet
import Outliner.Tracker

/-!
# What an instruction asks for

Nothing forces the form of an instruction, its opcode and the frame it meets to agree. This module
says when they do. An instruction is *canonical* when its form is the one its opcode is written in
and its operands are consistent with each other (`Instruction.isCanonical`). It is *verified* at a
frame when the frame offers what the opcode works on: cells and slots of the right kinds, a wide
value being one with the cell above it (`Instruction.Verified`).

Kinds, not classes, are what is asked for. Whether a reference refers to an object with the right
fields is found out when the instruction is executed.
-/

namespace Outliner

/-! ### Canonical instructions -/

/-- A named operation is found by its number. -/
theorem Opcode.ofCode_code {op : Opcode} (h : op.mnemonic?.isSome) : ofCode op.code = op := by
  cases op with
  | unassigned code => cases h
  | iconst k => revert k; decide +kernel
  | lconst k => revert k; decide +kernel
  | fconst k => revert k; decide +kernel
  | dconst k => revert k; decide +kernel
  | load kind | store kind | returnValue kind => cases kind <;> decide +kernel
  | arrayLoad kind | arrayStore kind => cases kind <;> decide +kernel
  | shuffle form => cases form <;> decide +kernel
  | arith op kind => cases op <;> cases kind <;> decide +kernel
  | neg kind => cases kind <;> decide +kernel
  | shift op wide => cases op <;> cases wide <;> decide +kernel
  | bitwise op wide => cases op <;> cases wide <;> decide +kernel
  | convert conversion => cases conversion <;> decide +kernel
  | fcmp flag | dcmp flag | ifRef flag => cases flag <;> decide +kernel
  | ifZero cond | ifInt cond => cases cond <;> decide +kernel
  | field op => cases op <;> decide +kernel
  | invoke op => cases op <;> decide +kernel
  | _ => decide +kernel

namespace Instruction

/-- Whether an instruction has the operands of a form. -/
def carries : Instruction → OperandForm → Bool
  | plain _, .plain | int _ _, .int | slot _ _, .slot | iinc _ _, .iinc | type _ _, .type
  | field _ _ _ _, .field | method _ _ _ _ _, .method | method _ _ _ _ _, .callSite | ldc _, .ldc
  | jump _ _, .jump | tableSwitch _ _ _ _, .tableSwitch | lookupSwitch _ _ _, .lookupSwitch
  | multiArray _ _, .multiArray => true
  | _, _ => false

/-- Whether the operands of an instruction fit together: a table has a label for each key of its
range, a list as many labels as keys, and a constant is one that can be written down. -/
def isConsistent : Instruction → Bool
  | tableSwitch low high _ targets => high = low + Int32.ofNat targets.length - 1
  | lookupSwitch _ keys targets => keys.length = targets.length
  | ldc (.class t) =>
    match JType.parse t.text with
    | .ok u => u = t
    | .error _ => false
  | ldc .missing => false
  | _ => true

/-- **Whether an instruction is written the way its opcode is**: labels, lines and frames are, and
an operation is when its opcode has a name, its form is the form of the opcode, and its operands fit
together. -/
def isCanonical : Instruction → Bool
  | label _ | line _ | frame => true
  | insn => insn.opcode.mnemonic?.isSome && insn.carries insn.opcode.form && insn.isConsistent

/-- Whether an instruction is there for its position only, whatever its opcode. -/
def isPosition : Instruction → Bool
  | label _ | line _ | frame => true
  | _ => false

/-- An operation is written in the form of its opcode, which has a name. -/
theorem carries_of_isCanonical {insn : Instruction} (h : insn.isCanonical)
    (hpos : insn.isPosition = false) :
    insn.opcode.mnemonic?.isSome ∧ insn.carries insn.opcode.form := by
  have hand : (insn.opcode.mnemonic?.isSome && insn.carries insn.opcode.form &&
      insn.isConsistent) = true := by
    unfold isCanonical at h
    split at h
    · cases hpos
    · cases hpos
    · cases hpos
    · exact h
  rw [Bool.and_eq_true, Bool.and_eq_true] at hand
  exact hand.1

/-- What is an operation is not there for its position only. -/
theorem isPosition_of_isMarker {insn : Instruction} (h : insn.isMarker = false) :
    insn.isPosition = false := by
  cases insn with
  | label l | line n | frame => cases h
  | _ => rfl

end Instruction

/-- A routine of canonical instructions. -/
def Routine.Canonical (r : Routine) : Prop :=
  ∀ insn ∈ r.code, insn.isCanonical

/-- A routine that neither calls subroutines nor returns from them. -/
def Routine.Subroutineless (r : Routine) : Prop :=
  ∀ insn ∈ r.code, insn.opcode.isSubroutineCall = false ∧ insn.opcode ≠ .ret

/-! ### Kinds of operands -/

namespace SlotKind

/-- Whether values of a tracked type are of the kind. -/
def holds : SlotKind → JType → Bool
  | int, t => t = .int
  | long, t => t = .long
  | float, t => t = .float
  | double, t => t = .double
  | ref, t => t.isReference

end SlotKind

namespace NumKind

/-- The kind of slot that holds such numbers. -/
def slotKind : NumKind → SlotKind
  | int => .int
  | long => .long
  | float => .float
  | double => .double

end NumKind

namespace ElemKind

/-- The kind of the elements once they are on the stack. -/
def slotKind : ElemKind → SlotKind
  | long => .long
  | float => .float
  | double => .double
  | ref => .ref
  | _ => .int

end ElemKind

namespace Conversion

/-- The type of the operand. -/
def source : Conversion → NumKind
  | l2i | l2f | l2d => .long
  | f2i | f2l | f2d => .float
  | d2i | d2l | d2f => .double
  | _ => .int

end Conversion

/-- The kind of the integers an operation works on. -/
def SlotKind.ofWidth (wide : Bool) : SlotKind := if wide then .long else .int

namespace Opcode

/-- The kinds of the operands an operation takes off the stack, the topmost first. Rearrangements
take cells of any kind, and calls and accesses depend on a descriptor; see
`Instruction.operands`. -/
def operands : Opcode → List SlotKind
  | arrayLoad _ => [.int, .ref]
  | arrayStore kind => [kind.slotKind, .int, .ref]
  | store kind | returnValue kind => [kind]
  | arith _ kind => [kind.slotKind, kind.slotKind]
  | neg kind => [kind.slotKind]
  | shift _ wide => [.int, .ofWidth wide]
  | bitwise _ wide => [.ofWidth wide, .ofWidth wide]
  | convert conversion => [conversion.source.slotKind]
  | lcmp => [.long, .long]
  | fcmp _ => [.float, .float]
  | dcmp _ => [.double, .double]
  | ifZero _ | tableSwitch | lookupSwitch | newArray | newObjectArray => [.int]
  | ifInt _ => [.int, .int]
  | ifRef _ => [.ref, .ref]
  | ifNull | ifNonNull | arrayLength | athrow | checkCast | instanceOf | monitorEnter
  | monitorExit => [.ref]
  | _ => []

end Opcode

namespace FieldOp

/-- The operands of an access to a field of type `t`, the topmost first. -/
def operands : FieldOp → JType → List SlotKind
  | getStatic, _ => []
  | putStatic, t => [t.slotKind]
  | getField, _ => [.ref]
  | putField, t => [t.slotKind, .ref]

end FieldOp

namespace InvokeOp

/-- The operands of a call, the last argument first and the receiver last. -/
def operands (op : InvokeOp) (s : Signature) : List SlotKind :=
  (s.args.map JType.slotKind).reverse ++
    match op with
    | static | dynamic => []
    | _ => [.ref]

end InvokeOp

namespace Instruction

/-- The kinds of the operands an instruction takes off the stack, the topmost first. -/
def operands : Instruction → List SlotKind
  | field (.field op) _ _ descriptor =>
    match JType.parse descriptor with
    | .ok t => op.operands t
    | .error _ => []
  | method (.invoke op) _ _ descriptor _ =>
    match Signature.parse descriptor with
    | .ok s => op.operands s
    | .error _ => []
  | multiArray _ dims => List.replicate dims.toNat .int
  | insn => insn.opcode.operands

end Instruction

/-! ### Operands on a stack -/

/-- A stack, top first, begins with values of the given kinds. -/
def Begins : List SlotKind → List JType → Prop
  | [], _ => True
  | k :: ks, ts => ∃ t rest, k.holds t ∧ ts = Frame.cellsOf t ++ rest ∧ Begins ks rest

/-- Whether a cell of the type is a value of its own. -/
def JType.isSingle (t : JType) : Bool :=
  t.size = 1 && t ≠ .top

/-- The topmost `n` cells of a stack are whole values. -/
inductive Whole : Nat → List JType → Prop where
  | zero (ts : List JType) : Whole 0 ts
  | single {n : Nat} {t : JType} {ts : List JType} (h : t.isSingle) (rest : Whole n ts) :
    Whole (n + 1) (t :: ts)
  | wide {n : Nat} {t : JType} {ts : List JType} (h : t.size = 2) (rest : Whole n ts) :
    Whole (n + 2) (.top :: t :: ts)

theorem Whole.le_length {n : Nat} {ts : List JType} (h : Whole n ts) : n ≤ ts.length := by
  induction h with
  | zero => exact Nat.zero_le _
  | single _ _ ih => exact Nat.succ_le_succ ih
  | wide _ _ ih => exact Nat.succ_le_succ (Nat.succ_le_succ ih)

namespace Shuffle

/-- The number of cells a rearrangement moves. -/
def upper : Shuffle → Nat
  | dup | dupX1 | dupX2 | swap => 1
  | dup2 | dup2X1 | dup2X2 => 2

/-- The number of cells they are moved over. -/
def lower : Shuffle → Nat
  | dup | dup2 => 0
  | dupX1 | dup2X1 | swap => 1
  | dupX2 | dup2X2 => 2

end Shuffle

namespace Instruction

/-- The stack offers the operands of an instruction. Rearrangements do not take values apart. -/
def StackVerified (insn : Instruction) (stack : List JType) : Prop :=
  match insn.opcode with
  | .pop => Whole 1 stack
  | .pop2 => Whole 2 stack
  | .shuffle form => Whole form.upper stack ∧ Whole form.lower (stack.drop form.upper)
  | _ => Begins insn.operands stack

/-- The slot an instruction reads holds a value of the right kind. -/
def SlotVerified : Instruction → Frame → Prop
  | slot (.load kind) index, f => kind.holds (f.slot index)
  | iinc index _, f => f.slot index = .int
  | _, _ => True

/-- A field has a value. -/
def FieldVerified : Instruction → Prop
  | field _ _ _ descriptor => JType.parse descriptor ≠ .ok .void
  | _ => True

/-- **An instruction is verified at a frame**: it finds operands of the kinds its opcode and its
descriptor ask for, on the stack and in the slot it reads. -/
structure Verified (insn : Instruction) (f : Frame) : Prop where
  stack : insn.StackVerified f.stack
  slot : insn.SlotVerified f
  field : insn.FieldVerified

end Instruction

end Outliner
