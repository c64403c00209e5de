import Outliner.Routine
import Outliner.Snippet
import Outliner.Word

/-!
# Routines under construction

A draft collects instructions and protected blocks one after the other and keeps count of the local
slots they use. `Draft.routine` makes the finished routine.
-/

namespace Outliner

/-- A routine under construction. -/
structure Draft where
  owner : String
  access : Access
  name : String
  descriptor : String
  code : Array (Option Instruction) := #[]
  blocks : Array TryCatch := #[]
  maxLocals : Int := 0
  maxStack : Int := 0
  /-- The number of labels handed out. -/
  labelCount : Nat := 0
  deriving Inhabited

/-- The number of local slots a sequence needs when some are already taken. -/
def localsNeeded (taken : Int) (insns : List Instruction) : Int :=
  insns.foldl (fun n insn => match insn.slotAccess? with
    | some (index, size) => max n (Word.wrap (index + size))
    | none => n) taken

namespace Draft

/-- The number of instructions so far, which is the offset of the next one. -/
def size (d : Draft) : Nat := d.code.size

/-- Appends one instruction, or leaves a place empty. -/
def emitPlace (d : Draft) (place : Option Instruction) : Draft :=
  { d with
    code := d.code.push place
    maxLocals := localsNeeded d.maxLocals place.toList }

/-- Appends one instruction. -/
def emit (d : Draft) (insn : Instruction) : Draft :=
  d.emitPlace (some insn)

/-- Appends instructions in order. -/
def emitAll (d : Draft) (insns : List Instruction) : Draft :=
  insns.foldl emit d

/-- A new label, not yet placed. -/
def addLabel (d : Draft) : Label × Draft :=
  (⟨d.labelCount + 1, "L" ++ toString (d.labelCount + 1)⟩,
    { d with labelCount := d.labelCount + 1 })

/-- Appends a switch over consecutive keys starting at `low`. -/
def tableSwitch (d : Draft) (low : Int32) (fallback : Label) (targets : List Label) : Draft :=
  d.emit (.tableSwitch low (low + Int32.ofNat targets.length - 1) fallback targets)

/-- Adds a protected block. -/
def tryCatch (d : Draft) (b : TryCatch) : Draft :=
  { d with blocks := d.blocks.push b }

/-- Reserves the next free local slot for a value of type `t`. -/
def addLocal (d : Draft) (t : JType) : Int × Draft :=
  (d.maxLocals, { d with maxLocals := Word.wrap (d.maxLocals + t.size) })

/-- Raises the number of local slots. -/
def limitLocals (d : Draft) (n : Int) : Draft :=
  { d with maxLocals := max d.maxLocals n }

/-- Sets the declared size of the operand stack. -/
def limitStack (d : Draft) (n : Int) : Draft :=
  { d with maxStack := n }

/-- The parts collected so far. -/
def parts (d : Draft) : RoutineParts where
  owner := d.owner
  name := d.name
  descriptor := d.descriptor
  access := d.access
  code := d.code
  blocks := d.blocks.toList
  maxLocals := d.maxLocals
  maxStack := d.maxStack

/-- Makes the finished routine. -/
def routine (d : Draft) : Except RoutineError Routine :=
  Routine.make d.parts

end Draft

end Outliner
