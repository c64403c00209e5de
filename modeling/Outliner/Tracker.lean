import Outliner.Frame
import Outliner.Instruction
import Outliner.Stop

/-!
# The type tracker

`Tracker.execute` applies one instruction to an abstract frame. It reports the instruction's effect:
how far below its starting depth the stack went, how many cells it left above that point, and which
local slots it read and wrote.

A refused instruction leaves the frame as it was when the fault was found, so a frame shows how far
the instruction came.
-/

namespace Outliner

/-- Why the tracker refuses an instruction. -/
inductive TrackFault where
  | underflow
  | depthMismatch (m : DepthMismatch)
  | fallsOff
  | unreachable
  | descriptor (e : DescriptorError)
  | unsupportedConstant
  | badArrayCode (code : Int32)
  | unsupportedOpcode (op : Opcode)
  deriving DecidableEq, Repr

namespace TrackFault

/-- The wording of a fault. -/
def message : TrackFault → String
  | underflow => "stack underflow"
  | depthMismatch m =>
    "stack depth mismatch: " ++ toString m.left ++ " and " ++ toString m.right
  | fallsOff => "execution falls off the end of the code"
  | unreachable => "unreachable instruction"
  | descriptor e => e.message
  | unsupportedConstant => "unsupported constant <nil>"
  | badArrayCode code => "invalid newarray type " ++ toString code.toInt
  | unsupportedOpcode op => "unsupported opcode " ++ op.display

end TrackFault

/-- A fault at an instruction. -/
structure TrackError where
  offset : Int
  opcode : Opcode
  fault : TrackFault
  deriving DecidableEq, Repr

namespace TrackError

/-- The wording of an error, which names the opcode unless there is none. -/
def message (e : TrackError) : String :=
  "analysis error at " ++ toString e.offset ++
    (match e.opcode with
      | .marker => ""
      | op => " (" ++ op.display ++ ")") ++ ": " ++ e.fault.message

end TrackError

/-- A read or write of a local slot. -/
structure SlotAccess where
  slot : Int
  size : Nat
  deriving DecidableEq, Repr, Inhabited

/-- What one instruction did to a frame. -/
structure Effect where
  /-- The number of cells taken from below the starting depth. -/
  pops : Nat := 0
  /-- The number of cells left above the lowest depth. -/
  pushes : Nat := 0
  reads : List SlotAccess := []
  writes : List SlotAccess := []
  deriving DecidableEq, Repr, Inhabited

/-- The type of the elements created by an array code, from 4 to 11. -/
def arrayElement? (code : Int32) : Option Primitive :=
  match code.toInt with
  | 4 => some .boolean
  | 5 => some .char
  | 6 => some .float
  | 7 => some .double
  | 8 => some .byte
  | 9 => some .short
  | 10 => some .int
  | 11 => some .long
  | _ => none

namespace NumKind

/-- The type of the values. -/
def type : NumKind → JType
  | int => .int
  | long => .long
  | float => .float
  | double => .double

end NumKind

namespace SlotKind

/-- The type of the values; any object for references. -/
def type : SlotKind → JType
  | int => .int
  | long => .long
  | float => .float
  | double => .double
  | ref => .anyObject

end SlotKind

namespace ElemKind

/-- The type an element has on the stack; any object for references. -/
def type : ElemKind → JType
  | long => .long
  | float => .float
  | double => .double
  | ref => .anyObject
  | _ => .int

end ElemKind

namespace Constant

/-- The type of a pushed constant. -/
def type? : Constant → Option JType
  | int _ => some .int
  | long _ => some .long
  | float _ => some .float
  | double _ => some .double
  | string _ => some .string
  | .class _ => some .classObject
  | missing => none

end Constant

namespace Tracker

/-- A frame being worked on, with the lowest depth reached and the slots touched so far. -/
structure State where
  frame : Frame
  low : Nat
  reads : List SlotAccess
  writes : List SlotAccess

/-- A step of the tracker. A step that stops leaves the state as it was at that moment. -/
abbrev Track := EStateM (Stop TrackFault) State

/-- Refuse the instruction. -/
def refuse {α : Type} (fault : TrackFault) : Track α :=
  throw (.refused fault)

/-- Break down: the instruction's form cannot carry its opcode. -/
def breakdown {α : Type} : Track α :=
  throw .breakdown

/-- The value of an option; its absence is refused for the given reason. -/
def orRefuse {α : Type} (fault : TrackFault) : Option α → Track α
  | some a => pure a
  | none => refuse fault

/-- Take `n` cells off, top first. -/
def pop (n : Nat) : Track (List JType) := do
  let s ← get
  match s.frame.popN? n with
  | none => refuse .underflow
  | some (cells, f) =>
    set { s with frame := f, low := min s.low f.depth }
    return cells

/-- Take one value off. -/
def popValue : Track JType := do
  let s ← get
  match s.frame.pop? with
  | none => refuse .underflow
  | some (t, f) =>
    set { s with frame := f, low := min s.low f.depth }
    return t

/-- Push a value. -/
def push (t : JType) : Track Unit :=
  modify fun s => { s with frame := s.frame.push t }

/-- Note that a slot is read. -/
def read (slot : Int) (size : Nat) : Track Unit :=
  modify fun s => { s with reads := s.reads ++ [⟨slot, size⟩] }

/-- Write a value into a slot. -/
def write (slot : Int) (t : JType) : Track Unit :=
  modify fun s =>
    { s with writes := s.writes ++ [⟨slot, t.size⟩], frame := s.frame.setSlot slot t }

/-- Take `n` cells off and push a value in their place. -/
def popPush (n : Nat) (t : JType) : Track Unit := do
  let _ ← pop n
  push t

/-- Access a field of the type with the given descriptor. -/
def access (op : FieldOp) (descriptor : String) : Track Unit := do
  match JType.parse descriptor with
  | .error e => refuse (.descriptor e)
  | .ok t =>
    match op with
    | .getStatic => push t.computational
    | .putStatic => let _ ← pop t.size
    | .getField => do
      let _ ← popValue
      push t.computational
    | .putField => let _ ← pop (t.size + 1)

/-- The type of an object once its constructor has run. Inside a constructor that is the class that
declares it. -/
def initialized (owner : String) (name : String) (site : Int) : JType :=
  JType.ofClassName (if site < 0 then owner else name)

/-- Call a method from a routine of class `owner`. -/
def call (owner : String) (op : InvokeOp) (name descriptor : String) : Track Unit := do
  match Signature.parse descriptor with
  | .error e => refuse (.descriptor e)
  | .ok signature =>
    let _ ← pop signature.argumentsSize
    match op with
    | .static | .dynamic => pure ()
    | .special => do
      let receiver ← popValue
      match receiver with
      | .uninitialized className site =>
        if name = "<init>" then
          modify fun s =>
            { s with frame := s.frame.replace receiver (initialized owner className site) }
      | _ => pure ()
    | .virtual | .interface => let _ ← popValue
    match signature.result with
    | .void => pure ()
    | t => push t.computational

/-- What an instruction of class `owner` standing at `offset` does to a frame. -/
def perform (owner : String) (insn : Instruction) (offset : Int) : Track Unit := do
  match insn.opcode with
  | .marker | .nop | .goto | .gotoWide | .returnVoid => pure ()
  | .aconstNull => push .null
  | .iconst _ | .bipush | .sipush => push .int
  | .lconst _ => push .long
  | .fconst _ => push .float
  | .dconst _ => push .double
  | .ldc =>
    match insn with
    | .ldc c => do
      let t ← orRefuse .unsupportedConstant c.type?
      push t
    | _ => breakdown
  | .load kind =>
    match insn with
    | .slot _ index => do
      read index kind.size
      match kind with
      | .ref => do
        let t := (← get).frame.slot index
        push (if t.isReference then t else .anyObject)
      | _ => push kind.type
    | _ => breakdown
  | .store kind =>
    match insn with
    | .slot _ index => do
      let t ← popValue
      match kind with
      | .ref => write index t
      | _ => write index kind.type
    | _ => breakdown
  | .iinc =>
    match insn with
    | .iinc index _ => do
      read index 1
      write index .int
    | _ => breakdown
  | .ret =>
    match insn with
    | .slot _ index => read index 1
    | _ => breakdown
  | .arrayLoad .ref => do
    let _ ← pop 1
    let array ← popValue
    push (match array with
      | .array _ => array.elementType
      | .null => .null
      | _ => .anyObject)
  | .arrayLoad kind => popPush 2 kind.type
  | .arrayStore .long | .arrayStore .double => let _ ← pop 4
  | .arrayStore _ => let _ ← pop 3
  | .pop => let _ ← pop 1
  | .pop2 => let _ ← pop 2
  | .shuffle form => do
    let cells ← pop form.taken
    match form.apply cells with
    | some cells => modify fun s => { s with frame := s.frame.pushAll cells.reverse }
    | none => breakdown
  | .arith _ kind => popPush (2 * kind.type.size) kind.type
  | .bitwise _ wide => popPush (if wide then 4 else 2) (if wide then .long else .int)
  | .shift _ wide => popPush (if wide then 3 else 2) (if wide then .long else .int)
  | .fcmp _ => popPush 2 .int
  | .lcmp | .dcmp _ => popPush 4 .int
  | .neg _ => do
    let t ← popValue
    push t
  | .convert conversion => do
    let _ ← popValue
    push conversion.result.type
  | .ifZero _ | .ifNull | .ifNonNull | .tableSwitch | .lookupSwitch | .athrow | .monitorEnter
  | .monitorExit => let _ ← pop 1
  | .ifInt _ | .ifRef _ => let _ ← pop 2
  | .jsr | .jsrWide => push .top
  | .returnValue _ => let _ ← popValue
  | .field op =>
    match insn with
    | .field _ _ _ descriptor => access op descriptor
    | _ => breakdown
  | .invoke op =>
    match insn with
    | .method _ _ name descriptor _ => call owner op name descriptor
    | _ => breakdown
  | .new =>
    match insn with
    | .type _ name => push (.uninitialized name offset)
    | _ => breakdown
  | .newArray => do
    let _ ← pop 1
    match insn with
    | .int _ code => do
      let elem ← orRefuse (.badArrayCode code) (arrayElement? code)
      push (.arrayOf (.prim elem))
    | _ => breakdown
  | .newObjectArray => do
    let _ ← pop 1
    match insn with
    | .type _ name => push (.arrayOf (.ofClassName name))
    | _ => breakdown
  | .multiArray =>
    match insn with
    | .multiArray descriptor dims =>
      if dims < 0 then breakdown
      else do
        let _ ← pop dims.toNat
        match JType.parse descriptor with
        | .error e => refuse (.descriptor e)
        | .ok t => push t
    | _ => breakdown
  | .arrayLength | .instanceOf => popPush 1 .int
  | .checkCast => do
    let _ ← pop 1
    match insn with
    | .type _ name => push (.ofClassName name)
    | _ => breakdown
  | .unassigned code => refuse (.unsupportedOpcode (.unassigned code))

/-- **One abstract step.** Applies the instruction at `offset` of a routine of class `owner` to a
frame; gives the frame it leaves, and the effect unless it stopped. -/
def execute (owner : String) (f : Frame) (insn : Instruction) (offset : Int) :
    Frame × Except (Stop TrackError) Effect :=
  match (perform owner insn offset).run ⟨f, f.depth, [], []⟩ with
  | .ok () s =>
    (s.frame, .ok ⟨f.depth - s.low, s.frame.depth - s.low, s.reads, s.writes⟩)
  | .error stop s => (s.frame, .error (stop.mapReason fun fault => ⟨offset, insn.opcode, fault⟩))

end Tracker

end Outliner
