import Outliner.Machine.Fault
import Outliner.Routine
import Outliner.SlotMap
import Outliner.Word

/-!
# Activations

An activation is a routine being run: its operand stack, its local slots and the offset of the next
instruction. `Exec` is the type of one step of it; such a step works on the activation, on the heap
and on the static fields, and keeps its changes also when it ends early.
-/

namespace Outliner

/-- A routine being run. -/
structure Activation where
  routine : Routine
  /-- The cells of the operand stack, top first. -/
  stack : List Value
  /-- The local slots that have been set. -/
  locals : SlotMap Value
  /-- The number of local slots. -/
  localCount : Nat
  /-- The offset of the next instruction. -/
  ip : Nat
  /-- The source line of the last line marker. -/
  line : Int := 0
  /-- Whether a line marker has been passed that nobody was told of. -/
  freshLine : Bool := false
  /-- Whether the caller goes on with the result on its stack. -/
  wantsResult : Bool := true
  deriving Inhabited

namespace Activation

/-- The most cells that can be set aside at once. -/
def capacity : Int := 0x100000000000

/-- Puts arguments into consecutive slots; fails when there are more than parameters. -/
def placeArguments (slot : Nat) (locals : SlotMap Value) :
    List Value → List JType → Option (SlotMap Value)
  | [], _ => some locals
  | _ :: _, [] => none
  | v :: args, t :: params =>
    let locals := locals.insert slot v
    let locals := if t.size = 2 then locals.insert (slot + 1) .wide else locals
    placeArguments (slot + t.size) locals args params

/-- The receiver, if the routine has one, and the arguments in their slots. -/
def argumentSlots (r : Routine) (args : List Value) : Option (SlotMap Value) :=
  if r.isStatic then placeArguments 0 .empty args r.signature.args
  else match args with
    | [] => none
    | receiver :: args => placeArguments 1 (SlotMap.empty.insert 0 receiver) args r.signature.args

/-- **A routine entered with arguments.** There is none if the declared sizes cannot be set aside or
the arguments do not match. -/
def enter (r : Routine) (args : List Value) (wantsResult : Bool) : Option Activation := do
  let count := max r.maxLocals r.argumentsSize
  let cells := Word.wrap (r.maxStack + 2)
  if capacity < count || cells < 0 || capacity < cells then none
  else
    let locals ← argumentSlots r args
    return {
      routine := r
      stack := []
      locals := locals
      localCount := count.toNat
      ip := 0
      wantsResult := wantsResult }

/-- The place of the instruction being executed, which is the one before the next. -/
def place (f : Activation) : Location :=
  ⟨f.routine.key, f.ip - 1, (f.routine.code.getD (f.ip - 1) .frame).opcode⟩

/-- Pushes a cell. -/
def push (f : Activation) (v : Value) : Activation :=
  { f with stack := v :: f.stack }

/-- Pushes a value, followed by the marker when it takes two cells. -/
def pushValue (f : Activation) (v : Value) : Activation :=
  { f with stack := if v.isWide then .wide :: v :: f.stack else v :: f.stack }

/-- The value of a local slot; nothing outside the slots there are. -/
def load? (f : Activation) (slot : Int) : Option Value :=
  if 0 ≤ slot && slot < f.localCount then some ((f.locals.get? slot).getD .null) else none

/-- The slots with a new value in one of them. A wide value takes the next slot too, and storing
into the second half of one clears it. -/
def storeIn (locals : SlotMap Value) (slot : Int) (v : Value) : SlotMap Value :=
  let locals := match locals.get? (slot - 1) with
    | some before => if before.isWide then locals.insert (slot - 1) .null else locals
    | none => locals
  let locals := locals.insert slot v
  if v.isWide then locals.insert (slot + 1) .wide else locals

/-- Stores into a local slot, adding slots if need be. No slot can lie at `2 ^ 31` or beyond. -/
def store? (f : Activation) (slot : Int) (v : Value) : Option Activation :=
  if 0 ≤ slot && slot < 0x80000000 then
    some { f with
      locals := storeIn f.locals slot v
      localCount := max f.localCount (slot.toNat + 2) }
  else none

end Activation

/-- Why a step ends before the instruction is done. -/
inductive Halt where
  | raised (exception : Addr)
  | failed (cause : Cause)
  | underflow
  | breakdown
  deriving DecidableEq, Repr

/-- What a step works on. -/
structure Workplace where
  frame : Activation
  heap : Heap
  /-- The static fields that have been set, by class and name. -/
  statics : List (String × Value)

/-- A step of an activation. -/
abbrev Exec := EStateM Halt Workplace

namespace Exec

/-- Break down: the instruction meets something it cannot work on. -/
def breakdown {α : Type} : Exec α := throw .breakdown

/-- The value of an option that has to be there. -/
def require {α : Type} : Option α → Exec α
  | some a => pure a
  | none => breakdown

/-- Fail for a cause. -/
def fail {α : Type} (cause : Cause) : Exec α := throw (.failed cause)

/-- Raise a new exception of a class with a message. -/
def raise {α : Type} (className message : String) : Exec α := do
  let s ← get
  let (heap, addr) := s.heap.allocThrowable className message
  set { s with heap := heap }
  throw (.raised addr)

/-- Change the activation. -/
def modifyFrame (f : Activation → Activation) : Exec Unit :=
  modify fun s => { s with frame := f s.frame }

/-- Push a cell. -/
def push (v : Value) : Exec Unit := modifyFrame (·.push v)

/-- Push a value, with the marker when it takes two cells. -/
def pushValue (v : Value) : Exec Unit := modifyFrame (·.pushValue v)

/-- Take a cell off. -/
def pop : Exec Value := do
  let s ← get
  match s.frame.stack with
  | [] => throw .underflow
  | v :: rest =>
    set { s with frame := { s.frame with stack := rest } }
    return v

/-- Take a value off, without the marker of one that takes two cells. -/
def popValue : Exec Value := do
  match ← pop with
  | .wide => pop
  | v => return v

/-- Take `n` cells off; gives them top first. -/
def takeCells (n : Nat) : Exec (List Value) := do
  let s ← get
  if s.frame.stack.length < n then throw .underflow
  else
    set { s with frame := { s.frame with stack := s.frame.stack.drop n } }
    return s.frame.stack.take n

def popInt : Exec Int32 := do
  match ← pop with
  | .int n => return n
  | _ => breakdown

def popFloat : Exec Float32 := do
  match ← pop with
  | .float bits => return Float32.ofBits bits
  | _ => breakdown

def popLong : Exec Int64 := do
  match ← popValue with
  | .long n => return n
  | _ => breakdown

def popDouble : Exec Float := do
  match ← popValue with
  | .double bits => return Float.ofBits bits
  | _ => breakdown

def pushInt (n : Int32) : Exec Unit := push (.int n)

def pushLong (n : Int64) : Exec Unit := pushValue (.long n)

def pushFloat (x : Float32) : Exec Unit := push (.float x.toBits)

def pushDouble (x : Float) : Exec Unit := pushValue (.double x.toBits)

/-- The value of a local slot. -/
def load (slot : Int) : Exec Value := do
  require ((← get).frame.load? slot)

/-- Store into a local slot. -/
def store (slot : Int) (v : Value) : Exec Unit := do
  let s ← get
  let frame ← require (s.frame.store? slot v)
  set { s with frame := frame }

/-- Go on at an offset. -/
def goTo (offset : Nat) : Exec Unit := modifyFrame fun f => { f with ip := offset }

/-- Go on at a label. -/
def goToLabel (l : Label) : Exec Unit := do
  goTo (← require ((← get).frame.routine.offset? l))

/-- Put something into the heap. -/
def alloc (cell : HeapCell) : Exec Value := do
  let s ← get
  let (heap, addr) := s.heap.alloc cell
  set { s with heap := heap }
  return .ref addr

/-- What a reference refers to; nothing for what is no reference into the heap. -/
def deref (v : Value) : Exec (Option HeapCell) := do
  match v with
  | .ref addr => return (← get).heap.get? addr
  | _ => return none

end Exec

end Outliner
