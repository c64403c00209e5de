import Outliner.Machine.Value

/-!
# What can go wrong in a run

Why a run ends without a result, and where. An instruction that fails ends the run at its own place.
A failure before any instruction runs has no place.
-/

namespace Outliner

/-- Why an instruction, or a call from outside, fails. -/
inductive Cause where
  | unknownMethod (key : String)
  | stackOverflow
  | halted
  | cancelled
  | fellOff
  | unsupportedOpcode (op : Opcode)
  | dynamicCall (name descriptor : String)
  | badArrayCode (code : Int32)
  | descriptor (e : DescriptorError)
  /-- A field of something that is no object with fields. -/
  | notObject (action className : String)
  | alreadyRunning
  /-- A built-in method fails with a text of its own. -/
  | native (text : String)
  | argumentCount (key : String) (expected got : Nat)
  | coerce (e : CoerceError)
  deriving DecidableEq, Repr

namespace Cause

/-- The wording of a cause. -/
def message : Cause → String
  | unknownMethod key => "unknown method: " ++ key
  | stackOverflow => "stack overflow"
  | halted => "execution halted by observer"
  | cancelled => "context canceled"
  | fellOff => "execution fell off the end of the code"
  | unsupportedOpcode op => "unsupported opcode " ++ op.display
  | dynamicCall name type => "invokedynamic " ++ name ++ type ++ " is not supported"
  | badArrayCode code => "invalid newarray type " ++ toString code.toInt
  | descriptor e => e.message
  | notObject action className => "cannot " ++ action ++ " of " ++ className
  | alreadyRunning => "vm is already running"
  | native text => text
  | argumentCount key expected got =>
    key ++ ": expected " ++ toString expected ++ " arguments, got " ++ toString got
  | coerce e => e.message

end Cause

/-- The place of an instruction. -/
structure Location where
  routine : String
  offset : Nat
  opcode : Opcode
  deriving DecidableEq, Repr

namespace Location

/-- The place of what happens outside every routine. -/
def nowhere : Location := ⟨"", 0, .nop⟩

/-- The text of a place. -/
def display (l : Location) : String :=
  l.routine ++ " at " ++ toString l.offset ++ " (" ++ l.opcode.display ++ ")"

end Location

/-- Why a run ends without a result. -/
inductive MachineError where
  /-- An instruction fails. -/
  | fault (place : Location) (cause : Cause)
  /-- No handler catches an exception; its class and message are kept for the report. -/
  | uncaught (place : Location) (exception : Addr) (className : String) (note : String)
  /-- The call is refused before any instruction runs. -/
  | refused (cause : Cause)
  /-- An instruction takes more cells than the operand stack holds. -/
  | underflow (routine : String) (next : Nat)
  deriving DecidableEq, Repr

namespace MachineError

/-- The wording of an error. -/
def message : MachineError → String
  | fault place cause => place.display ++ ": " ++ cause.message
  | uncaught place _ className note =>
    place.display ++ ": uncaught exception: " ++ className ++
      if note.isEmpty then "" else ": " ++ note
  | refused cause => cause.message
  | underflow routine next =>
    "panic: operand stack underflow in " ++ routine ++ " at " ++ toString next

end MachineError

end Outliner
