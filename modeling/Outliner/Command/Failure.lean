import Outliner.Assembly.Code
import Outliner.Command.Console
import Outliner.Command.Files
import Outliner.Command.Verb
import Outliner.Listing
import Outliner.Machine.Fault
import Outliner.Outline
import Outliner.Wire.Document

/-!
# Failures

Everything that can go wrong with a command, and how it is told.
-/

namespace Outliner

/-- Why a command fails. -/
inductive Failure where
  | flag (e : FlagError)
  | unknownCommand (word : String) (of : String) (meant : List String)
  | tooManyArguments (limit given : Nat)
  | noArguments
  | outRequired
  | severalInputs
  | noInput
  | noRoutines
  | notFound (name : String)
  | notStatic (key : String)
  | argumentCount (key : String) (expected given : Nat)
  | badArgument (index : Nat) (e : Text.NumberError)
  | unsupportedArgument (index : Nat) (type : JType)
  | logLevel (e : LevelError)
  | traceMode (mode : String)
  | differs (given expected : String)
  | file (e : FileError)
  | wire (e : Wire.WireError)
  | outline (e : OutlineError)
  | assembly (e : AssemblyError)
  | listing (e : ListingError)
  | machine (e : MachineError)
  /-- A run of a machine broke down. -/
  | machineBroken
  deriving Repr

namespace Failure

/-- The wording of a failure. -/
def message : Failure → String
  | flag e => e.message
  | unknownCommand word of meant =>
    "unknown command " ++ Text.quote word ++ " for " ++ Text.quote of ++
      if meant.isEmpty then ""
      else "\n\nDid you mean this?\n" ++ String.join (meant.map fun name => "\t" ++ name ++ "\n")
  | tooManyArguments limit given =>
    "accepts at most " ++ toString limit ++ " arg(s), received " ++ toString given
  | noArguments => "requires at least 1 arg(s), only received 0"
  | outRequired => "--out is required"
  | severalInputs => "multiple input sources specified"
  | noInput => "no input specified"
  | noRoutines => "input holds no routines"
  | notFound name => "routine " ++ Text.quote name ++ " not found"
  | notStatic key => key ++ " is not static"
  | argumentCount key expected given =>
    key ++ " takes " ++ toString expected ++ " arguments, got " ++ toString given
  | badArgument index e => "argument " ++ toString index ++ ": " ++ e.message
  | unsupportedArgument index type =>
    "argument " ++ toString index ++ ": cannot pass " ++ type.display ++ " from the command line"
  | logLevel e => "invalid log level: " ++ e.message
  | traceMode mode => "unknown trace mode " ++ Text.quote mode
  | differs given expected => "split routine returned " ++ given ++ ", want " ++ expected
  | file e => e.message
  | wire e => e.message
  | outline e => e.message
  | assembly e => e.message
  | listing e => e.message
  | machine e => e.message
  | machineBroken => "panic"

end Failure

end Outliner
