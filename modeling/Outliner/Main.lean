import Outliner.Command.Run

/-!
# The program

Runs one command line: reads the document it needs, prints, writes the document it makes, and says
what went wrong. Everything else is decided by `plan` and `Invocation.perform`.
-/

namespace Outliner

/-- What an error of the system says about a path. -/
def faultOf (e : IO.Error) : FileFault :=
  match e with
  | .noFileOrDirectory .. => .missing
  | .permissionDenied .. => .denied
  | e => .other (toString e)

/-- Tries to work with a file. -/
def tryFile {α : Type} (step path : String) (act : IO α) : IO (Except FileError α) := do
  try
    return .ok (← act)
  catch e =>
    return .error ⟨step, path, faultOf e⟩

/-- Reads the document a command needs. -/
def fetch : Source → IO (Except FileError (List UInt8))
  | .nothing => return .ok []
  | .standard => do
    return .ok (← (← IO.getStdin).readBinToEnd).data.toList
  | .file path => do
    return (← tryFile "open" path (IO.FS.readBinFile path)).map (·.data.toList)

/-- Prints a failure. -/
def tell (stop : Stop Failure) : IO UInt32 := do
  match stop with
  | .refused f => (← IO.getStderr).putStrLn f.message
  | .breakdown => (← IO.getStderr).putStrLn "the command broke down"
  return 1

/-- The settings that the environment has. -/
def environment : IO (List (String × String)) := do
  let flags := (Verb.all.flatMap Verb.flags).map Flag.name
  let names := ("completion-descriptions" :: flags).map environmentName
  names.filterMapM fun name => do
    return (← IO.getEnv name).map fun value => (name, value)

/-- Runs a command and gives the exit status. -/
def runCommand (i : Invocation) (source : Source) : IO UInt32 := do
  let (result, printed) := i.perform (← fetch source) {}
  (← IO.getStdout).write printed.out
  (← IO.getStderr).putStr printed.err
  match result with
  | .error stop => tell stop
  | .ok none => return 0
  | .ok (some saving) =>
    match ← tryFile "open" saving.path (IO.FS.writeBinFile saving.path ⟨saving.bytes.toArray⟩) with
    | .ok () => return 0
    | .error e => tell (.refused (.file e))

end Outliner

/-- The entry point. -/
def main (args : List String) : IO UInt32 := do
  match Outliner.plan (← Outliner.environment) args with
  | .error f => Outliner.tell (.refused f)
  | .ok (.explain lines asides) => do
    IO.print (Outliner.Plan.textOf lines)
    IO.eprint (Outliner.Plan.textOf asides)
    return 0
  | .ok (.invoke i source) => Outliner.runCommand i source
