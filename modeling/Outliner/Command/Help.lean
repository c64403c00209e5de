import Outliner.Command.Verb
import Outliner.Text.Grid

/-!
# Explanations

What the program says about itself and its commands: what they do, how they are written, and the
flags they take. Flags stand in the order of their names, with their purposes in a column.
-/

namespace Outliner

namespace Flag

/-- How a flag is written in a list of flags, with a word for its value. -/
def heading (f : Flag) : String :=
  let start := match f.letter with
    | some l => "  -" ++ String.singleton l ++ ", --"
    | none => "      --"
  start ++ f.name ++
    match f.kind, f.implied with
    | .text, some value => " string[=\"" ++ value ++ "\"]"
    | .text, none => " string"
    | .number, _ => " int"
    | .truth, _ => ""

/-- What a flag is for, with its initial value unless that is empty, zero or off. -/
def explanation (f : Flag) : String :=
  match f.kind, f.initial with
  | .text, "" | .number, "0" | .truth, _ => f.purpose
  | .text, value => f.purpose ++ " (default " ++ Text.quote value ++ ")"
  | .number, value => f.purpose ++ " (default " ++ value ++ ")"

/-- The lines of a list of flags. -/
def table (flags : List Flag) : List String :=
  let width := flags.foldr (fun f width => max f.heading.length width) 0
  (flags.mergeSort fun a b => a.name ≤ b.name).map fun f =>
    Text.pad .left (width + 3) f.heading ++ f.explanation

end Flag

/-- What can be explained. -/
inductive Topic where
  | program
  | command (verb : Verb)
  | help
  deriving DecidableEq, Repr

namespace Topic

/-- The lines on the flags that every command takes. -/
def sharedLines : List String :=
  ["", "Global Flags:"] ++ Flag.table Flag.shared

/-- The lines on the use of a command. -/
def commandUsage (pattern : String) (flags : List Flag) : List String :=
  ["Usage:", "  " ++ programName ++ " " ++ pattern ++ " [flags]", "", "Flags:"] ++
    Flag.table flags ++ sharedLines

/-- What the command for explanations does, in one line. -/
def helpSummary : String := "Help about any command"

/-- The commands with what they do, in the order of their names. -/
def commands : List (String × String) :=
  (("help", helpSummary) :: Verb.all.map fun v => (v.name, v.summary)).mergeSort
    fun a b => a.1 ≤ b.1

/-- The lines on the use of the program. -/
def programUsage (flags : List Flag) : List String :=
  ["Usage:", "  " ++ programName ++ " [command]", "", "Available Commands:"] ++
    commands.map (fun (name, summary) => "  " ++ Text.pad .left 12 name ++ summary) ++
    ["", "Flags:"] ++ Flag.table flags ++
    ["", "Use \"" ++ programName ++ " [command] --help\" for more information about a command."]

/-- The lines that explain a topic. -/
def lines : Topic → List String
  | program =>
    ["Split JVM routines that are too large to assemble", ""] ++
      programUsage (Flag.shared ++ [.help programName, .version])
  | command v => [v.summary, ""] ++ commandUsage v.pattern (v.ownFlags ++ [.help v.name])
  | help =>
    ["Help provides help for any command in the application.",
      "Simply type " ++ programName ++ " help [path to command] for full details.", ""] ++
      commandUsage "help [command]" [.help "help"]

/-- The lines for words that name no topic. -/
def unknown (words : List String) : List String :=
  ("Unknown help topic [" ++ " ".intercalate (words.map Text.quotePlain) ++ "]") ::
    programUsage Flag.shared

/-- The lines that explain what some arguments name. -/
def linesFor (arguments : List String) : List String :=
  match findCommand arguments with
  | .ok (.bare _) => program.lines
  | .ok (.command v _) => (command v).lines
  | .ok (.help _) => help.lines
  | .ok (.complete _ _) | .error _ => unknown arguments

/-- The line that tells the version. -/
def versionLines : List String :=
  [programName ++ " version dev (unknown, unknown)"]

end Topic

end Outliner
