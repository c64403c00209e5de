import Outliner.Command.Flag
import Outliner.Text.Case

/-!
# Commands

Which command a command line asks for. The command is the first argument that is neither a flag nor
the value of one, as far as that can be told before the command is known: a flag that is not known
to have an implied value is taken to have one after it.
-/

namespace Outliner

/-- The commands. -/
inductive Verb where
  | gen
  | demo
  | split
  | dis
  | run
  deriving DecidableEq, Repr, Inhabited

namespace Verb

/-- All commands, in the order in which they are suggested. -/
def all : List Verb := [gen, demo, split, dis, run]

/-- The word for a command. -/
def name : Verb → String
  | gen => "gen"
  | demo => "demo"
  | split => "split"
  | dis => "dis"
  | run => "run"

end Verb

/-- The name of the program. -/
def programName : String := "msplit"

namespace Flag

/-- The flags that may stand before a command. -/
def shared : List Flag :=
  [{ name := "log-level", initial := "warn",
     purpose := "Log level (trace, debug, info, warn, error)" },
    switch "no-color" "Disable colored output"]

/-- The flag that asks for the explanation of a topic. -/
def help (topic : String) : Flag :=
  { switch "help" ("help for " ++ topic) with letter := some 'h' }

/-- The flag that asks for the version. -/
def version : Flag :=
  { switch "version" ("version for " ++ programName) with letter := some 'v' }

/-- Where results are written. -/
def out (purpose : String) : Flag :=
  { name := "out", letter := some 'o', purpose := purpose }

/-- Whether the input is read from the standard input. -/
def stdin : Flag := switch "stdin" "Read the routines from stdin"

/-- How long the sample routine is. -/
def terms : Flag := number "terms" 13000 "Number of unrolled additions"

/-- The class of the sample routine. -/
def owner : Flag :=
  { name := "owner", purpose := "Owner class of the routine (random when empty)" }

/-- What the name of the extracted routine ends in. -/
def suffix : Flag := { name := "suffix", purpose := "Suffix of the extracted routine name" }

end Flag

namespace Verb

/-- What a command does, in one line. -/
def summary : Verb → String
  | gen => "Generate an unrolled summing routine"
  | demo => "Split a generated routine that is too large and check the result"
  | split => "Split an encoded routine in two"
  | dis => "List the instructions of encoded routines"
  | run => "Invoke an encoded routine on the reference VM"

/-- A command with the arguments it takes. -/
def pattern : Verb → String
  | gen => "gen"
  | demo => "demo"
  | split => "split [file]"
  | dis => "dis [file]"
  | run => "run [file] [args...]"

/-- The flags of a command apart from the shared ones. -/
def ownFlags : Verb → List Flag
  | gen => [.terms, .owner, .out "Output file, or \"-\" for stdout"]
  | demo =>
    [.terms, .owner, .suffix, .out "Write the split routines to a file, or \"-\" for stdout"]
  | split =>
    [.stdin, { name := "name", purpose := "Routine to split (the first one when empty)" }, .suffix,
      .number "min" 0 "Minimum number of instructions to extract",
      .number "max" 0 "Maximum number of instructions to extract",
      .number "first-at-least" (-1) ("Accept the first range at least this long " ++
        "(0 searches every start, -1 uses --max)"),
      .out "Write all routines, split ones included, to a file or \"-\" for stdout"]
  | dis => [.stdin, { name := "name", purpose := "Only list the routine with this name" }]
  | run =>
    [.stdin, { name := "name", purpose := "Routine to invoke (the first one when empty)" },
      .number "max-depth" 1024 "Maximum call depth", .switch "timing" "Show execution time",
      { name := "trace", implied := some "all",
        purpose := "Log VM events to stderr (all, line, sampled or calls)" },
      .number "trace-interval" 0 "Instructions between steps in sampled mode"]

/-- All flags of a command. -/
def flags (v : Verb) : List Flag :=
  v.ownFlags ++ Flag.shared ++ [.help v.name]

/-- How many arguments a command takes at most, if there is a limit. -/
def argumentLimit : Verb → Option Nat
  | gen | demo => some 0
  | split | dis => some 1
  | run => none

end Verb

/-! ### Finding the command -/

/-- Whether an argument is taken to have a value after it, given the flags known. -/
def takesNext (flags : List Flag) (argument : String) : Bool :=
  if argument.contains '=' then false
  else if argument.startsWith "--" then
    !flags.any fun f => "--" ++ f.name = argument && f.implied.isSome
  else
    argument.startsWith "-" && argument.utf8ByteSize = 2 &&
      !flags.any fun f =>
        f.letter.any (fun l => "-" ++ String.singleton l = argument) && f.implied.isSome

/-- The arguments of a command line that are words, as far as can be told. -/
def words (flags : List Flag) : List String → List String
  | [] => []
  | argument :: rest =>
    if argument = "--" then []
    else if takesNext flags argument then
      match rest with
      | _ :: next :: rest => words flags (next :: rest)
      | _ => []
    else if argument = "" || argument.startsWith "-" then words flags rest
    else argument :: words flags rest

/-- A command line without the first place where a word stands. -/
def withoutWord (flags : List Flag) (word : String) : List String → List String
  | [] => []
  | argument :: rest =>
    if argument = "--" then argument :: rest
    else if takesNext flags argument then
      match rest with
      | value :: rest => argument :: value :: withoutWord flags word rest
      | [] => [argument]
    else if argument = word && !argument.startsWith "-" then rest
    else argument :: withoutWord flags word rest

/-- What a command line asks for, with the arguments left. -/
inductive Request where
  | command (verb : Verb) (arguments : List String)
  /-- Explanations of what the arguments name. -/
  | help (arguments : List String)
  /-- What may stand in place of the last argument, with explanations or without. -/
  | complete (describe : Bool) (arguments : List String)
  /-- Nothing, or only flags. -/
  | bare (arguments : List String)
  deriving DecidableEq, Repr

namespace Request

/-- The arguments left. -/
def arguments : Request → List String
  | command _ arguments | help arguments | complete _ arguments | bare arguments => arguments

/-- The flags that go with a request. -/
def flags : Request → List Flag
  | command verb _ => verb.flags
  | help _ => Flag.shared ++ [.help "help"]
  | complete _ _ => Flag.shared ++ [.help "__complete"]
  | bare _ => Flag.shared ++ [.help programName, .version]

end Request

/-- Finds the command in a command line; gives the word that names none otherwise. -/
def findCommand (arguments : List String) : Except String Request :=
  match words Flag.shared arguments with
  | [] => .ok (.bare arguments)
  | word :: _ =>
    match Verb.all.find? (·.name = word) with
    | some verb => .ok (.command verb (withoutWord Flag.shared word arguments))
    | none =>
      let rest := withoutWord Flag.shared word arguments
      match word with
      | "help" => .ok (.help rest)
      | "__complete" => .ok (.complete true rest)
      | "__completeNoDesc" => .ok (.complete false rest)
      | _ => .error word

/-! ### Suggestions -/

/-- One row of the table of edit distances, from the row before it; `left` is the entry to the left,
`diagonal` the one above that. -/
def distanceRow (b : UInt8) : (left diagonal : Nat) → List UInt8 → List Nat → List Nat
  | left, diagonal, c :: word, above :: row =>
    let here := if b = c then diagonal else 1 + min (min left above) diagonal
    here :: distanceRow b here above word row
  | _, _, _, _ => []

/-- The number of bytes to insert, delete or replace to get from one word to another. -/
def editDistance (s t : List UInt8) : Nat :=
  let first := List.range (t.length + 1)
  let last := s.foldl (fun row b =>
    match row with
    | start :: above => (start + 1) :: distanceRow b (start + 1) start t above
    | [] => []) first
  last.getLastD 0

/-- The commands that may have been meant by a word: those that it begins, and those at most two
changes away. -/
def suggestions (word : String) : List String :=
  let typed := Text.lower word
  (Verb.all.map Verb.name).filter fun name =>
    editDistance typed.toUTF8.toList name.toUTF8.toList ≤ 2 || name.startsWith typed

end Outliner
