import Outliner.Journal
import Outliner.Machine.Observer
import Outliner.Text.Number

/-!
# Log lines

How the journal and the events of a machine look on the console, and which of them are shown. A line
has the time, a level, a heading and fields; an error comes first among the fields, the others
follow in the order of their names.
-/

namespace Outliner

/-- Why a text is no log level. -/
inductive LevelError where
  | unknown (text : String)
  | outOfBounds (n : Int)
  deriving DecidableEq, Repr

namespace LevelError

/-- The wording of an error. -/
def message : LevelError → String
  | unknown text => "Unknown Level String: '" ++ text ++ "', defaulting to NoLevel"
  | outOfBounds n => "Out-Of-Bounds Level: '" ++ toString n ++ "', defaulting to NoLevel"

end LevelError

/-- The level below which nothing is shown. -/
abbrev LogLevel := Int

namespace LogLevel

/-- The level of the journal. -/
def debug : LogLevel := 0

/-- The named levels. -/
def named : List (String × LogLevel) :=
  [("trace", -1), ("debug", 0), ("info", 1), ("warn", 2), ("error", 3), ("fatal", 4), ("panic", 5),
    ("disabled", 7), ("", 6)]

/-- Reads a level: a name or a number of one byte. -/
def read (text : String) : Except LevelError LogLevel :=
  match named.lookup text, Text.readDecimal? text with
  | some level, _ => .ok level
  | none, none => .error (.unknown text)
  | none, some n => if n > 127 || n < -128 then .error (.outOfBounds n) else .ok n

/-- Whether the journal is shown at a level. -/
def showsJournal (level : LogLevel) : Bool :=
  level ≤ debug

end LogLevel

namespace Console

/-- Whether a value has to be quoted: if it has a space, a quote, a backslash or a character outside
of printable ASCII. -/
def needsQuotes (s : String) : Bool :=
  s.toList.any fun c => c.toNat < 0x20 || c.toNat > 0x7e || c = ' ' || c = '\\' || c = '"'

/-- The text of the value of a field. -/
def showText (s : String) : String :=
  if needsQuotes s then Text.quote s else s

/-- A field of a line. -/
def field (name value : String) : String :=
  " " ++ name ++ "=" ++ value

/-- Fields in the order in which they are shown. -/
def ordered (fields : List (String × String)) : List (String × String) :=
  let (errors, others) := fields.partition (·.1 = "error")
  errors ++ others.mergeSort fun a b => a.1 ≤ b.1

/-- A line of the log. -/
def line (clock message : String) (fields : List (String × String)) : String :=
  clock ++ " DBG " ++ message ++
    String.join ((ordered fields).map fun (name, value) => field name value) ++ "\n"

/-- The line of an entry of the journal. -/
def noteLine (clock : String) (n : Note) : String :=
  line clock n.message (n.fields.map fun (name, value) =>
    (name, match value with
      | .text s => showText s
      | .number n => toString n))

/-- The line of an event; `showValue` gives the text of a value that a method returns. -/
def eventLine (clock : String) (showValue : Heap → Value → String) : Event → String
  | .step routine offset op sourceLine stackDepth frameDepth =>
    line clock "step" ([("routine", showText routine), ("ip", toString offset),
      ("op", showText op.display), ("stack", toString stackDepth),
      ("depth", toString frameDepth)] ++
      if sourceLine > 0 then [("line", toString sourceLine)] else [])
  | .call routine argCount native frameDepth =>
    line clock "call" [("routine", showText routine), ("args", toString argCount),
      ("native", if native then "true" else "false"), ("depth", toString frameDepth)]
  | .returned routine value heap frameDepth =>
    line clock "return" [("routine", showText routine),
      ("value", showText (showValue heap value)), ("depth", toString frameDepth)]

end Console

end Outliner
