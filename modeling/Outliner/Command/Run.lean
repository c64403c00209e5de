import Outliner.Command.Completion
import Outliner.Command.Failure
import Outliner.Command.Settings
import Outliner.Command.Show
import Outliner.Decimal.Reader
import Outliner.Machine.Run
import Outliner.Sample

/-!
# Running commands

A command reads at most one document, works on it, and writes at most one document at its end. So it
is run in three steps: `Invocation.source` says what has to be read, `Invocation.perform` does the
work and gives what has to be written, and reading and writing are left to the caller.
-/

namespace Outliner

/-- What a command has printed. -/
structure Printed where
  out : ByteArray := ByteArray.empty
  err : String := ""

/-- Work that prints, and may fail. What has been printed before a failure stays. -/
abbrev Job := ExceptT (Stop Failure) (StateM Printed)

namespace Job

/-- Prints a text as a result. -/
def print (text : String) : Job Unit :=
  modify fun p => { p with out := p.out ++ text.toUTF8 }

/-- Prints a text to the side. -/
def note (text : String) : Job Unit :=
  modify fun p => { p with err := p.err ++ text }

/-- Fails. -/
def fail {α : Type} (f : Failure) : Job α :=
  throw (.refused f)

/-- Goes on with an answer, if there is one. -/
def orFail {ε α : Type} (explain : ε → Failure) : Answer ε α → Job α
  | .ok a => pure a
  | .error stop => throw (stop.mapReason explain)

/-- Goes on with a result, if there is one. -/
def accept {ε α : Type} (explain : ε → Failure) (result : Except ε α) : Job α :=
  orFail explain (Answer.ofExcept result)

end Job

/-- Where a command takes its input from. -/
inductive Source where
  | nothing
  | standard
  | file (path : String)
  deriving DecidableEq, Repr

/-- A document to be written, in the end. -/
structure Saving where
  path : String
  bytes : List UInt8

/-- A command with its settings and arguments. -/
structure Invocation where
  verb : Verb
  settings : Settings
  arguments : List String
  /-- The time of day on log lines. -/
  clock : String := "12:00AM"

namespace Invocation

/-- The arguments that name a file. -/
def paths (i : Invocation) : List String :=
  if i.verb = .run then
    if i.settings.truth "stdin" then [] else i.arguments.take 1
  else i.arguments

/-- What has to be read. -/
def source (i : Invocation) : Except Failure Source :=
  match i.verb with
  | .gen | .demo => .ok .nothing
  | _ =>
    match i.settings.truth "stdin", i.paths with
    | true, [] => .ok .standard
    | true, _ :: _ => .error .severalInputs
    | false, path :: _ => .ok (.file path)
    | false, [] => .error .noInput

/-- The routines in a document: those of a list, or a single one. -/
def load (bytes : List UInt8) : Job (List Routine) := do
  match Wire.decodeAll bytes with
  | .ok [] => Job.fail .noRoutines
  | .ok routines => return routines
  | .error .breakdown => throw .breakdown
  | .error (.refused _) => return [← Job.accept .wire (Wire.decode bytes)]

/-- Whether a name, or a key, is that of a routine. -/
def isNamed (name : String) (r : Routine) : Bool :=
  r.name = name || r.key = name

/-- The index of the routine that is named, the first one if there is no name. -/
def choose (name : String) (routines : List Routine) : Job Nat :=
  if name = "" then return 0
  else match routines.findIdx? (isNamed name) with
    | some index => return index
    | none => Job.fail (.notFound name)

/-- The routine at an index. -/
def routineAt (routines : List Routine) (index : Nat) : Job Routine :=
  Job.orFail id (Answer.require routines[index]?)

/-- What to write, if anything. A document for the output is printed right away. -/
def save (i : Invocation) (routines : List Routine) : Job (Option Saving) := do
  let path := i.settings.text "out"
  if path = "" then return none
  let bytes ← Job.accept .wire (Wire.encodeAll routines)
  if path = "-" then
    modify fun p => { p with out := p.out ++ ⟨bytes.toArray⟩ }
    return none
  return some ⟨path, bytes⟩

/-- The level of the log. -/
def logLevel (i : Invocation) : Job LogLevel :=
  Job.accept .logLevel (LogLevel.read (i.settings.text "log-level"))

/-- How routines are split. -/
def outline (i : Invocation) : Outline :=
  let suffix := i.settings.text "suffix"
  if suffix = "" then {} else { suffix := suffix }

/-- Logs the notes of a splitting and goes on with its result. -/
def logged (i : Invocation) (level : LogLevel)
    (result : Array Note × Answer OutlineError Parted) : Job Parted := do
  if level.showsJournal then
    Job.note (String.join (result.1.toList.map (Console.noteLine i.clock)))
  Job.orFail .outline result.2

/-- Prints the line about a routine; a routine without code is a failure. -/
def describeOrFail (label : String) (r : Routine) : Job Unit := do
  let (text, result) := describe label r
  Job.print text
  Job.orFail .assembly result

/-- Prints where a routine was split and what became of it. -/
def printParted (p : Parted) : Job Unit := do
  Job.print (labelled "split" p.cut.display)
  describeOrFail "trimmed" p.trimmed
  describeOrFail "extracted" p.extracted

/-- The sample routine asked for. -/
def sample (i : Invocation) : Job Routine :=
  match Sample.sum (i.settings.text "owner") (i.settings.number "terms") with
  | .ok r => return r
  | .error _ => throw .breakdown

/-! ### Values -/

/-- The text of a value. -/
def showValue (h : Heap) (v : Value) : Job String :=
  Job.orFail id (Answer.require (h.show? v))

/-- Reads the argument for a parameter. -/
def readArgument (index : Nat) (t : JType) (s : String) : Except Failure Value :=
  let bad (read : Except Text.NumberError Value) : Except Failure Value :=
    read.mapError (.badArgument index)
  match t with
  | .prim .boolean => bad ((Text.readBool s).map fun b => .scalar .bool (if b then 1 else 0))
  | .prim .byte | .prim .char | .prim .short | .prim .int =>
    bad ((Text.readInteger 32 s).map fun n => .int (Int32.ofInt n))
  | .prim .long => bad ((Text.readInteger 64 s).map fun n => .long (Int64.ofInt n))
  | .prim .float => bad ((Decimal.readSingle s).map .float)
  | .prim .double => bad ((Decimal.readDouble s).map .double)
  | t => if t = JType.string then .ok (.string s) else .error (.unsupportedArgument index t)

/-- Reads the arguments for parameters, counted from the given index on. -/
def readArguments : (index : Nat) → List JType → List String → Except Failure (List Value)
  | index, t :: params, s :: rest => do
    let v ← readArgument index t s
    return v :: (← readArguments (index + 1) params rest)
  | _, _, _ => .ok []

/-- More steps than any run takes. -/
def patience : Nat := 0x4000000000000000

/-- Calls a routine on a machine; gives what happened and the machine afterwards. -/
def call (m : Machine) (r : Routine) (args : List Value) :
    Machine × Array Event × Answer Failure Value :=
  let (m, events, ending) := Machine.invoke patience m r.owner r.name r.descriptor args
  (m, events, match ending with
    | some (.ok v) => .ok v
    | some (.error (.refused e)) => Answer.refuse (.machine e)
    | some (.error .breakdown) | none => Answer.refuse .machineBroken)

/-- What a routine without parameters returns on a machine that knows some routines, as text. -/
def resultOf (routines : List Routine) (r : Routine) : Job String := do
  let (m, _, result) := call (routines.foldl Machine.define {}) r []
  showValue m.heap (← Job.orFail id result)

/-- The way in which the steps of a run are traced. -/
def traceMode (mode : String) : Except Failure StepScope :=
  match mode with
  | "all" => .ok .all
  | "line" => .ok .onLine
  | "sampled" => .ok .sampled
  | "calls" => .ok .none
  | mode => .error (.traceMode mode)

/-- The observer that a trace needs, if there is to be one. -/
def tracer (i : Invocation) : Job (Option Observer) := do
  let mode := i.settings.text "trace"
  if mode = "" then return none
  let mode ← Job.accept id (traceMode mode)
  let _ ← i.logLevel
  let interval := i.settings.number "trace-interval"
  return some (if interval > 0 then { mode := mode, interval := interval } else { mode := mode })

/-- Logs an event. -/
def logEvent (i : Invocation) (e : Event) : Job Unit := do
  let shown ← match e with
    | .returned _ v h _ => showValue h v
    | _ => pure ""
  Job.note (Console.eventLine i.clock (fun _ _ => shown) e)

/-! ### The commands -/

/-- Makes a sample routine. -/
def performGen (i : Invocation) : Job (Option Saving) := do
  let r ← i.sample
  if i.settings.text "out" = "" then Job.fail .outRequired
  i.save [r]

/-- Splits a sample routine and compares the results. -/
def performDemo (i : Invocation) : Job (Option Saving) := do
  let r ← i.sample
  let (text, result) := describe "original" r
  Job.print text
  match result with
  | .ok () | .error (.refused (.tooLarge _ _)) => pure ()
  | .error stop => throw (stop.mapReason .assembly)
  let level ← i.logLevel
  let p ← i.logged level (i.outline.split r)
  printParted p
  let expected ← resultOf [r] r
  let found ← resultOf [p.trimmed, p.extracted] p.trimmed
  Job.print (labelled "result" ("original=" ++ expected ++ " split=" ++ found))
  if expected ≠ found then Job.fail (.differs found expected)
  i.save [p.trimmed, p.extracted]

/-- Splits within the bounds asked for, or within the usual ones. -/
def splitAsked (i : Invocation) (r : Routine) : Array Note × Answer OutlineError Parted :=
  let low := i.settings.number "min"
  let high := i.settings.number "max"
  if low = 0 ∧ high = 0 then i.outline.split r
  else
    let (usualLow, usualHigh, _) := Outline.usualBounds r.size
    let low := if low = 0 then usualLow else low
    let high := if high = 0 then usualHigh else high
    let first := i.settings.number "first-at-least"
    i.outline.splitWithin r low high (if first < 0 then high else first)

/-- Splits one routine of a document. -/
def performSplit (i : Invocation) (routines : List Routine) : Job (Option Saving) := do
  let index ← choose (i.settings.text "name") routines
  let r ← routineAt routines index
  let level ← i.logLevel
  let p ← i.logged level (i.splitAsked r)
  if i.settings.text "out" ≠ "-" then printParted p
  i.save (routines.take index ++ [p.trimmed, p.extracted] ++ routines.drop (index + 1))

/-- Prints listings of routines, with an empty line before each but the first. -/
def printListings : (first : Bool) → List Routine → Job Unit
  | _, [] => return ()
  | first, r :: rest => do
    if !first then Job.print "\n"
    Job.print (← Job.orFail .listing (Listing.render false r))
    printListings false rest

/-- Lists routines. -/
def performDis (i : Invocation) (routines : List Routine) : Job (Option Saving) := do
  let name := i.settings.text "name"
  let chosen := routines.filter fun r => name = "" || isNamed name r
  printListings true chosen
  if chosen.isEmpty then Job.fail (.notFound name)
  return none

/-- Calls a routine. -/
def performRun (i : Invocation) (routines : List Routine) : Job (Option Saving) := do
  let r ← routineAt routines (← choose (i.settings.text "name") routines)
  if !r.isStatic then Job.fail (.notStatic r.key)
  let texts := if i.settings.truth "stdin" then i.arguments else i.arguments.drop 1
  let params := r.signature.args
  if texts.length ≠ params.length then
    Job.fail (.argumentCount r.key params.length texts.length)
  let args ← Job.accept id (readArguments 0 params texts)
  let observer ← i.tracer
  let world : World := { maxDepth := i.settings.number "max-depth", observer := observer }
  let (m, events, result) := call (routines.foldl Machine.define { world := world }) r args
  events.forM i.logEvent
  let v ← Job.orFail id result
  if r.signature.result ≠ .void then Job.print ((← showValue m.heap v) ++ "\n")
  return none

/-- **Does the work of a command** on the document that was read. -/
def perform (i : Invocation) (input : Except FileError (List UInt8)) : Job (Option Saving) := do
  match i.verb with
  | .gen => i.performGen
  | .demo => i.performDemo
  | verb =>
    let routines ← load (← Job.accept .file input)
    match verb with
    | .split => i.performSplit routines
    | .dis => i.performDis routines
    | _ => i.performRun routines

end Invocation

/-! ### Command lines -/

/-- What a command line leads to. -/
inductive Plan where
  | invoke (i : Invocation) (source : Source)
  /-- Only something to read, line by line, with something to the side. -/
  | explain (lines : List String) (asides : List String)

/-- Whether a flag is set on a command line. -/
def Arguments.isOn (a : Arguments) (name : String) : Bool :=
  a.given.lookup name = some "true"

/-- The text that lines make up. -/
def Plan.textOf (lines : List String) : String :=
  String.join (lines.map (· ++ "\n"))

/-- Checks the number of arguments of a command. -/
def Verb.checkArguments (v : Verb) (arguments : List String) : Except Failure Unit :=
  match v.argumentLimit, arguments with
  | some 0, word :: _ => .error (.unknownCommand word (programName ++ " " ++ v.name) [])
  | some (limit + 1), arguments =>
    if limit + 1 < arguments.length then .error (.tooManyArguments (limit + 1) arguments.length)
    else .ok ()
  | _, _ => .ok ()

/-- Answers what may stand in place of the last argument. Whether the explanations are given can
also be set in the environment. -/
def planCompletion (environment : List (String × String)) (describe : Bool)
    (arguments : List String) : Except Failure Plan :=
  match arguments.getLast? with
  | none => .error .noArguments
  | some last =>
    let wanted := (environment.lookup (environmentName "completion-descriptions")).getD ""
    let describe := describe && (Text.readBool wanted).toOption.getD true
    let c := Completion.find arguments.dropLast last
    .ok (.explain (c.lines describe) c.asides)

/-- **Reads a command line.** -/
def plan (environment : List (String × String)) (arguments : List String) :
    Except Failure Plan := do
  match findCommand arguments with
  | .error word => .error (.unknownCommand word programName (suggestions word))
  | .ok (.complete describe arguments) => planCompletion environment describe arguments
  | .ok request =>
    let a ← (Arguments.read request.flags request.arguments {}).mapError .flag
    match request with
    | .command verb _ =>
      if a.isOn "help" then return .explain (Topic.command verb).lines []
      verb.checkArguments a.rest
      let settings : Settings := ⟨verb.flags, a.given, environment⟩
      let i : Invocation := { verb := verb, settings := settings, arguments := a.rest }
      return .invoke i (← i.source)
    | .help _ =>
      return .explain (if a.isOn "help" then Topic.help.lines else Topic.linesFor a.rest) []
    | _ =>
      return .explain (if a.isOn "version" && !a.isOn "help" then Topic.versionLines
        else Topic.program.lines) []

/-! ### Sessions -/

/-- What commands run in. -/
structure Session where
  files : Files := .surroundings
  environment : List (String × String) := []
  input : List UInt8 := []

/-- What came of a command line. -/
structure Report where
  printed : Printed := {}
  outcome : Answer Failure Unit := .ok ()

namespace Session

/-- The document a command reads. -/
def fetch (s : Session) : Source → Except FileError (List UInt8)
  | .nothing => .ok []
  | .standard => .ok s.input
  | .file path => s.files.read path

/-- **Runs a command line.** -/
def run (s : Session) (arguments : List String) : Report × Session :=
  match plan s.environment arguments with
  | .error f => ({ outcome := Answer.refuse f }, s)
  | .ok (.explain lines asides) =>
    ({ printed := { out := (Plan.textOf lines).toUTF8, err := Plan.textOf asides } }, s)
  | .ok (.invoke i source) =>
    match i.perform (s.fetch source) {} with
    | (.error stop, printed) => (⟨printed, .error stop⟩, s)
    | (.ok none, printed) => (⟨printed, .ok ()⟩, s)
    | (.ok (some saving), printed) =>
      match s.files.write saving.path saving.bytes with
      | .ok files => (⟨printed, .ok ()⟩, { s with files := files })
      | .error e => (⟨printed, Answer.refuse (.file e)⟩, s)

end Session

end Outliner
