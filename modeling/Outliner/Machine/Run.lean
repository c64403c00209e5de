import Outliner.Machine.Native
import Outliner.Machine.Observer
import Outliner.Machine.Perform

/-!
# Runs

A run is a stack of activations over a heap. `Run.step` carries it one instruction further and
`Run.run` to its end, if that comes within a given number of steps. A `Machine` keeps the heap and
the static fields from one call to the next.

An exception goes up through the activations until one of them has a handler for it. Everything else
that goes wrong ends the run.
-/

namespace Outliner

/-- What stays the same during a run. -/
structure World where
  /-- Routines by key; the first entry for a key counts. -/
  routines : List (String × Routine) := []
  /-- Built-in methods by key; the first entry for a key counts. -/
  natives : List (String × Native) := Native.builtin
  classes : Classes := Classes.builtin
  /-- How deep calls may nest. -/
  maxDepth : Int := 1024
  /-- After how many instructions a run looks whether it has been cancelled; zero for never. -/
  pollInterval : Int := 1000
  /-- Whether the run has been cancelled. -/
  cancelled : Bool := false
  observer : Option Observer := none

/-- A method found by its key. -/
inductive Method where
  | routine (r : Routine)
  | native (n : Native)

namespace World

/-- The method with a key; a routine goes before a built-in method. -/
def method? (w : World) (key : String) : Option Method :=
  match w.routines.lookup key with
  | some r => some (.routine r)
  | none => (w.natives.lookup key).map .native

/-- The method a class has or inherits. -/
def resolve (w : World) (className name descriptor : String) : Option Method :=
  (w.classes.lineage (if className.isEmpty then none else some className)).findSome?
    fun c => w.method? (qualifiedName c name descriptor)

/-- The method a call reaches. -/
def resolveCall (w : World) (h : Heap) (c : Call) : Option Method :=
  let start := match c.dispatched, c.args with
    | true, receiver :: _ => if receiver = .null then c.owner else h.classNameOf receiver
    | _, _ => c.owner
  match w.resolve start c.name c.descriptor with
  | some m => some m
  | none => w.resolve c.owner c.name c.descriptor

/-- The handler of an activation for an exception of the given class raised at an offset. -/
def handler? (w : World) (r : Routine) (offset : Nat) (className : String) : Option Nat :=
  (r.regions.find? fun region =>
    region.contains offset &&
      (region.type.isEmpty || w.classes.isInstance className region.type)).map Region.handler

end World

/-- A run under way. -/
structure Run where
  heap : Heap
  statics : List (String × Value)
  /-- The activations, the running one first. -/
  frames : List Activation
  /-- Instructions since the last look at the cancellation. -/
  polls : Nat := 0
  /-- Instructions since the last sample. -/
  samples : Nat := 0
  /-- The number of events so far, in earlier runs of the machine too. -/
  eventCount : Nat := 0
  /-- The events of this run. -/
  events : Array Event := #[]
  deriving Inhabited

/-- The result of a run. -/
abbrev Ending := Answer MachineError Value

/-- How a call goes on. -/
inductive Entry where
  /-- A routine has been entered. -/
  | started
  /-- A built-in method is done. -/
  | finished (v : Value)
  | raised (exception : Addr)
  | failed (cause : Cause)
  | breakdown

namespace Run

/-- The run is over. -/
def ends (s : Run) (ending : Ending) : Run × Option Ending :=
  ({ s with frames := [] }, some ending)

/-- The run goes on. -/
def goesOn (s : Run) : Run × Option Ending := (s, none)

/-- A call fails: at the place of the calling instruction, if there is one. -/
def failHere (s : Run) (cause : Cause) : Run × Option Ending :=
  match s.frames with
  | [] => s.ends (Answer.refuse (.refused cause))
  | f :: _ => s.ends (Answer.refuse (.fault f.place cause))

/-- Drops activations until one has a handler for the exception. -/
def unwind (w : World) (className : String) (exception : Addr) :
    List Activation → Option (List Activation)
  | [] => none
  | f :: rest =>
    match w.handler? f.routine (f.ip - 1) className with
    | some handler => some ({ f with stack := [.ref exception], ip := handler } :: rest)
    | none => unwind w className exception rest

/-- The text kept in the message of an exception, empty if there is none. -/
def noteOf (h : Heap) (exception : Addr) : String :=
  match h.get? exception with
  | some (.object _ fields) =>
    match Heap.lookupField "message" fields with
    | some (.string s) => s
    | _ => ""
  | _ => ""

/-- Raises an exception. The place it is reported at is that of the instruction that raised it. -/
def raise (w : World) (exception : Addr) (s : Run) : Run × Option Ending :=
  let className := s.heap.classNameOf (.ref exception)
  match unwind w className exception s.frames with
  | some frames => ({ s with frames := frames }, none)
  | none =>
    let place := match s.frames with
      | f :: _ => f.place
      | [] => .nowhere
    s.ends (Answer.refuse (.uncaught place exception className (noteOf s.heap exception)))

/-- Tells the observer of an event; `false` if it wants to stop. -/
def tell (o : Observer) (e : Event) (s : Run) : Run × Bool :=
  let count := s.eventCount + 1
  ({ s with eventCount := count, events := s.events.push e }, o.proceed count e)

/-- Tells the observer of a call. -/
def tellCall (w : World) (routine : String) (argCount : Nat) (native : Bool) (s : Run) :
    Run × Bool :=
  match w.observer with
  | some o =>
    if o.calls then s.tell o (.call routine argCount native (s.frames.length + 1)) else (s, true)
  | none => (s, true)

/-- Tells the observer of a return, once the method is no longer active. -/
def tellReturn (w : World) (routine : String) (v : Value) (s : Run) : Run × Bool :=
  match w.observer with
  | some o =>
    if o.returns then s.tell o (.returned routine v s.heap s.frames.length) else (s, true)
  | none => (s, true)

/-- Runs a built-in method. -/
def callNative (w : World) (n : Native) (key : String) (args : List Value) (s : Run) :
    Run × Entry :=
  match n s.heap args with
  | (heap, result) =>
    let s := { s with heap := heap }
    match result with
    | .value v =>
      match s.tellReturn w key v with
      | (s, true) => (s, .finished v)
      | (s, false) => (s, .failed .halted)
    | .throws className message =>
      let (heap, exception) := s.heap.allocThrowable className message
      ({ s with heap := heap }, .raised exception)
    | .fails text => (s, .failed (.native text))
    | .reenters => (s, .failed .alreadyRunning)
    | .breakdown => (s, .breakdown)

/-- **Calls a method.** -/
def enter (w : World) (c : Call) (s : Run) : Run × Entry :=
  let key := qualifiedName c.owner c.name c.descriptor
  match w.resolveCall s.heap c with
  | none => (s, .failed (.unknownMethod key))
  | some m =>
    if w.maxDepth < s.frames.length + 1 then (s, .failed .stackOverflow)
    else match m with
      | .native n =>
        match s.tellCall w key c.args.length true with
        | (s, false) => (s, .failed .halted)
        | (s, true) => s.callNative w n key c.args
      | .routine r =>
        match s.tellCall w r.key c.args.length false with
        | (s, false) => (s, .failed .halted)
        | (s, true) =>
          match Activation.enter r c.args c.wantsResult with
          | none => (s, .breakdown)
          | some f => ({ s with frames := f :: s.frames }, .started)

/-- The running activation gets the result of a call. -/
def deliver (v : Value) (wanted : Bool) (s : Run) : Run :=
  match s.frames with
  | f :: rest => if wanted then { s with frames := f.pushValue v :: rest } else s
  | [] => s

/-- The running activation calls a method. -/
def call (w : World) (c : Call) (s : Run) : Run × Option Ending :=
  match s.enter w c with
  | (s, .started) => s.goesOn
  | (s, .finished v) => (s.deliver v c.wantsResult).goesOn
  | (s, .raised exception) => s.raise w exception
  | (s, .failed cause) => s.failHere cause
  | (s, .breakdown) => s.ends Answer.breakdown

/-- The running activation `f` returns a value to those below it. -/
def leave (w : World) (f : Activation) (v : Value) (s : Run) : Run × Option Ending :=
  match s.tellReturn w f.routine.key v with
  | (s, false) => s.failHere .halted
  | (s, true) =>
    match s.frames with
    | [] => s.ends (.ok v)
    | _ :: _ => (s.deliver v f.wantsResult).goesOn

/-- Looks whether the run has been cancelled, from time to time. -/
def poll (w : World) (s : Run) : Run × Bool :=
  if 0 < w.pollInterval && w.cancelled then
    if w.pollInterval ≤ s.polls + 1 then ({ s with polls := 0 }, false)
    else ({ s with polls := s.polls + 1 }, true)
  else (s, true)

/-- Tells the observer of a step of activation `f`; gives the activation back. -/
def tellStep (o : Observer) (f : Activation) (op : Opcode) (s : Run) : Run × Activation × Bool :=
  let fire (s : Run) : Run × Activation × Bool :=
    let (s, proceed) :=
      s.tell o (.step f.routine.key f.ip op f.line f.stack.length s.frames.length)
    (s, { f with freshLine := false }, proceed)
  match o.mode with
  | .all => fire s
  | .none => (s, f, true)
  | .sampled =>
    if s.samples + 1 < o.sampleInterval then ({ s with samples := s.samples + 1 }, f, true)
    else fire { s with samples := 0 }
  | .onLine => if f.freshLine then fire s else (s, f, true)

/-- Executes the instruction that activation `f`, with `rest` below it, has come to. -/
def execute (w : World) (insn : Instruction) (f : Activation) (rest : List Activation) (s : Run) :
    Run × Option Ending :=
  let start : Workplace := ⟨f, s.heap, s.statics⟩
  -- The run lets go of the heap, so that the instruction can change it in place.
  let s := { s with heap := .empty, statics := [], frames := [] }
  match (Exec.perform w.classes insn).run start with
  | .ok progress p =>
    let s := { s with heap := p.heap, statics := p.statics, frames := p.frame :: rest }
    match progress with
    | .next => s.goesOn
    | .leave v => { s with frames := rest }.leave w p.frame v
    | .call c => s.call w c
  | .error halt p =>
    let s := { s with heap := p.heap, statics := p.statics, frames := p.frame :: rest }
    match halt with
    | .raised exception => s.raise w exception
    | .failed cause => s.failHere cause
    | .underflow => s.ends (Answer.refuse (.underflow p.frame.routine.key p.frame.ip))
    | .breakdown => s.ends Answer.breakdown

/-- Comes to an instruction: looks at the cancellation, tells the observer, and executes it. -/
def advance (w : World) (insn : Instruction) (f : Activation) (rest : List Activation) (s : Run) :
    Run × Option Ending :=
  let fault (s : Run) (cause : Cause) : Run × Option Ending :=
    s.ends (Answer.refuse (.fault ⟨f.routine.key, f.ip, insn.opcode⟩ cause))
  match s.poll w with
  | (s, false) => fault s .cancelled
  | (s, true) =>
    match w.observer with
    | none => s.execute w insn f rest
    | some o =>
      match s.tellStep o f insn.opcode with
      | (s, _, false) => fault s .halted
      | (s, f, true) => s.execute w insn f rest

/-- **One step of a run.** Markers are passed over. -/
def step (w : World) (s : Run) : Run × Option Ending :=
  match s.frames with
  | [] => s.ends Answer.breakdown
  | f :: rest =>
    match f.routine.code[f.ip]? with
    | none => s.ends (Answer.refuse (.fault ⟨f.routine.key, f.ip, .marker⟩ .fellOff))
    | some (.line n) =>
      { s with frames := { f with line := n, freshLine := true, ip := f.ip + 1 } :: rest }.goesOn
    | some insn =>
      if insn.isMarker then { s with frames := { f with ip := f.ip + 1 } :: rest }.goesOn
      else s.advance w insn f rest

/-- Goes on for at most `fuel` steps; no ending if the run is not over by then. -/
def run (w : World) : (fuel : Nat) → Run → Run × Option Ending
  | 0, s => (s, none)
  | fuel + 1, s =>
    match s.step w with
    | (s, none) => run w fuel s
    | (s, some ending) => (s, some ending)

end Run

/-- A machine: what stays the same during a run, and what is left from the runs before. -/
structure Machine where
  world : World := {}
  heap : Heap := .empty
  statics : List (String × Value) := []
  eventCount : Nat := 0

namespace Machine

/-- Makes a routine available. It takes the place of an earlier one with the same key. -/
def define (m : Machine) (r : Routine) : Machine :=
  { m with world := { m.world with routines := (r.key, r) :: m.world.routines } }

/-- The value of a static field that has been set. -/
def static? (m : Machine) (owner name : String) : Option Value :=
  Heap.lookupField (owner ++ "." ++ name) m.statics

/-- Whether the first of the arguments of a call from outside is a receiver. -/
def takesReceiver (w : World) (key : String) (params args : Nat) : Bool :=
  match w.routines.lookup key with
  | some r => !r.isStatic
  | none => args = params + 1

/-- Converts arguments to the forms of the parameters. -/
def coerceAll (h : Heap) : List JType → List Value → Except CoerceError (List Value)
  | t :: params, v :: args => do
    let v ← h.coerce t v
    return v :: (← coerceAll h params args)
  | _, _ => .ok []

/-- The arguments of a call from outside in the form in which the method gets them. -/
def prepare (m : Machine) (owner name descriptor : String) (args : List Value) :
    Except Cause (List Value) :=
  match Signature.parse descriptor with
  | .error e => .error (.descriptor e)
  | .ok signature =>
    let key := qualifiedName owner name descriptor
    let params := signature.args.length
    let receiver := if takesReceiver m.world key params args.length then 1 else 0
    if args.length ≠ params + receiver then
      .error (.argumentCount key (params + receiver) args.length)
    else match coerceAll m.heap signature.args (args.drop receiver) with
      | .error e => .error (.coerce e)
      | .ok values => .ok (args.take receiver ++ values)

/-- The first part of a call from outside: the method is entered, or the call is already over. -/
def begin (w : World) (c : Call) (s : Run) : Run × Option Ending :=
  match s.enter w c with
  | (s, .started) => (s, none)
  | (s, .finished v) => s.ends (.ok v)
  | (s, .raised exception) => s.raise w exception
  | (s, .failed cause) => s.failHere cause
  | (s, .breakdown) => s.ends Answer.breakdown

/-- What a machine keeps of a run. -/
def keep (m : Machine) (s : Run) : Machine :=
  { m with heap := s.heap, statics := s.statics, eventCount := s.eventCount }

/-- **Calls a method from outside.** Gives the machine afterwards, the events on the way, and the
ending, unless the run takes more than `fuel` steps. -/
def invoke (fuel : Nat) (m : Machine) (owner name descriptor : String) (args : List Value) :
    Machine × Array Event × Option Ending :=
  match m.prepare owner name descriptor args with
  | .error cause => (m, #[], some (Answer.refuse (.refused cause)))
  | .ok args =>
    let start : Run :=
      { heap := m.heap, statics := m.statics, frames := [], eventCount := m.eventCount }
    let c : Call := {
      owner := owner
      name := name
      descriptor := descriptor
      args := args
      dispatched := false
      wantsResult := true }
    match begin m.world c start with
    | (s, some ending) => (m.keep s, s.events, some ending)
    | (s, none) =>
      let (s, ending) := s.run m.world fuel
      (m.keep s, s.events, ending)

end Machine

end Outliner
