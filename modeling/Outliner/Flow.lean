import Outliner.Routine
import Outliner.Text.Collected
import Outliner.Tracker

/-!
# Data flow

`Flow.analyze` finds the frame before every instruction of a routine. It starts with the receiver
and the arguments in their slots, follows every path control can take, and merges what the paths
bring together until nothing changes.

An instruction that fails is reported once and is not followed any further. Control that enters a
handler brings the frames before and after each instruction the handler protects, with the stack
replaced by what was caught.

The pass takes a number of steps as an argument, because a hierarchy is any function and merging
under an inconsistent one need not come to rest.
-/

namespace Outliner

/-- Why a routine has no data flow. -/
inductive FlowError where
  /-- The instructions that fail, one error each, in the order in which they were found. -/
  | faults (errors : List TrackError)
  /-- The frames did not come to rest in the number of steps allowed. -/
  | restless
  deriving Repr

namespace FlowError

/-- The wording of a refusal. -/
def message : FlowError → String
  | faults errors => Text.collected (errors.map TrackError.message)
  | restless => "analysis does not come to rest"

end FlowError

/-- The frame before every instruction a path reaches, and what the instruction does to it. -/
structure Flow where
  routine : Routine
  frames : Array (Option Frame)
  effects : Array Effect
  deriving Inhabited

namespace Flow

/-- Puts arguments into consecutive slots from `index` on. -/
def setArguments (f : Frame) (index : Nat) : List JType → Frame
  | [] => f
  | t :: rest => setArguments (f.setSlot index t.computational) (index + t.size) rest

/-- The type of the receiver on entry: inside a constructor it is not yet initialized. -/
def receiver (r : Routine) : JType :=
  if r.name = "<init>" then .uninitialized r.owner (-1) else .ofClassName r.owner

/-- The frame on entry to a routine: an empty stack, with the receiver and the arguments in their
slots. -/
def entry (r : Routine) : Frame :=
  if r.isStatic then setArguments .empty 0 r.signature.args
  else setArguments (Frame.empty.setSlot 0 (receiver r)) 1 r.signature.args

/-- The frame in which a handler starts when control leaves from `f`. -/
def caught (region : Region) (f : Frame) : Frame :=
  f.clear.push (if region.type.isEmpty then .throwable else .ofClassName region.type)

/-- A pass under way. -/
structure Pass where
  frames : Array (Option Frame)
  effects : Array Effect
  failed : Array Bool
  queued : Array Bool
  /-- The offsets to visit, the next one first. -/
  work : List Nat
  /-- The errors found so far, the latest first. -/
  errors : List TrackError

namespace Pass

/-- The pass over `n` instructions before anything is known. -/
def start (n : Nat) : Pass where
  frames := Array.replicate n none
  effects := Array.replicate n {}
  failed := Array.replicate n false
  queued := Array.replicate n false
  work := []
  errors := []

/-- The frame known at an offset. -/
def frame? (p : Pass) (offset : Nat) : Option Frame :=
  p.frames[offset]?.join

/-- Whether the instruction at an offset has failed. -/
def hasFailed (p : Pass) (offset : Nat) : Bool :=
  p.failed.getD offset false

/-- Notes that the instruction at an offset fails; the first error is the one that counts. -/
def fail (p : Pass) (offset : Nat) (e : TrackError) : Pass :=
  if p.hasFailed offset then p
  else { p with failed := p.failed.setIfInBounds offset true, errors := e :: p.errors }

/-- Puts an offset in line, ahead of the others, unless it already waits. -/
def enqueue (p : Pass) (offset : Nat) : Pass :=
  if p.queued.getD offset false then p
  else { p with queued := p.queued.setIfInBounds offset true, work := offset :: p.work }

/-- Control arrives at an offset with frame `f`. -/
def arrive (r : Routine) (h : Hierarchy) (offset : Nat) (f : Frame) (p : Pass) : Pass :=
  if p.hasFailed offset then p
  else match p.frame? offset with
    | none => { p with frames := p.frames.setIfInBounds offset (some f) }.enqueue offset
    | some known =>
      match known.merge h f with
      | .error m =>
        p.fail offset ⟨offset, (r.code.getD offset .frame).opcode, .depthMismatch m⟩
      | .ok (merged, true) =>
        { p with frames := p.frames.setIfInBounds offset (some merged) }.enqueue offset
      | .ok (_, false) => p

/-- Control arrives at an offset with the frame known at another one. -/
def arriveFrom (r : Routine) (h : Hierarchy) (source offset : Nat) (change : Frame → Frame)
    (p : Pass) : Pass :=
  match p.frame? source with
  | some f => p.arrive r h offset (change f)
  | none => p

/-- Control leaves the instruction at `offset` for the handlers that protect it. -/
def enterHandlers (r : Routine) (h : Hierarchy) (offset : Nat) (after : Frame) (p : Pass) : Pass :=
  (r.regions.filter (·.contains offset)).foldl (fun p region =>
    (p.arriveFrom r h offset region.handler (caught region)).arrive r h region.handler
      (caught region after)) p

/-- Control leaves an instruction for its targets, and, when it calls a subroutine, for the
instruction after it with the frame it had before. -/
def enterTargets (r : Routine) (h : Hierarchy) (offset : Nat) (insn : Instruction) (after : Frame)
    (p : Pass) : Pass :=
  let p := (r.targetOffsets insn).foldl (fun p target => p.arrive r h target after) p
  if insn.opcode.isSubroutineCall && offset + 1 < r.size then
    p.arriveFrom r h offset (offset + 1) id
  else p

/-- **Visits one instruction**: applies it to the frame known before it and brings the outcome to
everything that can come next. -/
def visit (r : Routine) (h : Hierarchy) (offset : Nat) (p : Pass) : Answer FlowError Pass := do
  let insn ← Answer.require r.code[offset]?
  let before ← Answer.require (p.frame? offset)
  match Tracker.execute r.owner before insn offset with
  | (_, .error .breakdown) => Answer.breakdown
  | (_, .error (.refused e)) => return p.fail offset e
  | (after, .ok effect) =>
    let p := { p with effects := p.effects.setIfInBounds offset effect }
    let p := if insn.isMarker then p else p.enterHandlers r h offset after
    if insn.fallsThrough then
      if offset + 1 < r.size then
        return (p.arrive r h (offset + 1) after).enterTargets r h offset insn after
      else return p.fail offset ⟨offset, insn.opcode, .fallsOff⟩
    else return p.enterTargets r h offset insn after

/-- Visits what waits in line, at most `fuel` times. -/
def run (r : Routine) (h : Hierarchy) : (fuel : Nat) → Pass → Answer FlowError Pass
  | fuel, p =>
    match p.work with
    | [] => .ok p
    | offset :: rest =>
      match fuel with
      | 0 => Answer.refuse .restless
      | fuel + 1 =>
        let p := { p with work := rest, queued := p.queued.setIfInBounds offset false }
        if p.hasFailed offset then run r h fuel p
        else match p.visit r h offset with
          | .ok p => run r h fuel p
          | .error stop => .error stop

end Pass

/-- **The data flow of a routine** under a hierarchy, found in at most `fuel` visits. -/
def analyzeWithin (fuel : Nat) (h : Hierarchy) (r : Routine) : Answer FlowError Flow := do
  let start := Pass.start r.size
  let p ← Pass.run r h fuel
    (if r.size = 0 then start else start.arrive r h 0 (entry r))
  if p.errors.isEmpty then return ⟨r, p.frames, p.effects⟩
  else Answer.refuse (.faults p.errors.reverse)

/-- The number of visits after which a pass over a routine is given up. With a consistent hierarchy
no pass comes near it. -/
def patience (r : Routine) : Nat :=
  let n := r.size + r.signature.args.length + 1
  0x4000000000000000 + 64 * (n * n)

/-- The data flow of a routine under a hierarchy. -/
def analyze (h : Hierarchy) (r : Routine) : Answer FlowError Flow :=
  analyzeWithin (patience r) h r

/-- The frame before the instruction at an offset; `none` inside when no path reaches it, and
outside when there is no such instruction. -/
def frame? (flow : Flow) (offset : Int) : Option (Option Frame) :=
  if 0 ≤ offset then flow.frames[offset.toNat]? else none

/-- What the instruction at an offset does to the frame before it. -/
def effect (flow : Flow) (offset : Nat) : Effect :=
  flow.effects.getD offset {}

/-- Whether a path reaches the instruction at an offset. -/
def reachable (flow : Flow) (offset : Nat) : Bool :=
  (flow.frames[offset]?.join).isSome

/-- The frame after the instruction at an offset. -/
def frameAfter (flow : Flow) (offset : Int) : Answer TrackError Frame := do
  let insn ← Answer.require flow.routine.code[offset.toNat]?
  match ← Answer.require (flow.frame? offset) with
  | none => Answer.refuse ⟨offset, insn.opcode, .unreachable⟩
  | some f =>
    match Tracker.execute flow.routine.owner f insn offset with
    | (after, .ok _) => return after
    | (_, .error stop) => .error stop

end Flow

end Outliner
