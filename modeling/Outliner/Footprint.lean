import Outliner.Flow

/-!
# The footprint of a range

What flows into and out of a run of consecutive instructions: the values it takes off the stack that
was there before it, the values it leaves in their place, and the local slots it reads and writes.
-/

namespace Outliner

/-- The data flowing into and out of the instructions from `start` to `stop`, both included. -/
structure Footprint where
  start : Int
  stop : Int
  /-- The frame before the first instruction. -/
  startFrame : Frame
  /-- The frame after the last instruction. -/
  exitFrame : Frame
  /-- The lowest depth any instruction of the range pops down to. -/
  minDepth : Nat
  /-- The values between `minDepth` and the starting depth, bottom first. -/
  consumed : List JType
  /-- The values above `minDepth` after the range, bottom first. -/
  produced : List JType
  /-- Each slot read, with its type before the range. -/
  read : SlotMap JType
  /-- Each slot written, with its type after the range. -/
  written : SlotMap JType
  /-- Each slot touched, with the size of the widest value read or written through it. -/
  widths : SlotMap Nat
  /-- Whether the range contains a jump or a switch. -/
  branches : Bool
  deriving Repr

namespace Footprint

/-- The stack depth before the range. -/
def startDepth (f : Footprint) : Nat := f.startFrame.depth

/-- What has been seen of a range so far. -/
structure Tally where
  minDepth : Nat
  read : SlotMap JType := .empty
  written : SlotMap JType := .empty
  widths : SlotMap Nat := .empty
  branches : Bool := false

namespace Tally

/-- Notes the width of an access. -/
def widen (t : Tally) (a : SlotAccess) : Tally :=
  if (t.widths.get? a.slot).getD 0 < a.size then { t with widths := t.widths.insert a.slot a.size }
  else t

/-- Notes a read of a slot that has type `type` before the range. -/
def noteRead (startFrame : Frame) (t : Tally) (a : SlotAccess) : Tally :=
  let t := t.widen a
  { t with read := t.read.insert a.slot (startFrame.slot a.slot) }

/-- Notes a write of a slot, which has its final type after the range. -/
def noteWrite (exitFrame : Frame) (t : Tally) (a : SlotAccess) : Tally :=
  let t := t.widen a
  { t with written := t.written.insert a.slot (exitFrame.slot a.slot) }

/-- Notes what the instruction at an offset does; nothing but its targets if no path reaches it. -/
def note (flow : Flow) (startFrame exitFrame : Frame) (t : Tally) (offset : Nat) : Tally :=
  let jumps := match flow.routine.code[offset]? with
    | some insn => !insn.targets.isEmpty
    | none => false
  let t := { t with branches := t.branches || jumps }
  match flow.frames[offset]?.join with
  | none => t
  | some f =>
    let effect := flow.effect offset
    let t := { t with minDepth := min t.minDepth (f.depth - effect.pops) }
    effect.writes.foldl (noteWrite exitFrame) (effect.reads.foldl (noteRead startFrame) t)

end Tally

/-- The depth at which to cut the stack so that no wide value is split: `depth` itself, or one less
when the cell there is the second half of a wide value. -/
def wholeDepth (f : Frame) (depth : Nat) : Nat :=
  if 0 < depth && depth < f.depth then
    match f.cell? depth, f.cell? (depth - 1 : Nat) with
    | some .top, some t => if t.size = 2 then depth - 1 else depth
    | _, _ => depth
  else depth

/-- The offsets from `start` to `stop`, both included. -/
def offsets (start stop : Int) : List Nat :=
  List.range' start.toNat (stop + 1 - start).toNat

end Footprint

namespace Flow

/-- **The footprint of a range.** Paths have to reach both of its ends. -/
def footprint (flow : Flow) (start stop : Int) : Answer TrackError Footprint := do
  match ← Answer.require (flow.frame? start) with
  | none =>
    let insn ← Answer.require flow.routine.code[start.toNat]?
    Answer.refuse ⟨start, insn.opcode, .unreachable⟩
  | some startFrame =>
    let exitFrame ← flow.frameAfter stop
    let tally := (Footprint.offsets start stop).foldl
      (Footprint.Tally.note flow startFrame exitFrame) { minDepth := startFrame.depth }
    let depth := Footprint.wholeDepth startFrame tally.minDepth
    let consumed ← Answer.require (startFrame.cells? depth)
    let produced ← Answer.require (exitFrame.cells? depth)
    return {
      start := start
      stop := stop
      startFrame := startFrame
      exitFrame := exitFrame
      minDepth := depth
      consumed := Frame.collapse consumed
      produced := Frame.collapse produced
      read := tally.read
      written := tally.written
      widths := tally.widths
      branches := tally.branches }

end Flow

end Outliner
