import Outliner.Routine

/-!
# How far a range may reach

A run of consecutive instructions can be moved into a routine of its own only if control enters it
at its first instruction and leaves it after its last one. `Boundary.fit` finds the farthest end of
such a range for a given start. It shortens the range for one reason after the other until no reason
is left:

* a handler lies in it, or it reaches over the edge of a protected block;
* an instruction in it returns or jumps out;
* an instruction outside jumps into it;
* its last instruction does not go on to the next one.
-/

namespace Outliner

/-- An instruction that can send control somewhere other than to the next instruction. -/
structure Exit where
  offset : Nat
  /-- The offsets it can jump to; `none` when it leaves the routine or enters a subroutine. -/
  targets : Option (List Nat)
  deriving DecidableEq, Repr

namespace Exit

/-- Whether control stays between `start` and `stop`. -/
def staysWithin (e : Exit) (start stop : Int) : Bool :=
  match e.targets with
  | none => false
  | some targets => targets.all fun (t : Nat) => start ≤ t && t ≤ stop

end Exit

/-- A jump from one instruction to another. -/
structure Edge where
  source : Nat
  target : Nat
  deriving DecidableEq, Repr

/-- What limits the ranges of a routine. -/
structure Boundary where
  code : Array Instruction
  /-- The protected blocks that are not empty. -/
  regions : List Region
  /-- The exits in ascending order of offset. -/
  exits : List Exit
  edges : List Edge

namespace Region

/-- Whether the block covers no instruction. -/
def isEmpty (r : Region) : Bool :=
  r.stop ≤ r.start

end Region

namespace Boundary

/-- The exit an instruction is, if it is one. -/
def exitAt (r : Routine) (offset : Nat) (insn : Instruction) : Option Exit :=
  if insn.isMarker then none
  else if insn.opcode.isBranch then
    match insn.opcode.flow with
    | .subroutine => some ⟨offset, none⟩
    | _ => some ⟨offset, some (r.targetOffsets insn)⟩
  else match insn.opcode.flow with
    | .leave | .subroutine => some ⟨offset, none⟩
    | _ => none

/-- The jumps an instruction makes. -/
def edgesAt (r : Routine) (offset : Nat) (insn : Instruction) : List Edge :=
  if !insn.isMarker && insn.opcode.isBranch then
    (r.targetOffsets insn).map fun t => ⟨offset, t⟩
  else []

/-- What limits the ranges of a routine. -/
def ofRoutine (r : Routine) : Boundary :=
  let places := r.code.toList.zipIdx
  { code := r.code
    regions := r.regions.filter (!·.isEmpty)
    exits := places.filterMap fun p => exitAt r p.2 p.1
    edges := places.flatMap fun p => edgesAt r p.2 p.1 }

/-- Keeps handlers out of the range, keeps the range inside every block that contains its start, and
keeps the start of every other block out of it. -/
def respectRegions (b : Boundary) (start stop : Int) : Int :=
  b.regions.foldl (fun stop region =>
    let stop := if start ≤ region.handler then min stop (region.handler - 1) else stop
    if region.start ≤ start && start < region.stop then min stop (region.stop - 1)
    else if start < region.start then min stop (region.start - 1)
    else stop) stop

/-- Ends the range before the first instruction that can send control out of it. -/
def containExits (b : Boundary) (start stop : Int) : Int :=
  match b.exits.find? fun e =>
    start ≤ e.offset && e.offset ≤ stop && !e.staysWithin start stop with
  | some e => e.offset - 1
  | none => stop

/-- Ends the range before the first instruction that can be jumped to from outside. -/
def stopAtEntries (b : Boundary) (start stop : Int) : Int :=
  (b.edges.filter fun e =>
    start ≤ e.target && e.target ≤ stop && (e.source < start || stop < e.source)).foldl
    (fun last e => min last (e.target - 1)) stop

/-- The last of the `count` offsets from `start` on at which control goes on to the next
instruction; `start - 1` if there is none. -/
def lastFallThrough (b : Boundary) (start : Int) : (count : Nat) → Int
  | 0 => start - 1
  | count + 1 =>
    if (b.code.getD (start + count).toNat .frame).fallsThrough then start + count
    else lastFallThrough b start count

/-- Ends the range on an instruction that goes on to the next one. -/
def endOnFallThrough (b : Boundary) (start stop : Int) : Int :=
  if start ≤ stop then b.lastFallThrough start (stop - start + 1).toNat else stop

/-- Shortens a range once for every reason. -/
def tighten (b : Boundary) (start stop : Int) : Int :=
  b.endOnFallThrough start
    (b.stopAtEntries start (b.containExits start (b.respectRegions start stop)))

/-- **The farthest end, not after `stop`, of a range from `start` on that can be moved.** It lies
before `start` when there is no such range. -/
def fit (b : Boundary) (start stop : Int) : Int :=
  if start ≤ stop then
    let next := b.tighten start stop
    if next < stop then b.fit start next else next
  else stop
termination_by (stop - start + 1).toNat

end Boundary

end Outliner
