import Outliner.Boundary
import Outliner.Flow

/-!
# Slots that handlers watch

Once a range is moved into a routine of its own, the locals it writes live in that routine. A
handler entered by an exception from there sees the values from before the call, so a range must not
write a local that a handler protecting it may read.

`Watch.ofFlow` finds what each handler may read and `Watch.firstWrite?` the first instruction of a
range that writes such a slot.
-/

namespace Outliner

namespace SlotAccess

/-- The slots an access covers. One that would run past the largest slot number covers none. -/
def covered (a : SlotAccess) : List Int :=
  if a.slot + a.size ≤ Word.max then (List.range a.size).map fun (k : Nat) => a.slot + k else []

end SlotAccess

/-- A set of slots: finitely many, or all of them. -/
inductive Watched where
  | all
  | only (slots : SlotMap Unit)

namespace Watched

def has : Watched → Int → Bool
  | all, _ => true
  | only slots, slot => slots.contains slot

/-- Adds slots to a set. -/
def add (s : Watched) (slots : List Int) : Watched :=
  match s with
  | all => all
  | only known => only (slots.foldl (fun m slot => m.insert slot ()) known)

end Watched

namespace Flow

/-- The offsets control can go to from the instruction at `offset`, handlers included. -/
def successors (flow : Flow) (regions : List Region) (offset : Nat) : List Nat :=
  match flow.routine.code[offset]? with
  | none => []
  | some insn =>
    let next := if insn.fallsThrough || insn.opcode.isSubroutineCall then [offset + 1] else []
    let handlers :=
      if insn.isMarker then [] else (regions.filter (·.contains offset)).map Region.handler
    next ++ flow.routine.targetOffsets insn ++ handlers

/-- Marks the offsets not yet seen and puts them in line. -/
def discover (seen : Array Bool) (work : List Nat) : List Nat → Array Bool × List Nat
  | [] => (seen, work)
  | offset :: rest =>
    if seen.getD offset true then discover seen work rest
    else discover (seen.setIfInBounds offset true) (offset :: work) rest

/-- Follows every successor of what waits in line; `fuel` bounds the number of offsets. -/
def explore (flow : Flow) (regions : List Region) :
    (fuel : Nat) → Array Bool → List Nat → Array Bool
  | 0, seen, _ => seen
  | _ + 1, seen, [] => seen
  | fuel + 1, seen, offset :: work =>
    let (seen, work) := discover seen work (flow.successors regions offset)
    explore flow regions fuel seen work

/-- Which offsets control can reach from `offset`. -/
def reachableFrom (flow : Flow) (regions : List Region) (offset : Nat) : Array Bool :=
  let (seen, work) := discover (Array.replicate flow.routine.size false) [] [offset]
  flow.explore regions flow.routine.size seen work

/-- The slots read at an offset. What follows the end of a subroutine is unknown, so that reads
every slot. -/
def readsAt (flow : Flow) (offset : Nat) (s : Watched) : Watched :=
  match flow.routine.code[offset]? with
  | none => s
  | some insn =>
    if insn.opcode = .ret then .all
    else s.add ((flow.effect offset).reads.flatMap SlotAccess.covered)

/-- The slots that may be read once control is at `offset`. -/
def readsFrom (flow : Flow) (regions : List Region) (offset : Nat) : Watched :=
  let seen := flow.reachableFrom regions offset
  (List.range flow.routine.size).foldl
    (fun s i => if seen.getD i false then flow.readsAt i s else s) (.only .empty)

end Flow

/-- What the handlers of a routine may read: each block that is not empty, with the slots its
handler reads. -/
structure Watch where
  entries : List (Region × Watched)

namespace Watch

/-- What the handlers of a routine may read. -/
def ofFlow (flow : Flow) (regions : List Region) : Watch :=
  ⟨regions.map fun region => (region, flow.readsFrom regions region.handler)⟩

/-- The sets of slots that the handlers protecting an offset may read. -/
def protecting (w : Watch) (offset : Int) : List Watched :=
  (w.entries.filter fun e => e.1.start ≤ offset && offset < e.1.stop).map (·.2)

/-- Whether the instruction at an offset writes a watched slot. -/
def writesWatched (flow : Flow) (watched : List Watched) (offset : Nat) : Bool :=
  (flow.effect offset).writes.any fun w =>
    w.covered.any fun slot => watched.any (·.has slot)

/-- **The first instruction between `start` and `stop` that writes a slot which a handler protecting
`start` may read.** -/
def firstWrite? (w : Watch) (flow : Flow) (start stop : Int) : Option Nat :=
  match w.protecting start with
  | [] => none
  | watched =>
    (List.range' start.toNat (stop + 1 - start).toNat).find? (writesWatched flow watched)

end Watch

end Outliner
