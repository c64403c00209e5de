import Outliner.Footprint

/-!
# Cuts

A cut is a range of instructions to be moved into a routine of its own, together with the values
that cross its boundary: what it takes from the stack and from local slots, and what it leaves
there. `Cut.ofFootprint` reads it off a footprint, unless a value crosses that cannot be passed in a
call.
-/

namespace Outliner

/-- A range of instructions and the values crossing its boundary. -/
structure Cut where
  start : Int
  length : Int
  /-- The slots whose incoming values the range needs. -/
  read : SlotMap JType
  /-- The slots in which the range leaves new values, with their types after it. -/
  written : SlotMap JType
  /-- The values the range takes off the stack it starts on, bottom first. -/
  consumed : List JType
  /-- The values it leaves in their place, bottom first. -/
  produced : List JType
  deriving DecidableEq, Repr, Inhabited

/-- Why a footprint makes no cut. -/
inductive CutFault where
  | consumed (type : JType)
  | produced (type : JType)
  | readUninitialized (slot : Int) (type : JType)
  | writtenUninitialized (slot : Int) (type : JType)
  deriving DecidableEq, Repr

namespace CutFault

/-- The wording of a fault. -/
def message : CutFault → String
  | consumed t => "consumed stack value of type " ++ t.display
  | produced t => "produced stack value of type " ++ t.display
  | readUninitialized slot t => "local " ++ toString slot ++ " read while " ++ t.display
  | writtenUninitialized slot t => "local " ++ toString slot ++ " written with " ++ t.display

end CutFault

namespace Cut

/-- The offset just after the range. -/
def stop (c : Cut) : Int :=
  Word.wrap (c.start + c.length)

/-- The text of a list of types. -/
def displayTypes (l : List JType) : String :=
  "[" ++ " ".intercalate (l.map JType.display) ++ "]"

/-- The text of a map from slots to types. -/
def displaySlots (m : SlotMap JType) : String :=
  "map[" ++ " ".intercalate (m.toList.map fun e => toString e.1 ++ ":" ++ e.2.display) ++ "]"

/-- A short description of a cut. -/
def display (c : Cut) : String :=
  "[" ++ toString c.start ++ ", " ++ toString c.stop ++ ") consumed=" ++ displayTypes c.consumed ++
    " produced=" ++ displayTypes c.produced ++ " read=" ++ displaySlots c.read ++
    " written=" ++ displaySlots c.written

/-- The usable values among the slots of a map. -/
def usable (m : SlotMap JType) : SlotMap JType :=
  .ofList (m.toList.filter (·.2.isDefinite))

/-- The incoming values a range needs: those it reads, and, when it branches, those of the slots it
writes, because a write on one path leaves the incoming value on the others. -/
def needed (f : Footprint) : SlotMap JType :=
  let kept :=
    if f.branches then f.written.slots.map fun slot => (slot, f.startFrame.slot slot) else []
  .ofList ((f.read.toList ++ kept).filter (·.2.isDefinite))

/-- **The cut a footprint makes.** -/
def ofFootprint (f : Footprint) : Except CutFault Cut := do
  match f.consumed.find? (!·.isDefinite) with
  | some t => throw (.consumed t)
  | none => pure ()
  match f.produced.find? (!·.isDefinite) with
  | some t => throw (.produced t)
  | none => pure ()
  match f.read.toList.find? (·.2.isUninitialized) with
  | some (slot, t) => throw (.readUninitialized slot t)
  | none => pure ()
  match f.written.toList.find? (·.2.isUninitialized) with
  | some (slot, t) => throw (.writtenUninitialized slot t)
  | none => pure ()
  return {
    start := f.start
    length := f.stop - f.start + 1
    read := needed f
    written := usable f.written
    consumed := f.consumed
    produced := f.produced }

end Cut

end Outliner
