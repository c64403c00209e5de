import Outliner.Routine

/-!
# Layout

Where each instruction of a routine starts in the code. Most lengths depend on the instruction
alone; the operands of a switch are aligned, so its length depends on its position, and a jump has a
short and a long form.

Jumps start short, and those that cannot reach their target are made long. That moves code apart, so
more jumps may fall short, and it is repeated until nothing changes. Each repetition makes at least
one more jump long, so there are at most as many of them as there are instructions.
-/

namespace Outliner

/-- The largest code a method may have, in bytes. -/
def maxCodeSize : Nat := 65535

/-- The number of bytes that align the operands of a switch whose opcode stands at a position. -/
def switchPadding (position : Nat) : Nat :=
  (4 - (position + 1) % 4) % 4

namespace Instruction

/-- The length of an instruction in bytes when it starts at a position, its constant has an index,
and, if it is a jump, it is in its long form or not. -/
def codeSize (insn : Instruction) (index : Nat) (long : Bool) (position : Nat) : Nat :=
  match insn with
  | label _ | line _ | frame => 0
  | plain _ => 1
  | int op _ => if op = .sipush then 3 else 2
  | slot op n => if op ≠ .ret ∧ n ≤ 3 then 1 else if n ≤ 255 then 2 else 4
  | iinc n amount => if n ≤ 255 ∧ -128 ≤ amount ∧ amount ≤ 127 then 3 else 6
  | type _ _ | field _ _ _ _ => 3
  | method op _ _ _ _ => if op = .invoke .interface ∨ op = .invoke .dynamic then 5 else 3
  | ldc c => if c.isWide then 3 else if index ≤ 255 then 2 else 3
  | jump op _ => if !long then 3 else if op = .goto ∨ op = .jsr then 5 else 8
  | tableSwitch _ _ _ targets => 1 + switchPadding position + 12 + 4 * targets.length
  | lookupSwitch _ keys _ => 1 + switchPadding position + 8 + 8 * keys.length
  | multiArray _ _ => 4

end Instruction

/-- A routine with the indexes of its constants. -/
structure Bound where
  routine : Routine
  indexes : Array Nat

/-- A choice of jumps to be long, with the positions that follow from it. There is one more position
than there are instructions: the length of the code. -/
structure Layout where
  long : Array Bool
  positions : Array Nat
  deriving DecidableEq, Repr, Inhabited

namespace Bound

/-- The positions of instructions from an offset on, after those given. -/
def positionsFrom (b : Bound) (long : Array Bool) :
    (offset position : Nat) → List Instruction → Array Nat → Array Nat
  | _, position, [], positions => positions.push position
  | offset, position, insn :: rest, positions =>
    let size := insn.codeSize (b.indexes.getD offset 0) (long.getD offset false) position
    positionsFrom b long (offset + 1) (position + size) rest (positions.push position)

/-- The layout with the given jumps long. -/
def layoutWith (b : Bound) (long : Array Bool) : Layout :=
  ⟨long, b.positionsFrom long 0 0 b.routine.code.toList #[]⟩

end Bound

namespace Layout

/-- The position of an offset. -/
def position (l : Layout) (offset : Nat) : Nat :=
  l.positions.getD offset 0

/-- The position a label stands at. -/
def target (l : Layout) (r : Routine) (label : Label) : Nat :=
  l.position ((r.offset? label).getD 0)

/-- The length of the code. -/
def size (l : Layout) (r : Routine) : Nat :=
  l.position r.size

/-- How far a jump at an offset has to reach. -/
def distance (l : Layout) (r : Routine) (offset : Nat) (label : Label) : Int :=
  (l.target r label : Int) - l.position offset

/-- Whether a distance fits the short form of a jump. -/
def reachesShort (distance : Int) : Bool :=
  -32768 ≤ distance && distance ≤ 32767

/-- Which jumps have to be long, given the positions of a layout: those that are, and those that do
not reach their target. -/
def lengthened (l : Layout) (r : Routine) : Array Bool :=
  r.code.mapIdx fun offset insn =>
    l.long.getD offset false || (match insn with
      | .jump _ label => !reachesShort (l.distance r offset label)
      | _ => false)

end Layout

namespace Bound

/-- Lengthens jumps until all of them reach their targets, at most `rounds` times. -/
def settle (b : Bound) : (rounds : Nat) → Layout → Layout
  | 0, l => l
  | rounds + 1, l =>
    let long := l.lengthened b.routine
    if long = l.long then l else settle b rounds (b.layoutWith long)

/-- **The layout of a routine.** -/
def layout (b : Bound) : Layout :=
  b.settle b.routine.size (b.layoutWith (Array.replicate b.routine.size false))

end Bound

end Outliner
