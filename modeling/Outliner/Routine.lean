import Std.Data.TreeMap
import Outliner.Access
import Outliner.Instruction

/-!
# Routines

A routine is a single method body. `Routine.make` builds one from its parts after checking that the
descriptor can be read, that every label it refers to is placed exactly once, and that no protected
block ends before it starts; what it finds along the way (where each label stands, the instruction
ranges the blocks cover, the types of the arguments) is kept with the routine.
-/

namespace Outliner

/-- A protected block: an exception of class `type` raised between `start` and `stop` is handled at
`handler`. An empty class catches everything. -/
structure TryCatch where
  start : Label
  stop : Label
  handler : Label
  type : String
  deriving DecidableEq, Repr, Inhabited

/-- A protected block by instruction offsets; `stop` is the first offset after it. -/
structure Region where
  start : Nat
  stop : Nat
  handler : Nat
  type : String
  deriving DecidableEq, Repr, Inhabited

namespace Region

/-- Whether the offset lies in the block. -/
def contains (r : Region) (offset : Nat) : Bool :=
  r.start ≤ offset && offset < r.stop

end Region

/-- The parts a routine is made from. A place without an instruction is a fault that `Routine.make`
reports. -/
structure RoutineParts where
  owner : String
  name : String
  descriptor : String
  access : Access
  code : Array (Option Instruction)
  blocks : List TryCatch
  maxLocals : Int
  maxStack : Int
  deriving Inhabited

/-- Why parts do not make a routine. -/
inductive RoutineError where
  | descriptor (e : DescriptorError)
  | missingInstruction (routine : String) (offset : Nat)
  | placedTwice (routine : String) (label : Label) (first second : Nat)
  | unplacedTarget (routine : String) (offset : Nat) (label : Label)
  | unplacedBound (routine : String) (block : Nat)
  | reversedBlock (routine : String) (block : Nat)
  deriving Repr

namespace RoutineError

/-- The wording of a refusal. -/
def message : RoutineError → String
  | descriptor e => e.message
  | missingInstruction routine offset => routine ++ ": nil instruction at " ++ toString offset
  | placedTwice routine label first second =>
    routine ++ ": label " ++ label.display ++ " marked at " ++ toString first ++ " and " ++
      toString second
  | unplacedTarget routine offset label =>
    routine ++ ": instruction " ++ toString offset ++ " jumps to unmarked label " ++ label.display
  | unplacedBound routine block =>
    routine ++ ": try/catch block " ++ toString block ++ " references an unmarked label"
  | reversedBlock routine block =>
    routine ++ ": try/catch block " ++ toString block ++ " ends before it starts"

end RoutineError

/-- Where each label, by identity, is placed. -/
abbrev LabelTable := Std.TreeMap Nat Nat

/-- A checked method body. -/
structure Routine where
  owner : String
  name : String
  descriptor : String
  access : Access
  code : Array Instruction
  blocks : List TryCatch
  regions : List Region
  labels : LabelTable
  signature : Signature
  maxLocals : Int
  maxStack : Int
  deriving Inhabited

/-- The key of a method: its class, a dot, its name and its descriptor. -/
def qualifiedName (owner name descriptor : String) : String :=
  owner ++ "." ++ name ++ descriptor

namespace RoutineParts

/-- The key of the routine under construction. -/
def key (p : RoutineParts) : String :=
  qualifiedName p.owner p.name p.descriptor

end RoutineParts

namespace Routine

/-- The key of a routine: its class, name and descriptor. -/
def key (r : Routine) : String :=
  qualifiedName r.owner r.name r.descriptor

/-- Whether the routine has no receiver. -/
def isStatic (r : Routine) : Bool :=
  r.access.has .static

/-- The number of instructions, markers included. -/
def size (r : Routine) : Nat :=
  r.code.size

/-- The offset at which a label is placed. -/
def offset? (r : Routine) (l : Label) : Option Nat :=
  r.labels.get? l.id

/-- The offsets an instruction can jump to, the default first. -/
def targetOffsets (r : Routine) (insn : Instruction) : List Nat :=
  insn.targets.filterMap r.offset?

/-- The number of slots the receiver and the arguments take. -/
def argumentsSize (r : Routine) : Nat :=
  r.signature.argumentsSize + if r.isStatic then 0 else 1

/-- Walks over the code from an offset on and records where each label is placed. Refuses an empty
place and a label that is placed a second time. -/
def placeLabels (key : String) :
    (offset : Nat) → List (Option Instruction) → LabelTable → Except RoutineError LabelTable
  | _, [], table => .ok table
  | offset, none :: _, _ => .error (.missingInstruction key offset)
  | offset, some (.label l) :: rest, table =>
    match table.get? l.id with
    | some first => .error (.placedTwice key l first offset)
    | none => placeLabels key (offset + 1) rest (table.insert l.id offset)
  | offset, some _ :: rest, table => placeLabels key (offset + 1) rest table

/-- Checks that every label jumped to, from an offset on, is placed. -/
def checkTargets (key : String) (table : LabelTable) :
    (offset : Nat) → List Instruction → Except RoutineError Unit
  | _, [] => .ok ()
  | offset, insn :: rest =>
    match insn.targets.find? fun l => !table.contains l.id with
    | some l => .error (.unplacedTarget key offset l)
    | none => checkTargets key table (offset + 1) rest

/-- Finds the instruction ranges of the blocks, counting them from the given index. -/
def resolveBlocks (key : String) (table : LabelTable) :
    (index : Nat) → List TryCatch → Except RoutineError (List Region)
  | _, [] => .ok []
  | index, b :: rest =>
    match table.get? b.start.id, table.get? b.stop.id, table.get? b.handler.id with
    | some start, some stop, some handler =>
      if stop < start then .error (.reversedBlock key index)
      else match resolveBlocks key table (index + 1) rest with
        | .ok regions => .ok (⟨start, stop, handler, b.type⟩ :: regions)
        | .error e => .error e
    | _, _, _ => .error (.unplacedBound key index)

/-- **Makes a routine from its parts.** The number of locals is raised to what the receiver and the
arguments take. -/
def make (p : RoutineParts) : Except RoutineError Routine :=
  match Signature.parse p.descriptor with
  | .error e => .error (.descriptor e)
  | .ok signature =>
    match placeLabels p.key 0 p.code.toList ∅ with
    | .error e => .error e
    | .ok labels =>
      let code := p.code.filterMap id
      match checkTargets p.key labels 0 code.toList with
      | .error e => .error e
      | .ok () =>
        match resolveBlocks p.key labels 0 p.blocks with
        | .error e => .error e
        | .ok regions =>
          let receiver : Nat := if p.access.has .static then 0 else 1
          let arguments : Int := signature.argumentsSize + receiver
          .ok {
            owner := p.owner
            name := p.name
            descriptor := p.descriptor
            access := p.access
            code := code
            blocks := p.blocks
            regions := regions
            labels := labels
            signature := signature
            maxLocals := max p.maxLocals arguments
            maxStack := p.maxStack }

end Routine

end Outliner
