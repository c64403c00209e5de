import Outliner.Draft
import Outliner.Survey

/-!
# Splitting a routine in two

`Outline.apply` moves the instructions of a cut into a routine of its own. The *extracted* routine
takes the consumed stack values and the read locals as arguments, runs the instructions, and returns
an array of objects: the produced stack values, bottom first, and then the written locals in
ascending order of slot. The *trimmed* routine has a call in place of the instructions and unpacks
the array.
-/

namespace Outliner

/-- How routines are split. -/
structure Outline where
  /-- What two classes have in common, for merging types. -/
  hierarchy : Hierarchy := Hierarchy.flat
  /-- What is appended to the name of a routine to name the one extracted from it. -/
  suffix : String := "$split"

/-- Why a routine is not split. -/
inductive OutlineError where
  | unanalyzed (routine : String) (e : FlowError)
  | noCut (routine : String)
  | outOfBounds (routine : String) (start length : Int)
  | badExtract (routine : String) (e : RoutineError)
  | badTrim (routine : String) (e : RoutineError)
  deriving Repr

namespace OutlineError

/-- The wording of a refusal. -/
def message : OutlineError → String
  | unanalyzed routine e => "analyzing " ++ routine ++ ": " ++ e.message
  | noCut routine => routine ++ ": no split point found"
  | outOfBounds routine start length =>
    routine ++ ": split point " ++ toString start ++ "+" ++ toString length ++ " out of bounds"
  | badExtract routine e => "extracting from " ++ routine ++ ": " ++ e.message
  | badTrim routine e => "trimming " ++ routine ++ ": " ++ e.message

end OutlineError

/-- The two routines that take the place of one, and the cut between them. -/
structure Parted where
  trimmed : Routine
  extracted : Routine
  cut : Cut
  deriving Inhabited

namespace Cut

/-- The arguments of the extracted routine: the consumed stack values and then the read locals in
ascending order of slot. -/
def arguments (c : Cut) : List JType :=
  c.consumed ++ c.read.toList.map (·.2)

/-- The descriptor of the extracted routine. -/
def routineDescriptor (c : Cut) : String :=
  (JType.ofSignature c.arguments JType.objectArray).descriptor

/-- The instructions of the range. -/
def instructions (c : Cut) (r : Routine) : List Instruction :=
  (r.code.extract c.start.toNat c.stop.toNat).toList

end Cut

/-- The widest access through each slot that instructions name. -/
def accessWidths (insns : List Instruction) : SlotMap Nat :=
  insns.foldl (fun widths insn => match insn.slotAccess? with
    | some (slot, width) =>
      if (widths.get? slot).getD 0 < width then widths.insert slot width else widths
    | none => widths) .empty

/-- Where the slots of a range live in the extracted routine. -/
structure SlotPlan where
  /-- The first slot not yet taken. -/
  next : Nat
  /-- The new slot of each old one. -/
  remap : SlotMap Nat
  /-- The arguments that move to a wider slot: their type, the slot they arrive in, and the slot
  they move to. -/
  copies : List (JType × Nat × Nat)

namespace SlotPlan

/-- The slots in which arguments of the given types arrive, from `next` on, and the slot after
them. -/
def arrivals (next : Nat) : List JType → List Nat × Nat
  | [] => ([], next)
  | t :: rest =>
    let tail := arrivals (next + t.size) rest
    (next :: tail.1, tail.2)

/-- Places a read local: in the slot it arrives in, or, when the range stores something wider there,
in a new one. -/
def placeRead (widths : SlotMap Nat) (p : SlotPlan) (slot : Int) (t : JType) (arrival : Nat) :
    SlotPlan :=
  let width := (widths.get? slot).getD 0
  if width ≤ t.size then { p with remap := p.remap.insert slot arrival }
  else {
    next := p.next + width
    remap := p.remap.insert slot p.next
    copies := p.copies ++ [(t, arrival, p.next)] }

/-- Gives a slot without a place a new one of the given width. -/
def placeNew (p : SlotPlan) (slot : Int) (width : Nat) : SlotPlan :=
  if p.remap.contains slot then p
  else { p with next := p.next + width, remap := p.remap.insert slot p.next }

/-- The plan for a cut whose instructions touch slots with the given widths. -/
def ofCut (c : Cut) (widths : SlotMap Nat) : SlotPlan :=
  let stack := arrivals 0 c.consumed
  let locals := arrivals stack.2 (c.read.toList.map (·.2))
  let p : SlotPlan := ⟨locals.2, .empty, []⟩
  let p := (c.read.toList.zip locals.1).foldl
    (fun p e => p.placeRead widths e.1.1 e.1.2 e.2) p
  let p := widths.toList.foldl (fun p e => p.placeNew e.1 e.2) p
  c.written.toList.foldl (fun p e => p.placeNew e.1 e.2.size) p

/-- The new slot of an old one. -/
def slot (p : SlotPlan) (old : Int) : Int :=
  ((p.remap.get? old).getD 0 : Nat)

end SlotPlan

namespace Outline

/-- Loads what the range starts with: arguments that need a wider slot are moved there, and the
consumed values go onto the stack. -/
def prologue (c : Cut) (p : SlotPlan) : List Instruction :=
  (p.copies.flatMap fun e => [Snippet.load e.1 e.2.1, Snippet.store e.1 e.2.2]) ++
    (c.consumed.zip (SlotPlan.arrivals 0 c.consumed).1).map fun e => Snippet.load e.1 e.2

/-- An instruction of the range with its slots renamed. Line numbers and frame markers are left
out. -/
def moved (p : SlotPlan) : Instruction → Option Instruction
  | .line _ | .frame => none
  | .slot op index => some (.slot op (p.slot index))
  | .iinc index amount => some (.iinc (p.slot index) amount)
  | insn => some insn

/-- Boxes the value on top of the stack into element `index` of the array under it, and keeps the
array. -/
def packProduced (index : Nat) (t : JType) : List Instruction :=
  (if t.size = 2 then
      [.plain (.shuffle .dupX2), .plain (.shuffle .dupX2), .plain .pop]
    else [.plain (.shuffle .dupX1), .plain (.shuffle .swap)]) ++
    Snippet.box t ++
    [Snippet.pushInt (Int32.ofNat index), .plain (.shuffle .swap), .plain (.arrayStore .ref)]

/-- Boxes a local into element `index` of the array on top of the stack. -/
def packWritten (index : Nat) (t : JType) (slot : Int) : List Instruction :=
  [.plain (.shuffle .dup), Snippet.pushInt (Int32.ofNat index), Snippet.load t slot] ++
    Snippet.box t ++ [.plain (.arrayStore .ref)]

/-- Returns the produced values, which are taken off the stack top first, and the written locals in
an array of objects. -/
def epilogue (c : Cut) (p : SlotPlan) : List Instruction :=
  let stacked := c.produced.length
  [Snippet.pushInt (Int32.ofNat (stacked + c.written.size)),
    .type .newObjectArray JType.objectClass] ++
    (c.produced.zipIdx.reverse.flatMap fun e => packProduced e.2 e.1) ++
    (c.written.toList.zipIdx.flatMap fun e =>
      packWritten (stacked + e.2) e.1.2 (p.slot e.1.1)) ++
    [.plain (.returnValue .ref)]

/-- **The extracted routine of a cut.** -/
def extract (o : Outline) (r : Routine) (c : Cut) : Except RoutineError Routine :=
  let range := c.instructions r
  let p := SlotPlan.ofCut c (accessWidths range)
  let code := prologue c p ++ range.filterMap (moved p) ++ epilogue c p
  Routine.make {
    owner := r.owner
    name := r.name ++ o.suffix
    descriptor := c.routineDescriptor
    access := .privateStaticSynthetic
    code := (code.map some).toArray
    blocks := []
    maxLocals := localsNeeded p.next code
    maxStack := 0 }

/-- Element `index` of the array on top of the stack, as a value of type `t`. -/
def fetch (index : Nat) (t : JType) : List Instruction :=
  [Snippet.pushInt (Int32.ofNat index), .plain (.arrayLoad .ref)] ++ Snippet.unbox t

/-- Moves the array back over the value just fetched from it. -/
def raiseArray (t : JType) : List Instruction :=
  if t.size = 2 then [.plain (.shuffle .dup2X1), .plain .pop2] else [.plain (.shuffle .swap)]

/-- Puts the produced values back onto the stack; the last one takes the place of the array. -/
def unpackProduced : (index : Nat) → List JType → List Instruction
  | _, [] => []
  | index, [t] => fetch index t
  | index, t :: rest =>
    .plain (.shuffle .dup) :: fetch index t ++ raiseArray t ++ unpackProduced (index + 1) rest

/-- Puts the written locals back into their slots. The array is kept unless nothing else needs
it. -/
def unpackWritten (keep : Bool) (index : Nat) : List (Int × JType) → List Instruction
  | [] => []
  | (slot, t) :: rest =>
    (if keep || !rest.isEmpty then [.plain (.shuffle .dup)] else []) ++ fetch index t ++
      [Snippet.store t slot] ++ unpackWritten keep (index + 1) rest

/-- Takes the array on top of the stack apart. -/
def unpack (c : Cut) : List Instruction :=
  unpackWritten (!c.produced.isEmpty) c.produced.length c.written.toList ++
    unpackProduced 0 c.produced ++
    if c.produced.isEmpty && c.written.size = 0 then [.plain .pop] else []

/-- Calls the extracted routine. -/
def call (c : Cut) (extracted : Routine) : List Instruction :=
  (c.read.toList.map fun e => Snippet.load e.2 e.1) ++
    [Snippet.invoke .static extracted.owner extracted.name extracted.descriptor]

/-- Whether a protected block is bounded by a label. -/
def boundsBlock (r : Routine) (l : Label) : Bool :=
  r.blocks.any fun b => b.start.id = l.id || b.stop.id = l.id || b.handler.id = l.id

/-- The labels of the range that bound a protected block. They move in front of the call. -/
def keptLabels (r : Routine) (c : Cut) : List Instruction :=
  ((c.instructions r).filterMap Instruction.placed?).filter (boundsBlock r) |>.map .label

/-- The instructions that stay where they are: all but frame markers. -/
def staying (insns : List Instruction) : List Instruction :=
  insns.filter (· ≠ .frame)

/-- **The trimmed routine of a cut.** -/
def trim (r : Routine) (c : Cut) (extracted : Routine) : Except RoutineError Routine :=
  let code :=
    staying (r.code.extract 0 c.start.toNat).toList ++ keptLabels r c ++ call c extracted ++
      unpack c ++ staying (r.code.extract c.stop.toNat r.size).toList
  Routine.make {
    owner := r.owner
    name := r.name
    descriptor := r.descriptor
    access := r.access
    code := (code.map some).toArray
    blocks := r.blocks
    maxLocals := localsNeeded r.maxLocals code
    maxStack := 0 }

/-- The longest sequence of instructions that can be held at all. -/
def longestSequence : Nat := 0x100000000000

/-- **Splits a routine at a cut.** The cut is trusted to describe the routine; only its bounds are
checked. -/
def apply (o : Outline) (r : Routine) (c : Cut) : Answer OutlineError Parted :=
  if c.length < 1 || c.start < 0 || r.size < c.stop then
    Answer.refuse (.outOfBounds r.key c.start c.length)
  else if longestSequence < c.length then Answer.breakdown
  else match o.extract r c with
    | .error e => Answer.refuse (.badExtract r.key e)
    | .ok extracted =>
      if r.size < c.start then Answer.breakdown
      else match trim r c extracted with
        | .error e => Answer.refuse (.badTrim r.key e)
        | .ok trimmed => .ok ⟨trimmed, extracted, c⟩

/-- The entry of the journal for a routine that was split. -/
def noteOf (r : Routine) (p : Parted) : Note :=
  .split r.key p.cut.start p.cut.length p.trimmed.size p.extracted.size

/-- The candidates of a routine within bounds on their size. -/
def survey (o : Outline) (r : Routine) (minSize maxSize : Int) : Answer OutlineError Survey :=
  (Answer.mapReason (.unanalyzed r.key) (Flow.analyze o.hierarchy r)).map
    (Survey.make · minSize maxSize)

/-- The cut to split a routine at. -/
def find (o : Outline) (r : Routine) (minSize maxSize firstAtLeast : Int) :
    Array Note × Answer OutlineError Cut :=
  match o.survey r minSize maxSize with
  | .error stop => (#[], .error stop)
  | .ok survey =>
    match survey.select firstAtLeast with
    | (notes, .error stop) => (notes, .error stop)
    | (notes, .ok none) => (notes, Answer.refuse (.noCut r.key))
    | (notes, .ok (some cut)) => (notes, .ok cut)

/-- Splits a routine at a given cut and notes it. -/
def splitAt (o : Outline) (r : Routine) (c : Cut) : Array Note × Answer OutlineError Parted :=
  match o.apply r c with
  | .ok parted => (#[noteOf r parted], .ok parted)
  | .error stop => (#[], .error stop)

/-- Splits a routine at the cut found within bounds. -/
def splitWithin (o : Outline) (r : Routine) (minSize maxSize firstAtLeast : Int) :
    Array Note × Answer OutlineError Parted :=
  match o.find r minSize maxSize firstAtLeast with
  | (notes, .error stop) => (notes, .error stop)
  | (notes, .ok cut) =>
    let (more, result) := o.splitAt r cut
    (notes ++ more, result)

/-- The usual bounds for a routine of `n` instructions: from a fifth to seven tenths of them, and
the first cut of the greatest size ends the search. -/
def usualBounds (n : Int) : Int × Int × Int :=
  let low := Word.wrap ((Word.wrap (n * 2)).tdiv 10 + 1)
  let high := Word.wrap ((Word.wrap (n * 7)).tdiv 10 + 1)
  (low, high, high)

/-- **Splits a routine** within the usual bounds. -/
def split (o : Outline) (r : Routine) : Array Note × Answer OutlineError Parted :=
  let (low, high, first) := usualBounds r.size
  o.splitWithin r low high first

/-- What splitting a routine several times gave: what is left of it, each step with the routine it
was applied to, why it ended early, and what was noted. -/
structure Series where
  remaining : Routine
  steps : Array (Routine × Parted) := #[]
  ending : Option (Stop OutlineError) := none
  notes : Array Note := #[]

/-- Splits what is left of a routine again and again, with one suffix after the other, up to the
first failure. -/
def splitSeries (o : Outline) (s : Series) : List String → Series
  | [] => s
  | suffix :: rest =>
    match { o with suffix := suffix }.split s.remaining with
    | (notes, .ok p) =>
      splitSeries o { s with
        remaining := p.trimmed
        steps := s.steps.push (s.remaining, p)
        notes := s.notes ++ notes } rest
    | (notes, .error stop) => { s with ending := some stop, notes := s.notes ++ notes }

end Outline

end Outliner
