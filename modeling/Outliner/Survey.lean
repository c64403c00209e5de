import Outliner.Journal
import Outliner.Watch

/-!
# Candidates

A survey looks for the cuts of a routine within bounds on their size: for every start, the longest
range that can be moved. `Survey.candidates` lists them in ascending order of start, and a `Cursor`
hands them out one at a time and can be put back to the beginning. `Survey.select` chooses one.

Sizes are words, so a bound near the largest word can make a sum wrap around; such a survey may
break down.
-/

namespace Outliner

/-- A search for cuts. -/
structure Survey where
  flow : Flow
  boundary : Boundary
  watch : Watch
  /-- The least size of a cut, at least one. -/
  minSize : Int
  maxSize : Int

/-- What became of a start. -/
inductive Attempt where
  /-- No range from there is long enough. -/
  | tooShort
  /-- The longest range cannot be cut. -/
  | skipped (reason : SkipReason) (stop : Int)
  | found (cut : Cut)

namespace Survey

/-- A survey of a routine whose data flow is known. -/
def make (flow : Flow) (minSize maxSize : Int) : Survey :=
  let boundary := Boundary.ofRoutine flow.routine
  { flow := flow
    boundary := boundary
    watch := .ofFlow flow boundary.regions
    minSize := max minSize 1
    maxSize := maxSize }

/-- The number of instructions of the surveyed routine. -/
def size (s : Survey) : Nat := s.flow.routine.size

/-- Whether the instruction before an offset marks a source line. Only the first start of a line is
tried. -/
def followsLine (s : Survey) (start : Nat) : Bool :=
  match start with
  | 0 => false
  | before + 1 =>
    match s.flow.routine.code[before]? with
    | some (.line _) => true
    | _ => false

/-- The farthest end of a range from `start` on that can be moved and writes no watched slot. -/
def farthest (s : Survey) (start : Int) : Int :=
  let stop := s.boundary.fit start (min (Word.wrap (start + s.maxSize - 1)) (s.size - 1))
  match s.watch.firstWrite? s.flow start stop with
  | some w => s.boundary.fit start (w - 1)
  | none => stop

/-- **The longest cut from a start on.** -/
def attemptAt {ε : Type} (s : Survey) (start : Nat) : Answer ε Attempt :=
  if s.followsLine start then .ok .tooShort
  else
    let stop := s.farthest start
    if Word.wrap (stop - start + 1) < s.minSize then .ok .tooShort
    else match s.flow.footprint start stop with
      | .error .breakdown => Answer.breakdown
      | .error (.refused e) => .ok (.skipped (.untracked e) stop)
      | .ok footprint =>
        match Cut.ofFootprint footprint with
        | .error fault => .ok (.skipped (.uncut fault) stop)
        | .ok cut => .ok (.found cut)

/-- The starts from which a range of the least size fits into the routine. -/
def starts (s : Survey) : List Nat :=
  List.range (s.size + 1 - s.minSize.toNat)

/-- The longest cuts from the given starts on. -/
def cutsFrom {ε : Type} (s : Survey) (notes : Array Note) (cuts : Array Cut) :
    List Nat → Array Note × Answer ε (List Cut)
  | [] => (notes, .ok cuts.toList)
  | start :: rest =>
    match s.attemptAt start with
    | .error stop => (notes, .error stop)
    | .ok .tooShort => s.cutsFrom notes cuts rest
    | .ok (.skipped reason stop) => s.cutsFrom (notes.push (.skipped reason start stop)) cuts rest
    | .ok (.found cut) => s.cutsFrom notes (cuts.push cut) rest

/-- **All candidates**, in ascending order of start. -/
def candidates {ε : Type} (s : Survey) : Array Note × Answer ε (List Cut) :=
  s.cutsFrom #[] #[] s.starts

/-- Whether a cut is longer than the best one so far. -/
def improves (cut : Cut) : Option Cut → Bool
  | none => true
  | some best => best.length < cut.length

/-- The choice among the cuts from the given starts on, when `best` is the longest so far. -/
def selectFrom {ε : Type} (s : Survey) (firstAtLeast : Int) (notes : Array Note)
    (best : Option Cut) : List Nat → Array Note × Answer ε (Option Cut)
  | [] => (notes, .ok best)
  | start :: rest =>
    match s.attemptAt start with
    | .error stop => (notes, .error stop)
    | .ok .tooShort => s.selectFrom firstAtLeast notes best rest
    | .ok (.skipped reason stop) =>
      s.selectFrom firstAtLeast (notes.push (.skipped reason start stop)) best rest
    | .ok (.found cut) =>
      if improves cut best then
        let notes := notes.push (.candidate cut.start cut.length)
        if 0 < firstAtLeast && firstAtLeast ≤ cut.length then (notes, .ok (some cut))
        else s.selectFrom firstAtLeast notes (some cut) rest
      else s.selectFrom firstAtLeast notes best rest

/-- **Chooses a cut**: the first one of at least the given length, or else the longest one, the
earliest among equals. A length of zero or less asks for the longest. -/
def select {ε : Type} (s : Survey) (firstAtLeast : Int) : Array Note × Answer ε (Option Cut) :=
  s.selectFrom firstAtLeast #[] none s.starts

end Survey

/-- A place in the candidates of a survey. -/
structure Cursor where
  /-- The start looked at last. -/
  position : Int
  /-- What comes next, when it has been looked at already. -/
  peeked : Option (Option Cut)

namespace Cursor

/-- Before the first candidate. -/
def atStart : Cursor := ⟨-1, none⟩

/-- Tries one start after the other from `start` on. Gives the start at which it stops, which is the
end of the routine when there is no further candidate. -/
def advance {ε : Type} (s : Survey) (notes : Array Note) (start : Int) :
    Array Note × Answer ε (Int × Option Cut) :=
  if Word.wrap (start + s.minSize) ≤ s.size then
    if s.size < start then (notes, Answer.breakdown)
    else match s.attemptAt start.toNat with
      | .error stop => (notes, .error stop)
      | .ok (.found cut) => (notes, .ok (start, some cut))
      | .ok .tooShort => advance s notes (start + 1)
      | .ok (.skipped reason stop) =>
        advance s (notes.push (.skipped reason start stop)) (start + 1)
  else (notes, .ok (s.size, none))
termination_by (s.size + 1 - start).toNat

/-- Looks at the next candidate without passing it. -/
def peek {ε : Type} (s : Survey) (c : Cursor) : Array Note × Answer ε (Option Cut × Cursor) :=
  match c.peeked with
  | some next => (#[], .ok (next, c))
  | none =>
    match advance s #[] (c.position + 1) with
    | (notes, .ok (position, next)) => (notes, .ok (next, ⟨position, some next⟩))
    | (notes, .error stop) => (notes, .error stop)

/-- Passes the next candidate. -/
def next {ε : Type} (s : Survey) (c : Cursor) : Array Note × Answer ε (Option Cut × Cursor) :=
  match c.peek s with
  | (notes, .ok (next, c)) => (notes, .ok (next, { c with peeked := none }))
  | (notes, .error stop) => (notes, .error stop)

end Cursor

end Outliner
