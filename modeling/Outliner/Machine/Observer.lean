import Outliner.Machine.Value

/-!
# Observers

An observer is told of steps, calls and returns while a machine runs, and can end the run at any of
them.
-/

namespace Outliner

/-- Which instructions an observer is told of. -/
inductive StepScope where
  | all
  | none
  /-- One in a number of instructions. -/
  | sampled
  /-- The first instruction after a line marker. -/
  | onLine
  deriving DecidableEq, Repr, Inhabited

/-- Something an observer is told of. Depths count the active methods. -/
inductive Event where
  | step (routine : String) (offset : Nat) (opcode : Opcode) (line : Int)
      (stackDepth frameDepth : Nat)
  | call (routine : String) (argCount : Nat) (native : Bool) (frameDepth : Nat)
  /-- The heap is the one at the time of the return. -/
  | returned (routine : String) (value : Value) (heap : Heap) (frameDepth : Nat)
  deriving Repr

/-- Someone who watches a run. -/
structure Observer where
  mode : StepScope := .all
  /-- The number of instructions between two samples. -/
  interval : Int := 1000
  calls : Bool := true
  returns : Bool := true
  /-- Whether to go on after an event, given how many there have been. -/
  proceed : Nat → Event → Bool := fun _ _ => true

namespace Observer

/-- The number of instructions between two samples, at least one. -/
def sampleInterval (o : Observer) : Nat :=
  (max o.interval 1).toNat

end Observer

end Outliner
