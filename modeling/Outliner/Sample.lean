import Outliner.Draft

/-!
# A routine that is too large

An unrolled sum: every term adds one number to a local. With enough terms its code no longer fits
into a method, which makes it a good example for splitting.
-/

namespace Outliner.Sample

/-- The instructions that add one number to the local. -/
def term (n : Int32) : List Instruction :=
  [Snippet.load .int 0, Snippet.pushInt n, .plain (.arith .add .int), Snippet.store .int 0]

/-- The instructions that add the numbers below `terms` and return their sum. -/
def sumCode (terms : Nat) : List Instruction :=
  [Snippet.pushInt 0, Snippet.store .int 0] ++
    (List.range terms).flatMap (fun n => term (Int32.ofNat n)) ++
    [Snippet.load .int 0, .plain (.returnValue .int)]

/-- A routine of class `owner` that adds the numbers below `terms`. -/
def sum (owner : String) (terms : Int) : Except RoutineError Routine :=
  (Draft.emitAll { owner := owner, access := .publicStatic, name := "sum", descriptor := "()I" }
    (sumCode terms.toNat)).routine

end Outliner.Sample
