import Outliner.Instruction

/-!
# Short instruction sequences

The code for moving values of a known type: pushing an integer in the shortest way, loading from and
storing into a slot, returning, and converting between a primitive and its wrapper.
-/

namespace Outliner

namespace JType

/-- The kind of slot that holds values of the type. -/
def slotKind : JType → SlotKind
  | prim .long => .long
  | prim .float => .float
  | prim .double => .double
  | prim _ => .int
  | _ => .ref

/-- The opcode loading a value of the type. -/
def loadOp (t : JType) : Opcode := .load t.slotKind

/-- The opcode storing a value of the type. -/
def storeOp (t : JType) : Opcode := .store t.slotKind

/-- The opcode returning a value of the type. -/
def returnOp : JType → Opcode
  | void => .returnVoid
  | t => .returnValue t.slotKind

end JType

namespace Snippet

/-- Push an integer: by an opcode of its own, as a byte, as a short, or from the constant pool. -/
def pushInt (v : Int32) : Instruction :=
  if -1 ≤ v && v ≤ 5 then .plain (.iconst ⟨(v + 1).toInt.toNat % 7, Nat.mod_lt _ (by decide)⟩)
  else if -128 ≤ v && v ≤ 127 then .int .bipush v
  else if -32768 ≤ v && v ≤ 32767 then .int .sipush v
  else .ldc (.int v)

/-- Load a value of type `t` from a slot. -/
def load (t : JType) (index : Int) : Instruction := .slot t.loadOp index

/-- Store a value of type `t` into a slot. -/
def store (t : JType) (index : Int) : Instruction := .slot t.storeOp index

/-- Call a method of a class. -/
def invoke (op : InvokeOp) (owner name descriptor : String) : Instruction :=
  .method (.invoke op) owner name descriptor false

/-- Turn a primitive on top of the stack into its wrapper; leave references alone. -/
def box (t : JType) : List Instruction :=
  match t.boxing? with
  | some b => [invoke .static b.className "valueOf" b.boxDescriptor]
  | none => []

/-- Turn the object on top of the stack into a value of type `t`: a cast and an unboxing call for
primitives, a cast for other references, and nothing where every object will do. -/
def unbox (t : JType) : List Instruction :=
  match t.boxing? with
  | some b =>
    [.type .checkCast b.className, invoke .virtual b.className b.unboxName b.unboxDescriptor]
  | none =>
    if t = .anyObject || t = .null then [] else [.type .checkCast t.internalName]

end Snippet

end Outliner
