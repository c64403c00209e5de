import Std.Data.HashMap

/-!
# Constant pools

The table of constants that the methods of a class share. Entries are only ever added, each once,
and an entry may refer to earlier ones by their index. Indexes count from 1; the wide numbers take
two indexes each, the second of which is not used.

Adding can fail when there is no index left. What was added on the way to a failure stays in the
pool, so the operations form a state that survives errors (`Pooling`).
-/

namespace Outliner

/-- The number that says what kind of member an entry refers to. It can be any byte; three have a
meaning. -/
abbrev MemberTag := UInt8

namespace MemberTag

/-- Fields. -/
def field : MemberTag := 9

/-- Methods of classes. -/
def method : MemberTag := 10

/-- Methods of interfaces. -/
def interfaceMethod : MemberTag := 11

end MemberTag

/-- One entry of a pool. Floating-point numbers are kept by their bits, references by index. -/
inductive PoolEntry where
  | utf8 (text : String)
  | integer (n : Int32)
  | float (bits : UInt32)
  | long (n : Int64)
  | double (bits : UInt64)
  | classRef (name : Nat)
  | stringRef (text : Nat)
  | member (tag : MemberTag) (owner signature : Nat)
  | nameAndType (name descriptor : Nat)
  /-- A call site. The method that links it is not described. -/
  | callSite (signature : Nat)
  deriving DecidableEq, Hashable, Repr, Inhabited

namespace PoolEntry

/-- The number that tells the kinds of entries apart. -/
def tag : PoolEntry → Nat
  | utf8 _ => 1
  | integer _ => 3
  | float _ => 4
  | long _ => 5
  | double _ => 6
  | classRef _ => 7
  | stringRef _ => 8
  | member tag _ _ => tag.toNat
  | nameAndType _ _ => 12
  | callSite _ => 18

/-- The number of indexes an entry takes: two with the tag of a wide number, else one. -/
def width (e : PoolEntry) : Nat :=
  if e.tag = 5 || e.tag = 6 then 2 else 1

/-- The indexes an entry refers to. A call site names its linking method by 0. -/
def refs : PoolEntry → List Nat
  | classRef i | stringRef i => [i]
  | member _ owner signature => [owner, signature]
  | nameAndType name descriptor => [name, descriptor]
  | callSite signature => [0, signature]
  | _ => []

end PoolEntry

/-- Why a constant cannot be added. -/
inductive PoolError where
  | overflow
  deriving DecidableEq, Repr, Inhabited

namespace PoolError

/-- The wording of the failure. -/
def message : PoolError → String
  | overflow => "constant pool overflow"

end PoolError

/-- A constant pool: its entries in order, the index of each, and the next free index. -/
structure Pool where
  entries : Array PoolEntry := #[]
  indexes : Std.HashMap PoolEntry Nat := ∅
  next : Nat := 1
  deriving Inhabited

namespace Pool

/-- The pool without entries. -/
def empty : Pool := {}

/-- The first index that no pool may reach past. -/
def limit : Nat := 65536

/-- The index of an entry, which is added unless it is there already. -/
def intern (e : PoolEntry) (p : Pool) : Except PoolError Nat × Pool :=
  match p.indexes.get? e with
  | some index => (.ok index, p)
  | none =>
    if p.next + e.width > limit then (.error .overflow, p)
    else (.ok p.next, ⟨p.entries.push e, p.indexes.insert e p.next, p.next + e.width⟩)

end Pool

/-- Work that adds to a pool and may fail. The pool keeps what was added before a failure. -/
abbrev Pooling := ExceptT PoolError (StateM Pool)

namespace Pooling

/-- The index of an entry. -/
def entry (e : PoolEntry) : Pooling Nat :=
  ExceptT.mk (Pool.intern e)

/-- The index of a text. -/
def utf8 (text : String) : Pooling Nat :=
  entry (.utf8 text)

/-- The index of a string constant. -/
def string (text : String) : Pooling Nat := do
  entry (.stringRef (← utf8 text))

/-- The index of a class, given by its internal name. -/
def classNamed (name : String) : Pooling Nat := do
  entry (.classRef (← utf8 name))

/-- The index of a name with a descriptor. -/
def nameAndType (name descriptor : String) : Pooling Nat := do
  let name ← utf8 name
  let descriptor ← utf8 descriptor
  entry (.nameAndType name descriptor)

/-- The index of a member of a class. -/
def member (tag : MemberTag) (owner name descriptor : String) : Pooling Nat := do
  let owner ← classNamed owner
  let signature ← nameAndType name descriptor
  entry (.member tag owner signature)

/-- The index of a call site. -/
def callSite (name descriptor : String) : Pooling Nat := do
  entry (.callSite (← nameAndType name descriptor))

end Pooling

end Outliner
