/-!
# Access flags

The access flags of a routine are a set of sixteen bits. The ones with a name are listed in a fixed
order.
-/

namespace Outliner

/-- A set of access flags. -/
structure Access where
  bits : UInt16
  deriving DecidableEq, Repr, Inhabited

namespace Access

/-- The named flags in the order in which they are listed. -/
def named : List (UInt16 × String) :=
  [(0x0001, "public"), (0x0002, "private"), (0x0004, "protected"), (0x0008, "static"),
    (0x0010, "final"), (0x0020, "synchronized"), (0x0040, "bridge"), (0x0080, "varargs"),
    (0x0100, "native"), (0x0400, "abstract"), (0x0800, "strict"), (0x1000, "synthetic")]

/-- The flag of routines without a receiver. -/
def static : Access := ⟨0x0008⟩

/-- A routine that anyone may call without a receiver. -/
def publicStatic : Access := ⟨0x0009⟩

/-- A generated routine that only its own class calls, without a receiver. -/
def privateStaticSynthetic : Access := ⟨0x100A⟩

/-- Whether all of the given flags are set. -/
def has (a flags : Access) : Bool :=
  a.bits &&& flags.bits == flags.bits

/-- The names of the set flags, separated by blanks. -/
def display (a : Access) : String :=
  " ".intercalate ((named.filter fun flag => a.has ⟨flag.1⟩).map (·.2))

end Access

end Outliner
