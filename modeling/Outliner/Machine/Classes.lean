/-!
# Classes

What the machine knows of classes: the superclass of some of them. A class without an entry is a
direct subclass of the root.
-/

namespace Outliner

/-- Superclasses by class; the first entry for a class counts. -/
structure Classes where
  supers : List (String × String)
  deriving DecidableEq, Repr, Inhabited

namespace Classes

/-- The root of all classes. -/
def root : String := "java/lang/Object"

/-- The classes a machine knows from the start. -/
def builtin : Classes where
  supers := [
    ("java/lang/Throwable", "java/lang/Object"),
    ("java/lang/Exception", "java/lang/Throwable"),
    ("java/lang/Error", "java/lang/Throwable"),
    ("java/lang/RuntimeException", "java/lang/Exception"),
    ("java/lang/ArithmeticException", "java/lang/RuntimeException"),
    ("java/lang/NullPointerException", "java/lang/RuntimeException"),
    ("java/lang/ClassCastException", "java/lang/RuntimeException"),
    ("java/lang/NegativeArraySizeException", "java/lang/RuntimeException"),
    ("java/lang/IndexOutOfBoundsException", "java/lang/RuntimeException"),
    ("java/lang/ArrayIndexOutOfBoundsException", "java/lang/IndexOutOfBoundsException"),
    ("java/lang/ArrayStoreException", "java/lang/RuntimeException"),
    ("java/lang/IllegalArgumentException", "java/lang/RuntimeException"),
    ("java/lang/IllegalStateException", "java/lang/RuntimeException"),
    ("java/lang/Number", "java/lang/Object"),
    ("java/lang/Integer", "java/lang/Number"),
    ("java/lang/Long", "java/lang/Number"),
    ("java/lang/Float", "java/lang/Number"),
    ("java/lang/Double", "java/lang/Number"),
    ("java/lang/Short", "java/lang/Number"),
    ("java/lang/Byte", "java/lang/Number"),
    ("java/lang/Character", "java/lang/Object"),
    ("java/lang/Boolean", "java/lang/Object"),
    ("java/lang/String", "java/lang/Object"),
    ("java/lang/Class", "java/lang/Object")]

/-- Declares the superclass of a class. -/
def declare (c : Classes) (className super : String) : Classes :=
  ⟨(className, super) :: c.supers⟩

/-- The superclass of a class; none for the root and for a class declared without one. -/
def superOf? (c : Classes) (className : String) : Option String :=
  if className = root then none
  else match c.supers.lookup className with
    | some super => if super.isEmpty then none else some super
    | none => some root

/-- A class and its superclasses, at most `count` of them. -/
def climb (c : Classes) : (count : Nat) → Option String → List String
  | 0, _ => []
  | _, none => []
  | count + 1, some className => className :: c.climb count (c.superOf? className)

/-- A class and its superclasses, from the class up to the root. No chain is longer than the number
of declared classes and two more. -/
def lineage (c : Classes) (className : Option String) : List String :=
  c.climb (c.supers.length + 2) className

/-- Whether a class is another one or one of its subclasses. An array is an instance of the root and
of its own type only. -/
def isInstance (c : Classes) (className target : String) : Bool :=
  target = root || className = target ||
    (!className.startsWith "[" && (c.lineage (c.superOf? className)).contains target)

end Classes

end Outliner
