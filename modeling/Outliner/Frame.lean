import Outliner.JType
import Outliner.SlotMap
import Outliner.Word

/-!
# Abstract frames

A frame says which types the cells of the operand stack and the local slots hold at a point of a
routine. A wide value takes two cells or slots, the second of which holds `top`; a slot without an
entry holds `top` too.

Two frames that reach the same point are merged cell by cell and slot by slot. What the merged type
of two different classes is, a `Hierarchy` decides.
-/

namespace Outliner

/-- Answers the closest common superclass of two classes, both given by internal name. -/
abbrev Hierarchy := String → String → String

/-- The hierarchy in which all classes have nothing but the root in common. -/
def Hierarchy.flat : Hierarchy := fun _ _ => JType.objectClass

/-- The hierarchy given by a table: the superclass of two classes stands under their names in
ascending order with a bar between them. Classes that are not in the table have only the root in
common. -/
def Hierarchy.ofTable (table : List (String × String)) : Hierarchy := fun a b =>
  let key := if b < a then b ++ "|" ++ a else a ++ "|" ++ b
  (table.lookup key).getD JType.objectClass

/-- The types on the operand stack, top first, and in the local slots. -/
structure Frame where
  stack : List JType
  locals : SlotMap JType
  deriving DecidableEq, Repr, Inhabited

/-- Two frames of different stack depth cannot be merged. -/
structure DepthMismatch where
  left : Nat
  right : Nat
  deriving DecidableEq, Repr

namespace JType

/-- Whether the type can be merged with a different one. -/
def isMergeable : JType → Bool
  | array _ | object _ | null => true
  | _ => false

/-- **The type of a value that may be of either type.** Different types that are not both references
to initialized objects have nothing in common. -/
def merge (h : Hierarchy) (a b : JType) : JType :=
  if a = b then a
  else if !a.isMergeable || !b.isMergeable then top
  else if a = null then b
  else if b = null then a
  else ofClassName (h a.internalName b.internalName)

end JType

namespace Frame

/-- The frame with an empty stack and no local set. -/
def empty : Frame := ⟨[], .empty⟩

/-- The number of stack cells. -/
def depth (f : Frame) : Nat := f.stack.length

/-- The cells a value of the type takes on the stack, top first. -/
def cellsOf (t : JType) : List JType :=
  if t.size = 2 then [.top, t] else [t]

/-- Pushes a value. -/
def push (f : Frame) (t : JType) : Frame :=
  { f with stack := cellsOf t ++ f.stack }

/-- Pushes raw cells, the first one deepest. -/
def pushAll (f : Frame) (cells : List JType) : Frame :=
  { f with stack := cells.reverse ++ f.stack }

/-- Takes the top cell off. -/
def popCell? (f : Frame) : Option (JType × Frame) :=
  match f.stack with
  | [] => none
  | t :: rest => some (t, { f with stack := rest })

/-- Takes one value off: two cells when the top one is the second half of a wide value. -/
def pop? (f : Frame) : Option (JType × Frame) :=
  match f.stack with
  | [] => none
  | .top :: t :: rest =>
    if t.size = 2 then some (t, { f with stack := rest })
    else some (.top, { f with stack := t :: rest })
  | t :: rest => some (t, { f with stack := rest })

/-- Takes `n` cells off; gives them top first. -/
def popN? (f : Frame) (n : Nat) : Option (List JType × Frame) :=
  if n ≤ f.depth then some (f.stack.take n, { f with stack := f.stack.drop n }) else none

/-- Empties the operand stack. -/
def clear (f : Frame) : Frame := { f with stack := [] }

/-- The stack cell at a position counted from the bottom. -/
def cell? (f : Frame) (i : Int) : Option JType :=
  if 0 ≤ i then f.stack.reverse[i.toNat]? else none

/-- The stack cells from a position on, bottom first. -/
def cells? (f : Frame) (start : Int) : Option (List JType) :=
  if 0 ≤ start && start ≤ f.depth then some (f.stack.reverse.drop start.toNat) else none

/-- Reads cells as values: a wide value stands for its two cells. -/
def collapse : List JType → List JType
  | [] => []
  | t :: rest =>
    if t.size = 2 then
      match rest with
      | [] => [t]
      | _ :: rest' => t :: collapse rest'
    else t :: collapse rest

/-- The type in a local slot. -/
def slot (f : Frame) (index : Int) : JType :=
  (f.locals.get? index).getD .top

/-- Stores a value in a local slot. A wide value claims the next slot too, and storing into the
second half of a wide value destroys it. -/
def setSlot (f : Frame) (index : Int) (t : JType) : Frame :=
  let before := Word.wrap (index - 1)
  let l := match f.locals.get? before with
    | some prev => if prev.size = 2 then f.locals.insert before .top else f.locals
    | none => f.locals
  let l := l.insert index t
  { f with locals := if t.size = 2 then l.insert (Word.wrap (index + 1)) .top else l }

/-- Replaces a type by another everywhere. -/
def replace (f : Frame) (old new : JType) : Frame where
  stack := f.stack.map fun t => if t = old then new else t
  locals := f.locals.mapWithSlot fun _ t => if t = old then new else t

/-- The merged types of the slots set in `f`. -/
def mergeLocals (h : Hierarchy) (f g : Frame) : SlotMap JType :=
  f.locals.mapWithSlot fun index t => if t = .top then t else t.merge h (g.slot index)

/-- **Merges another frame into this one** and says whether this one changed. -/
def merge (h : Hierarchy) (f g : Frame) : Except DepthMismatch (Frame × Bool) :=
  if f.depth = g.depth then
    let merged : Frame := ⟨List.zipWith (JType.merge h) f.stack g.stack, mergeLocals h f g⟩
    .ok (merged, merged ≠ f)
  else .error ⟨f.depth, g.depth⟩

/-- The text of a frame: the stack bottom first, then the set slots in ascending order. -/
def display (f : Frame) : String :=
  "[" ++ " ".intercalate (f.stack.reverse.map JType.display) ++ "] \x7b" ++
    " ".intercalate (f.locals.toList.map fun e => toString e.1 ++ ":" ++ e.2.display) ++ "\x7d"

end Frame

end Outliner
