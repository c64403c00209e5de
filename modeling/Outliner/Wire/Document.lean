import Outliner.Cbor.Reader
import Outliner.Cbor.Writer
import Outliner.Sha256
import Outliner.Stop
import Outliner.Wire.Record

/-!
# Routine documents

The bytes in which routines are kept. A document holds one routine, or a list of routines. The bytes
of a routine are determined by it, so that their digest identifies it.

How records are put into bytes is a matter of the format, and a `Codec` is all that the rest knows
of it. The one that documents are kept in is `Codec.cbor`.
-/

namespace Outliner.Wire

open Cbor (Item)

/-- **A format for records**: how one of them, and a list of them, is written to bytes and read. -/
structure Codec where
  write : RoutineForm → Except WireError (List UInt8)
  writeAll : List RoutineForm → Except WireError (List UInt8)
  read : List UInt8 → Except WireError RoutineForm
  /-- An entry that is null is no record. -/
  readAll : List UInt8 → Except WireError (List (Option RoutineForm))

namespace Codec

variable (c : Codec)

/-- The document of a routine. -/
def encode (r : Routine) : Except WireError (List UInt8) := do
  c.write (← ofRoutine r)

/-- The document of a list of routines. -/
def encodeAll (rs : List Routine) : Except WireError (List UInt8) := do
  c.writeAll (← rs.mapM ofRoutine)

/-- The routine in a document. -/
def decode (bytes : List UInt8) : Except WireError Routine := do
  toRoutine (← c.read bytes)

/-- The routines in a document that holds a list of them. A missing record is a breakdown when its
turn comes. -/
def decodeAll (bytes : List UInt8) : Answer WireError (List Routine) := do
  let forms ← Answer.ofExcept (c.readAll bytes)
  forms.mapM fun form? => do
    Answer.ofExcept (toRoutine (← Answer.require form?))

/-! ### Records as data items -/

/-- The single item that bytes hold, as something of a kind. -/
def readItem {α : Type} (ofItem : Item → Option α) (bytes : List UInt8) : Except WireError α :=
  match Item.decode bytes with
  | .ok item => (ofItem item).elim (.error .unreadable) .ok
  | .error _ => .error .unreadable

/-- An entry of a list of records. -/
def entryOfItem (item : Item) : Option (Option RoutineForm) :=
  if isNull item then some none else (RoutineForm.ofItem item).map some

/-- Each record is a data item, and a list of records is an array. -/
def cbor : Codec where
  write form := .ok form.toItem.encode
  writeAll forms := .ok (Item.array (forms.map RoutineForm.toItem)).encode
  read := readItem RoutineForm.ofItem
  readAll := readItem (readList entryOfItem)

end Codec

/-! ### Documents -/

/-- **The document of a routine.** -/
def encode (r : Routine) : Except WireError (List UInt8) :=
  Codec.cbor.encode r

/-- The document of a list of routines. -/
def encodeAll (rs : List Routine) : Except WireError (List UInt8) :=
  Codec.cbor.encodeAll rs

/-- **The routine in a document.** -/
def decode (bytes : List UInt8) : Except WireError Routine :=
  Codec.cbor.decode bytes

/-- The routines in a document that holds a list of them. -/
def decodeAll (bytes : List UInt8) : Answer WireError (List Routine) :=
  Codec.cbor.decodeAll bytes

/-- The digest that identifies a routine. -/
def digest (r : Routine) : Except WireError (List UInt8) :=
  (encode r).map Sha256.digest

end Outliner.Wire
