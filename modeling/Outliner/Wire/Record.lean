import Outliner.Bytes
import Outliner.Cbor.Item
import Outliner.Wire.Form

/-!
# Routine records as data items

A record is a map from field numbers to values. Fields that are absent have their zero value, and
zero values of most fields are not written.

Reading is lenient where nothing is lost by it: unknown fields are skipped, a field number may be
written as text, the first of several values of one field counts, null stands for the zero value,
and tags that say nothing about the value are passed over. It is strict about the kinds of values
and the ranges of numbers.
-/

namespace Outliner.Wire

open Cbor (Item)

/-! ### Writing -/

/-- The record of the fields that are present, in the given order. -/
def record (fields : List (Nat × Option Item)) : Item :=
  .map (fields.filterMap fun (number, value) => value.map fun v => (.unsigned number, v))

/-- A number, left out if it is zero. -/
def numberUnlessZero (n : Int) : Option Item :=
  if n = 0 then none else some (.ofInt n)

/-- A text, left out if it is empty. -/
def textUnlessEmpty (s : String) : Option Item :=
  if s = "" then none else some (.ofString s)

/-- A list, left out if it is empty. -/
def listUnlessEmpty (items : List Item) : Option Item :=
  if items.isEmpty then none else some (.array items)

/-- The record of an instruction. -/
def InsnForm.toItem (f : InsnForm) : Item :=
  record [
    (1, some (.ofInt f.op)),
    (2, textUnlessEmpty f.marker),
    (3, numberUnlessZero f.int),
    (4, numberUnlessZero f.slot),
    (5, textUnlessEmpty f.owner),
    (6, textUnlessEmpty f.name),
    (7, textUnlessEmpty f.descriptor),
    (8, if f.onInterface then some (.ofBool true) else none),
    (9, textUnlessEmpty f.constant),
    (10, numberUnlessZero f.bits.toNat),
    (11, numberUnlessZero f.label),
    (12, listUnlessEmpty (f.labels.map .ofInt)),
    (13, listUnlessEmpty (f.keys.map fun k => .ofInt k.toInt))]

/-- The record of a protected block. -/
def BlockForm.toItem (f : BlockForm) : Item :=
  record [
    (1, some (.ofInt f.start)),
    (2, some (.ofInt f.stop)),
    (3, some (.ofInt f.handler)),
    (4, textUnlessEmpty f.type)]

/-- The record of a routine. -/
def RoutineForm.toItem (f : RoutineForm) : Item :=
  record [
    (1, some (.ofInt f.version)),
    (2, some (.ofString f.owner)),
    (3, some (.ofString f.name)),
    (4, some (.ofString f.descriptor)),
    (5, some (.ofInt f.access.toNat)),
    (6, some (.ofInt f.maxLocals)),
    (7, numberUnlessZero f.maxStack),
    (8, some (.array (f.insns.map InsnForm.toItem))),
    (9, listUnlessEmpty (f.blocks.map BlockForm.toItem))]

/-! ### Reading -/

/-- The item under all tags. Tags 0 to 3 restrict what they may stand on; a big number under tag 2
or 3 becomes a plain one if it is in the range of plain ones. -/
def untagged : Item → Option Item
  | .tag number content =>
    match number, content with
    | 0, .text pieces => some (.text pieces)
    | 0, _ => none
    | 1, .unsigned n => some (.unsigned n)
    | 1, .negative n => some (.negative n)
    | 1, .float width bits => some (.float width bits)
    | 1, _ => none
    | 2, .bytes b =>
      if Bytes.toNat b < 0x10000000000000000 then some (.unsigned (Bytes.toNat b)) else none
    | 2, _ => none
    | 3, .bytes b =>
      if Bytes.toNat b < 0x8000000000000000 then some (.negative (Bytes.toNat b)) else none
    | 3, _ => none
    | _, content => untagged content
  | item => some item

/-- Whether an item stands for no value: null or undefined. -/
def isNull : Item → Bool
  | .simple 22 | .simple 23 => true
  | _ => false

/-- A whole number between two bounds. Simple values without a meaning of their own count as
numbers. -/
def readNumber (low high : Int) (item : Item) : Option Int := do
  let within (n : Int) : Option Int := if low ≤ n ∧ n ≤ high then some n else none
  match ← untagged item with
  | .unsigned n => within n
  | .negative n => within (-1 - n)
  | .simple 20 | .simple 21 => none
  | .simple 22 | .simple 23 => some 0
  | .simple n => within n
  | _ => none

/-- A signed number of 64 bits. -/
def readInt : Item → Option Int :=
  readNumber (-0x8000000000000000) 0x7fffffffffffffff

/-- The text that pieces are of, when each of them is text by itself. -/
def pieceText (pieces : List (List UInt8)) : Option String := do
  let texts ← pieces.mapM fun p => String.fromUTF8? ⟨p.toArray⟩
  return String.join texts

/-- A text. -/
def readText (item : Item) : Option String := do
  match ← untagged item with
  | .text pieces => pieceText pieces
  | .simple 22 | .simple 23 => some ""
  | _ => none

/-- A truth value. -/
def readBool (item : Item) : Option Bool := do
  match ← untagged item with
  | .simple 20 | .simple 22 | .simple 23 => some false
  | .simple 21 => some true
  | _ => none

/-- A list of values. -/
def readList {α : Type} (read : Item → Option α) (item : Item) : Option (List α) := do
  match ← untagged item with
  | .array items => items.mapM read
  | .simple 22 | .simple 23 => some []
  | _ => none

/-- Which of the fields numbered 1 to `count` a key is for, if any; nothing if it is not fit for a
key. -/
def fieldOf (count : Nat) (key : Item) : Option (Option Nat) :=
  match key with
  | .unsigned n => some (if 1 ≤ n ∧ n ≤ count then some n else none)
  | .negative n => if n < 0x8000000000000000 then some none else none
  | .text pieces => do
    let name ← pieceText pieces
    return (List.range' 1 count).find? fun n => toString n = name
  | _ => none

/-- Reads the entries of a record whose fields are numbered 1 to `count`, skipping those of fields
seen before. -/
def readEntries {α : Type} (count : Nat) (put : α → Nat → Item → Option α) :
    List (Item × Item) → (seen : List Nat) → α → Option α
  | [], _, r => some r
  | (key, value) :: rest, seen, r =>
    match fieldOf count key with
    | none => none
    | some none => readEntries count put rest seen r
    | some (some n) =>
      if n ∈ seen then readEntries count put rest seen r
      else match put r n value with
        | none => none
        | some r => readEntries count put rest (n :: seen) r

/-- Reads a record, starting from the record of zero values. -/
def readRecord {α : Type} (count : Nat) (put : α → Nat → Item → Option α) (zero : α) (item : Item) :
    Option α := do
  match ← untagged item with
  | .map entries => readEntries count put entries [] zero
  | .simple 22 | .simple 23 => some zero
  | _ => none

/-- Reads the record of an instruction. -/
def InsnForm.ofItem : Item → Option InsnForm :=
  readRecord 13 (fun f number value =>
    match number with
    | 1 => (readInt value).map fun n => { f with op := n }
    | 2 => (readText value).map fun s => { f with marker := s }
    | 3 => (readInt value).map fun n => { f with int := n }
    | 4 => (readInt value).map fun n => { f with slot := n }
    | 5 => (readText value).map fun s => { f with owner := s }
    | 6 => (readText value).map fun s => { f with name := s }
    | 7 => (readText value).map fun s => { f with descriptor := s }
    | 8 => (readBool value).map fun b => { f with onInterface := b }
    | 9 => (readText value).map fun s => { f with constant := s }
    | 10 => (readNumber 0 0xffffffffffffffff value).map fun n =>
      { f with bits := UInt64.ofNat n.toNat }
    | 11 => (readInt value).map fun n => { f with label := n }
    | 12 => (readList readInt value).map fun l => { f with labels := l }
    | _ => (readList (readNumber (-0x80000000) 0x7fffffff) value).map fun l =>
      { f with keys := l.map Int32.ofInt }) {}

/-- Reads the record of a protected block. -/
def BlockForm.ofItem : Item → Option BlockForm :=
  readRecord 4 (fun f number value =>
    match number with
    | 1 => (readInt value).map fun n => { f with start := n }
    | 2 => (readInt value).map fun n => { f with stop := n }
    | 3 => (readInt value).map fun n => { f with handler := n }
    | _ => (readText value).map fun s => { f with type := s }) {}

/-- Reads the record of a routine. -/
def RoutineForm.ofItem : Item → Option RoutineForm :=
  readRecord 9 (fun f number value =>
    match number with
    | 1 => (readInt value).map fun n => { f with version := n }
    | 2 => (readText value).map fun s => { f with owner := s }
    | 3 => (readText value).map fun s => { f with name := s }
    | 4 => (readText value).map fun s => { f with descriptor := s }
    | 5 => (readNumber 0 0xffff value).map fun n => { f with access := UInt16.ofNat n.toNat }
    | 6 => (readInt value).map fun n => { f with maxLocals := n }
    | 7 => (readInt value).map fun n => { f with maxStack := n }
    | 8 => (readList InsnForm.ofItem value).map fun l => { f with insns := l }
    | _ => (readList BlockForm.ofItem value).map fun l => { f with blocks := l }) {}

end Outliner.Wire
