import Outliner.Bytes
import Outliner.Cbor.Item

/-!
# Reading data items

`Item.decode` reads exactly one well-formed item. Lengths may be written in front or left open, but
items must not nest deeper than 32 levels, where each list or map counts, and so does each tag after
the first of a run of tags; and no list or map may have more than 131072 elements or entries.
-/

namespace Outliner.Cbor

/-- Why bytes are no data item. -/
inductive ReadError where
  | unexpectedEnd
  | reservedInfo
  | straySimple
  | strayBreak
  | badPiece
  | tooLong
  | tooDeep
  | tooMany
  | oddEntries
  | trailing
  deriving DecidableEq, Repr

/-- How deep items may nest. -/
def maxLevels : Nat := 32

/-- How many elements or entries a list or map may have. -/
def maxElements : Nat := 131072

/-- The start of an item: its major type, the low five bits of the first byte, and the number that
they or the following bytes give. -/
structure Head where
  major : Nat
  info : Nat
  value : Nat

/-- The first `n` bytes and the rest. -/
def takeBytes (n : Nat) (bytes : List UInt8) : Except ReadError (List UInt8 × List UInt8) :=
  let taken := bytes.take n
  if taken.length = n then .ok (taken, bytes.drop n) else .error .unexpectedEnd

/-- Reads the start of an item. A length is left open by the low bits 31. -/
def readHead : List UInt8 → Except ReadError (Head × List UInt8)
  | [] => .error .unexpectedEnd
  | b :: rest =>
    let major := b.toNat / 32
    let info := b.toNat % 32
    let following (count : Nat) : Except ReadError (Head × List UInt8) := do
      let (taken, rest) ← takeBytes count rest
      return (⟨major, info, Bytes.toNat taken⟩, rest)
    if info < 24 then .ok (⟨major, info, info⟩, rest)
    else match info with
      | 24 => do
        let (h, rest) ← following 1
        if major = 7 && h.value < 32 then .error .straySimple else return (h, rest)
      | 25 => following 2
      | 26 => following 4
      | 27 => following 8
      | 31 =>
        if major = 7 then .error .strayBreak
        else if major = 0 || major = 1 || major = 6 then .error .reservedInfo
        else .ok (⟨major, info, info⟩, rest)
      | _ => .error .reservedInfo

/-- A length that memory can hold. -/
def checkLength (n : Nat) : Except ReadError Nat :=
  if n < 0x8000000000000000 then .ok n else .error .tooLong

/-- Reads the pieces of a string of the given major type up to the break; `fuel` bounds their
number. -/
def readPieces (major : Nat) :
    (fuel : Nat) → List UInt8 → List (List UInt8) →
      Except ReadError (List (List UInt8) × List UInt8)
  | 0, _, _ => .error .unexpectedEnd
  | _ + 1, [], _ => .error .unexpectedEnd
  | fuel + 1, b :: rest, pieces => do
    if b = 0xff then return (pieces.reverse, rest)
    else
      let (h, rest) ← readHead (b :: rest)
      if h.major ≠ major || h.info = 31 then .error .badPiece
      else
        let (piece, rest) ← takeBytes (← checkLength h.value) rest
        readPieces major fuel rest (piece :: pieces)

/-- Reads a given number of items. -/
def readCount (item : List UInt8 → Except ReadError (Item × List UInt8)) :
    (count : Nat) → List UInt8 → List Item → Except ReadError (List Item × List UInt8)
  | 0, bytes, items => .ok (items.reverse, bytes)
  | count + 1, bytes, items =>
    match item bytes with
    | .ok (i, rest) => readCount item count rest (i :: items)
    | .error e => .error e

/-- Reads items up to the break; `fuel` bounds their number. -/
def readOpen (item : List UInt8 → Except ReadError (Item × List UInt8)) :
    (fuel : Nat) → List UInt8 → List Item → Except ReadError (List Item × List UInt8)
  | 0, _, _ => .error .unexpectedEnd
  | _ + 1, [], _ => .error .unexpectedEnd
  | fuel + 1, b :: rest, items =>
    if b = 0xff then .ok (items.reverse, rest)
    else match item (b :: rest) with
      | .ok (i, rest) => readOpen item fuel rest (i :: items)
      | .error e => .error e

/-- Pairs keys with values; fails when a value is missing. -/
def pairUp : List Item → List (Item × Item) → Except ReadError (List (Item × Item))
  | [], entries => .ok entries.reverse
  | [_], _ => .error .oddEntries
  | key :: value :: rest, entries => pairUp rest ((key, value) :: entries)

/-- Reads the tags in front of an item, the first of which has been read already. Gives their
numbers, innermost first, and the levels left. -/
def readTags : (levels : Nat) → List UInt8 → List Nat →
    Except ReadError (List Nat × Nat × List UInt8)
  | levels, bytes, tags =>
    match bytes with
    | [] => .error .unexpectedEnd
    | b :: rest =>
      if b.toNat / 32 = 6 then
        match readHead (b :: rest) with
        | .error e => .error e
        | .ok (h, rest) =>
          match levels with
          | 0 => .error .tooDeep
          | levels + 1 => readTags levels rest (h.value :: tags)
      else .ok (tags, levels, bytes)

/-- Reads the contents of a list or map, given what reads an element. -/
def readContents (item : List UInt8 → Except ReadError (Item × List UInt8)) (h : Head)
    (bytes : List UInt8) : Except ReadError (List Item × List UInt8) := do
  let width := if h.major = 5 then 2 else 1
  if h.info = 31 then
    let (items, rest) ← readOpen item (bytes.length + 1) bytes []
    if maxElements < items.length / width then .error .tooMany else return (items, rest)
  else
    let count ← checkLength h.value
    if maxElements < count then .error .tooMany else readCount item (width * count) bytes []

/-- The item of a number read after the major type 7. -/
def simpleOrFloat (h : Head) : Item :=
  match h.info with
  | 25 => .float 2 h.value
  | 26 => .float 4 h.value
  | 27 => .float 8 h.value
  | _ => .simple h.value

/-- Reads one item that may nest the given number of levels; `fuel` is larger than that number. -/
def readItem : (fuel levels : Nat) → List UInt8 → Except ReadError (Item × List UInt8)
  | 0, _, _ => .error .tooDeep
  | fuel + 1, levels, bytes => do
    let (h, rest) ← readHead bytes
    let (tags, levels, h, rest) ←
      if h.major = 6 then do
        let (tags, levels, rest) ← readTags levels rest [h.value]
        let (h, rest) ← readHead rest
        pure (tags, levels, h, rest)
      else pure ([], levels, h, rest)
    let (item, rest) ← match h.major with
      | 0 => pure (Item.unsigned h.value, rest)
      | 1 => pure (Item.negative h.value, rest)
      | 2 | 3 => do
        let (pieces, rest) ←
          if h.info = 31 then readPieces h.major (rest.length + 1) rest []
          else do
            let (piece, rest) ← takeBytes (← checkLength h.value) rest
            pure ([piece], rest)
        pure (if h.major = 2 then Item.bytes pieces.flatten else Item.text pieces, rest)
      | 4 | 5 =>
        match levels with
        | 0 => .error .tooDeep
        | levels + 1 => do
          let (items, rest) ← readContents (readItem fuel levels) h rest
          if h.major = 4 then pure (Item.array items, rest)
          else pure (Item.map (← pairUp items []), rest)
      | _ => pure (simpleOrFloat h, rest)
    return (tags.foldl (fun item tag => .tag tag item) item, rest)

/-- **Reads bytes that are exactly one item.** -/
def Item.decode (bytes : List UInt8) : Except ReadError Item := do
  let (item, rest) ← readItem (maxLevels + 2) maxLevels bytes
  if rest.isEmpty then return item else .error .trailing

end Outliner.Cbor
