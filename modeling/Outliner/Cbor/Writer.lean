import Outliner.Bytes
import Outliner.Cbor.Item

/-!
# Writing data items

Items in the shortest form: every number takes the fewest bytes that hold it, and every length is
written in front.
-/

namespace Outliner.Cbor

/-- The first bytes of an item: its major type, and a number that is its value or its length. -/
def head (major : Nat) (n : Nat) : List UInt8 :=
  let first (info : Nat) : UInt8 := UInt8.ofNat (major * 32 + info)
  if n < 24 then [first n]
  else if n < 0x100 then first 24 :: Bytes.bigEndian 1 n
  else if n < 0x10000 then first 25 :: Bytes.bigEndian 2 n
  else if n < 0x100000000 then first 26 :: Bytes.bigEndian 4 n
  else first 27 :: Bytes.bigEndian 8 n

mutual

/-- Appends the bytes of an item. -/
def Item.emit : Item → Array UInt8 → Array UInt8
  | .unsigned n, out => out.appendList (head 0 n)
  | .negative n, out => out.appendList (head 1 n)
  | .bytes content, out => (out.appendList (head 2 content.length)).appendList content
  | .text pieces, out =>
    (out.appendList (head 3 pieces.flatten.length)).appendList pieces.flatten
  | .array items, out => emitItems items (out.appendList (head 4 items.length))
  | .map entries, out => emitEntries entries (out.appendList (head 5 entries.length))
  | .tag number content, out => content.emit (out.appendList (head 6 number))
  | .simple n, out => out.appendList (if n < 24 then head 7 n else [0xf8, UInt8.ofNat n])
  | .float width bits, out =>
    let info := match width with
      | 2 => 25
      | 4 => 26
      | _ => 27
    (out.push (UInt8.ofNat (0xe0 + info))).appendList (Bytes.bigEndian width bits)

/-- Appends the bytes of items one after the other. -/
def emitItems : List Item → Array UInt8 → Array UInt8
  | [], out => out
  | item :: rest, out => emitItems rest (item.emit out)

/-- Appends the bytes of the entries of a map one after the other. -/
def emitEntries : List (Item × Item) → Array UInt8 → Array UInt8
  | [], out => out
  | (key, value) :: rest, out => emitEntries rest (value.emit (key.emit out))

end

/-- **The bytes of an item.** -/
def Item.encode (item : Item) : List UInt8 :=
  (item.emit #[]).toList

end Outliner.Cbor
