/-!
# Data items

The data model of the binary object format in which routines are stored: numbers, byte and text
strings, lists, maps, tagged items, simple values and floating-point numbers.
-/

namespace Outliner.Cbor

/-- A data item. -/
inductive Item where
  /-- A number from zero on. -/
  | unsigned (n : Nat)
  /-- The number `-1 - n`. -/
  | negative (n : Nat)
  | bytes (content : List UInt8)
  /-- Text in the pieces it was written in; each piece is meant to be text of its own. -/
  | text (pieces : List (List UInt8))
  | array (items : List Item)
  | map (entries : List (Item × Item))
  | tag (number : Nat) (content : Item)
  /-- A simple value; 20 to 23 are false, true, null and undefined. -/
  | simple (n : Nat)
  /-- A floating-point number of the given number of bytes. -/
  | float (width : Nat) (bits : Nat)
  deriving Repr, Inhabited

namespace Item

/-- A text item written in one piece. -/
def ofString (s : String) : Item :=
  .text [s.toUTF8.toList]

/-- A whole number. -/
def ofInt (n : Int) : Item :=
  if n < 0 then .negative (-1 - n).toNat else .unsigned n.toNat

/-- A truth value. -/
def ofBool (b : Bool) : Item :=
  .simple (if b then 21 else 20)

end Item

end Outliner.Cbor
