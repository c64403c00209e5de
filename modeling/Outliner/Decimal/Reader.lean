import Outliner.Decimal.Nearest
import Outliner.Text.Number

/-!
# Reading floating-point numbers

A floating-point number is written in decimal with an optional exponent after `e`, or in hexadecimal
with an exponent of two after `p`; it may also be an infinity or `nan`. Underscores may stand
between digits. The result is the nearest number of the format.
-/

namespace Outliner.Decimal

open Shortest (Ratio)
open Text (NumberFault NumberError digitValue? lowerLetter underscoresFit unsigned)

/-- A written number, the sign apart: the digits before and after the point, and the exponent. -/
structure Written where
  hex : Bool
  whole : List Nat
  fraction : List Nat
  exponent : Int
  deriving DecidableEq, Repr

/-- Reads digits of a base, skipping underscores, in order after those given in reverse; gives the
rest too. -/
def scanDigits (base : Nat) : List Char → List Nat → List Nat × List Char
  | [], digits => (digits.reverse, [])
  | c :: rest, digits =>
    if c = '_' then scanDigits base rest digits
    else match digitValue? c with
      | some d =>
        if d < base then scanDigits base rest (d :: digits) else (digits.reverse, c :: rest)
      | none => (digits.reverse, c :: rest)

/-- The value of an exponent. What has five digits is beyond every format, so the digits after them
are not counted. -/
def exponentValue (digits : List Nat) : Nat :=
  digits.foldl (fun e d => if e < 10000 then e * 10 + d else e) 0

/-- Reads the exponent that makes up a text. -/
def scanExponent (text : List Char) : Option Int :=
  match unsigned text with
  | [] => none
  | '_' :: _ => none
  | digits =>
    match scanDigits 10 digits [] with
    | (ds, []) => some (if Text.isNegative text then -(exponentValue ds) else exponentValue ds)
    | _ => none

/-- Reads the number that makes up a text without a sign. -/
def scanNumber (text : List Char) : Option Written :=
  let (hex, mantissa) := match text with
    | '0' :: x :: d :: rest => if lowerLetter x = 'x' then (true, d :: rest) else (false, text)
    | _ => (false, text)
  let base := if hex then 16 else 10
  let (whole, rest) := scanDigits base mantissa []
  let (fraction, rest) := match rest with
    | '.' :: rest => scanDigits base rest []
    | rest => ([], rest)
  if whole.isEmpty && fraction.isEmpty then none
  else match rest with
    | [] => if hex then none else some ⟨hex, whole, fraction, 0⟩
    | c :: rest =>
      if lowerLetter c = (if hex then 'p' else 'e') then
        (scanExponent rest).map fun e => ⟨hex, whole, fraction, e⟩
      else none

/-- The number that digits of a base stand for. -/
def digitsValue (base : Nat) (digits : List Nat) : Nat :=
  digits.foldl (fun n d => n * base + d) 0

namespace Written

/-- The power of ten just above a decimal number. -/
def magnitude (w : Written) : Int :=
  let digits := w.whole ++ w.fraction
  (w.whole.length : Int) - (digits.takeWhile (· = 0)).length + w.exponent

/-- The bit pattern of the nearest number of a format. Decimal numbers far beyond the greatest and
the smallest one are settled by their magnitude. -/
def nearest (f : BinaryFormat) (w : Written) : Option Nat :=
  let places : Int := w.fraction.length
  if w.hex then
    Decimal.nearest f (halved ⟨digitsValue 16 (w.whole ++ w.fraction), 1⟩ (4 * places - w.exponent))
  else
    let value := digitsValue 10 (w.whole ++ w.fraction)
    if value = 0 || w.magnitude < -330 then some 0
    else if 310 < w.magnitude then none
    else Decimal.nearest f (Ratio.shift ⟨value, 1⟩ (places - w.exponent))

end Written

/-- The bit pattern of positive infinity. -/
def infinityBits (f : BinaryFormat) : Nat :=
  f.specialField * Nat.pow 2 f.mantissaBits

/-- A bit pattern that is no number. -/
def notNumberBits (f : BinaryFormat) : Nat :=
  infinityBits f + Nat.pow 2 (f.mantissaBits - 1)

/-- The bit pattern of a format that a text stands for. -/
def readBits (f : BinaryFormat) (text : List Char) : Except NumberFault Nat :=
  let sign := if Text.isNegative text then Nat.pow 2 (f.mantissaBits + f.exponentBits) else 0
  let word := String.ofList ((unsigned text).map lowerLetter)
  if word = "inf" || word = "infinity" then .ok (sign + infinityBits f)
  else if String.ofList (text.map lowerLetter) = "nan" then .ok (notNumberBits f)
  else match scanNumber (unsigned text) with
    | none => .error .syntaxError
    | some w =>
      if text.contains '_' && !underscoresFit text then .error .syntaxError
      else match w.nearest f with
        | some bits => .ok (sign + bits)
        | none => .error .outOfRange

/-- A reader of floating-point numbers with its errors. -/
def readNumber (f : BinaryFormat) (s : String) : Except NumberError Nat :=
  match readBits f s.toList with
  | .ok bits => .ok bits
  | .error fault => .error ⟨"ParseFloat", s, fault⟩

/-- **Reads a floating-point number of four bytes.** -/
def readSingle (s : String) : Except NumberError UInt32 :=
  (readNumber .single s).map UInt32.ofNat

/-- **Reads a floating-point number of eight bytes.** -/
def readDouble (s : String) : Except NumberError UInt64 :=
  (readNumber .double s).map UInt64.ofNat

end Outliner.Decimal
