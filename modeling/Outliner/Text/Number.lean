import Outliner.Text.Quoted

/-!
# Numbers and truth values in text

How numbers and truth values are read from the command line and the environment. A whole number may
have a sign, a base in front (`0x`, `0o`, `0b`, or a plain `0` for octal), and underscores between
its digits. Digits are read from the left and the first problem met is the one reported.
-/

namespace Outliner.Text

/-- Why a text is no number. -/
inductive NumberFault where
  | syntaxError
  | outOfRange
  deriving DecidableEq, Repr

/-- A text that could not be read, with the name of the reader. -/
structure NumberError where
  reader : String
  text : String
  fault : NumberFault
  deriving DecidableEq, Repr

namespace NumberError

/-- The wording of an error. -/
def message (e : NumberError) : String :=
  "strconv." ++ e.reader ++ ": parsing " ++ quote e.text ++ ": " ++
    match e.fault with
    | .syntaxError => "invalid syntax"
    | .outOfRange => "value out of range"

end NumberError

/-- The small letter of a capital one; other characters stay. Only the letters that numbers are
written with matter. -/
def lowerLetter (c : Char) : Char :=
  if 'A' ≤ c && c ≤ 'Z' then Char.ofNat (c.toNat + 32) else c

/-- The value of a digit in any base up to 36. -/
def digitValue? (c : Char) : Option Nat :=
  let c := lowerLetter c
  if '0' ≤ c && c ≤ '9' then some (c.toNat - 48)
  else if 'a' ≤ c && c ≤ 'z' then some (c.toNat - 87)
  else none

/-- A text without the sign in front of it. -/
def unsigned : List Char → List Char
  | '+' :: rest | '-' :: rest => rest
  | text => text

/-! ### Underscores -/

/-- What came last on the way through a number. -/
inductive Previous where
  | start
  | digit
  | underscore
  | other
  deriving DecidableEq, Repr

/-- Whether every underscore from here on stands between digits. -/
def underscoresFrom (hex : Bool) : Previous → List Char → Bool
  | previous, [] => previous ≠ .underscore
  | previous, c :: rest =>
    let c := lowerLetter c
    if ('0' ≤ c && c ≤ '9') || (hex && 'a' ≤ c && c ≤ 'f') then underscoresFrom hex .digit rest
    else if c = '_' then previous = .digit && underscoresFrom hex .underscore rest
    else previous ≠ .underscore && underscoresFrom hex .other rest

/-- Whether the underscores of a number stand between digits, or between the base and a digit. -/
def underscoresFit (text : List Char) : Bool :=
  match unsigned text with
  | '0' :: c :: rest =>
    let c := lowerLetter c
    if c = 'b' || c = 'o' || c = 'x' then underscoresFrom (c = 'x') .digit rest
    else underscoresFrom false .start (unsigned text)
  | text => underscoresFrom false .start text

/-! ### Whole numbers -/

/-- The base of a number and its digits. A base needs a digit after it. -/
def splitBase : List Char → Nat × List Char
  | '0' :: c :: d :: rest =>
    match lowerLetter c with
    | 'b' => (2, d :: rest)
    | 'o' => (8, d :: rest)
    | 'x' => (16, d :: rest)
    | _ => (8, c :: d :: rest)
  | '0' :: rest => (8, rest)
  | text => (10, text)

/-- Reads digits, skipping underscores, up to a greatest value. -/
def readDigits (base greatest : Nat) : List Char → (value : Nat) → Except NumberFault Nat
  | [], value => .ok value
  | '_' :: rest, value => readDigits base greatest rest value
  | c :: rest, value =>
    match digitValue? c with
    | none => .error .syntaxError
    | some d =>
      if base ≤ d then .error .syntaxError
      else if greatest < value * base + d then .error .outOfRange
      else readDigits base greatest rest (value * base + d)

/-- Reads a number without a sign of so many bits. -/
def readMagnitude (bits : Nat) (text : List Char) : Except NumberFault Nat :=
  if text.isEmpty then .error .syntaxError
  else
    let (base, digits) := splitBase text
    match readDigits base (Nat.pow 2 bits - 1) digits 0 with
    | .error fault => .error fault
    | .ok n => if text.contains '_' && !underscoresFit text then .error .syntaxError else .ok n

/-- Whether a text begins with a minus sign. -/
def isNegative : List Char → Bool
  | '-' :: _ => true
  | _ => false

/-- Reads a number of so many bits with a sign. -/
def readSigned (bits : Nat) (text : List Char) : Except NumberFault Int :=
  match readMagnitude bits (unsigned text) with
  | .error fault => .error fault
  | .ok n =>
    if isNegative text then
      if Nat.pow 2 (bits - 1) < n then .error .outOfRange else .ok (-n)
    else if Nat.pow 2 (bits - 1) ≤ n then .error .outOfRange
    else .ok n

/-- **Reads a whole number** of so many bits. -/
def readInteger (bits : Nat) (s : String) : Except NumberError Int :=
  match readSigned bits s.toList with
  | .ok n => .ok n
  | .error fault => .error ⟨"ParseInt", s, fault⟩

/-- Reads a whole number written with decimal digits only, if it has 64 bits. -/
def readDecimal? (s : String) : Option Int :=
  let digits := unsigned s.toList
  if digits.isEmpty || !digits.all (fun c => '0' ≤ c && c ≤ '9') then none
  else
    let n : Nat := digits.foldl (fun n c => n * 10 + (c.toNat - 48)) 0
    let n : Int := if isNegative s.toList then -n else n
    if -0x8000000000000000 ≤ n ∧ n < 0x8000000000000000 then some n else none

/-! ### Truth values -/

/-- **Reads a truth value.** -/
def readBool (s : String) : Except NumberError Bool :=
  if ["1", "t", "T", "TRUE", "true", "True"].contains s then .ok true
  else if ["0", "f", "F", "FALSE", "false", "False"].contains s then .ok false
  else .error ⟨"ParseBool", s, .syntaxError⟩

end Outliner.Text
