import Outliner.Text.Printable

/-!
# Quoted text

How a text or a character is shown inside a message: between quotes, with the quote and the
backslash escaped, the seven control letters (`\a` to `\v`), and every other unprintable character
as its code in hexadecimal. A text cut in the middle of a character shows the bytes it kept of that
character one by one.
-/

namespace Outliner.Text

/-- The lower-case hexadecimal digit of a number below 16. -/
def hexDigit (n : Nat) : Char :=
  if n < 10 then Char.ofNat (48 + n) else Char.ofNat (87 + n)

/-- The last `width` hexadecimal digits of `n`, most significant first. -/
def hexDigits : (width : Nat) → Nat → List Char
  | 0, _ => []
  | width + 1, n => hexDigits width (n / 16) ++ [hexDigit (n % 16)]

/-- One byte as an escape: a backslash, an `x` and two hexadecimal digits. -/
def escapeByte (b : UInt8) : List Char :=
  '\\' :: 'x' :: hexDigits 2 b.toNat

/-- The letter that names a control character after a backslash. -/
def controlLetter? (c : Char) : Option Char :=
  match c.toNat with
  | 7 => some 'a'
  | 8 => some 'b'
  | 12 => some 'f'
  | 10 => some 'n'
  | 13 => some 'r'
  | 9 => some 't'
  | 11 => some 'v'
  | _ => none

/-- One character inside text that stands between the given quotes. -/
def escapeChar (mark c : Char) : List Char :=
  if c = mark || c = '\\' then ['\\', c]
  else if isPrintable c then [c]
  else match controlLetter? c with
    | some letter => ['\\', letter]
    | none =>
      if c.toNat < 32 || c.toNat = 127 then '\\' :: 'x' :: hexDigits 2 c.toNat
      else if c.toNat < 0x10000 then '\\' :: 'u' :: hexDigits 4 c.toNat
      else '\\' :: 'U' :: hexDigits 8 c.toNat

/-- A text between double quotes. -/
def quote (s : String) : String :=
  String.ofList ('"' :: s.toList.flatMap (escapeChar '"') ++ ['"'])

/-- A character between single quotes. -/
def quoteChar (c : Char) : String :=
  String.ofList ('\'' :: escapeChar '\'' c ++ ['\''])

/-- Whether a text can stand between backquotes, where nothing is escaped. -/
def isPlain (s : String) : Bool :=
  s.toList.all fun c =>
    c = '\t' || (32 ≤ c.toNat && c.toNat ≠ 96 && c.toNat ≠ 127 && c.toNat ≠ 0xfeff)

/-- A text between backquotes if it can stand there, else between double quotes. -/
def quotePlain (s : String) : String :=
  if isPlain s then "\x60" ++ s ++ "\x60" else quote s

/-- The first `limit` bytes of a text: the characters that fit whole, and what is kept of the first
one that does not. -/
def cutBytes : (limit : Nat) → List Char → List Char × List UInt8
  | _, [] => ([], [])
  | limit, c :: rest =>
    if c.utf8Size ≤ limit then
      let cut := cutBytes (limit - c.utf8Size) rest
      (c :: cut.1, cut.2)
    else ([], (String.utf8EncodeChar c).take limit)

/-- A text between double quotes; one of more than `limit` bytes is cut to `keep` bytes followed by
three dots. -/
def quoteCut (limit keep : Nat) (s : String) : String :=
  if s.utf8ByteSize ≤ limit then quote s
  else
    let cut := cutBytes keep s.toList
    String.ofList ('"' :: cut.1.flatMap (escapeChar '"') ++ cut.2.flatMap escapeByte ++
      ['.', '.', '.', '"'])

end Outliner.Text
