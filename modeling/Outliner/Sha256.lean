import Outliner.Bytes

/-!
# The 256-bit digest

The digest that identifies a routine by the bytes of its written form. The bytes are padded to whole
blocks of 64 and the blocks are compressed one after the other into eight words.
-/

namespace Outliner.Sha256

/-- The round constants: the first 32 fractional bits of the cube roots of the first 64 primes. -/
def roundConstants : List UInt32 :=
  [0x428a2f98, 0x71374491, 0xb5c0fbcf, 0xe9b5dba5, 0x3956c25b, 0x59f111f1,
    0x923f82a4, 0xab1c5ed5, 0xd807aa98, 0x12835b01, 0x243185be, 0x550c7dc3,
    0x72be5d74, 0x80deb1fe, 0x9bdc06a7, 0xc19bf174, 0xe49b69c1, 0xefbe4786,
    0x0fc19dc6, 0x240ca1cc, 0x2de92c6f, 0x4a7484aa, 0x5cb0a9dc, 0x76f988da,
    0x983e5152, 0xa831c66d, 0xb00327c8, 0xbf597fc7, 0xc6e00bf3, 0xd5a79147,
    0x06ca6351, 0x14292967, 0x27b70a85, 0x2e1b2138, 0x4d2c6dfc, 0x53380d13,
    0x650a7354, 0x766a0abb, 0x81c2c92e, 0x92722c85, 0xa2bfe8a1, 0xa81a664b,
    0xc24b8b70, 0xc76c51a3, 0xd192e819, 0xd6990624, 0xf40e3585, 0x106aa070,
    0x19a4c116, 0x1e376c08, 0x2748774c, 0x34b0bcb5, 0x391c0cb3, 0x4ed8aa4a,
    0x5b9cca4f, 0x682e6ff3, 0x748f82ee, 0x78a5636f, 0x84c87814, 0x8cc70208,
    0x90befffa, 0xa4506ceb, 0xbef9a3f7, 0xc67178f2]

/-- The eight words a digest starts from: the first 32 fractional bits of the square roots of the
first eight primes. -/
def initial : Array UInt32 :=
  #[0x6a09e667, 0xbb67ae85, 0x3c6ef372, 0xa54ff53a, 0x510e527f, 0x9b05688c, 0x1f83d9ab, 0x5be0cd19]

/-- A rotation to the right. -/
def rotate (x : UInt32) (n : UInt32) : UInt32 :=
  (x >>> n) ||| (x <<< (32 - n))

/-- The next word of the message schedule. -/
def extend (w : Array UInt32) : Array UInt32 :=
  let at' (k : Nat) : UInt32 := w.getD (w.size - k) 0
  let a := at' 15
  let b := at' 2
  let s0 := rotate a 7 ^^^ rotate a 18 ^^^ (a >>> 3)
  let s1 := rotate b 17 ^^^ rotate b 19 ^^^ (b >>> 10)
  w.push (at' 16 + s0 + at' 7 + s1)

/-- The message schedule of a block of sixteen words. -/
def schedule (block : Array UInt32) : Array UInt32 :=
  (List.range 48).foldl (fun w _ => extend w) block

/-- The eight working words. -/
structure Working where
  a : UInt32
  b : UInt32
  c : UInt32
  d : UInt32
  e : UInt32
  f : UInt32
  g : UInt32
  h : UInt32

/-- One round of the compression. -/
def round (s : Working) (k w : UInt32) : Working :=
  let s1 := rotate s.e 6 ^^^ rotate s.e 11 ^^^ rotate s.e 25
  let choice := (s.e &&& s.f) ^^^ ((~~~ s.e) &&& s.g)
  let t1 := s.h + s1 + choice + k + w
  let s0 := rotate s.a 2 ^^^ rotate s.a 13 ^^^ rotate s.a 22
  let majority := (s.a &&& s.b) ^^^ (s.a &&& s.c) ^^^ (s.b &&& s.c)
  ⟨t1 + s0 + majority, s.a, s.b, s.c, s.d + t1, s.e, s.f, s.g⟩

/-- Compresses a block of sixteen words into the eight words so far. -/
def compress (h : Array UInt32) (block : Array UInt32) : Array UInt32 :=
  let word (k : Nat) : UInt32 := h.getD k 0
  let start : Working := ⟨word 0, word 1, word 2, word 3, word 4, word 5, word 6, word 7⟩
  let s := (roundConstants.zip (schedule block).toList).foldl (fun s p => round s p.1 p.2) start
  #[word 0 + s.a, word 1 + s.b, word 2 + s.c, word 3 + s.d, word 4 + s.e, word 5 + s.f,
    word 6 + s.g, word 7 + s.h]

/-- A digest under way: the words so far, the words of the current block, and the bytes of the
current word. -/
structure State where
  words : Array UInt32
  block : Array UInt32
  word : UInt32
  bytes : Nat

/-- Takes one more byte in. -/
def absorb (s : State) (b : UInt8) : State :=
  let word := (s.word <<< 8) ||| b.toUInt32
  if s.bytes < 3 then { s with word := word, bytes := s.bytes + 1 }
  else
    let block := s.block.push word
    if block.size < 16 then { s with block := block, word := 0, bytes := 0 }
    else ⟨compress s.words block, #[], 0, 0⟩

/-- What is appended to a message of the given number of bytes. -/
def padding (size : Nat) : List UInt8 :=
  0x80 :: List.replicate ((119 - size % 64) % 64) 0 ++ Bytes.bigEndian 8 (8 * size)

/-- **The digest of a list of bytes.** -/
def digest (bytes : List UInt8) : List UInt8 :=
  let s := bytes.foldl absorb ⟨initial, #[], 0, 0⟩
  let s := (padding bytes.length).foldl absorb s
  s.words.toList.flatMap fun w => Bytes.bigEndian 4 w.toNat

end Outliner.Sha256
