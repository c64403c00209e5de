import Outliner.Proofs.Emission

/-!
# Code read back

`Coded.read` reads one instruction from bytes, in whichever of its written forms it stands there: a
slot may be part of the opcode, or have one or two bytes, a jump may be short or long, and the
operands of a switch are aligned. What is read refers to constants by index and to other
instructions by distance.

The rows of a table are not counted in the code: their number follows from the least and the
greatest key. By the format these are in order (`RowCount.ordered`). Code is written for tables
without rows and for tables whose keys wrap around as well, and to see what stands there their rows
are counted in words (`RowCount.wrapping`).

This module proves that the bytes of an instruction are read back as the instruction, as long as its
operands fit their fields (`Bound.read_emit`, and for jumps `Layout.read_jumpBytes_short` and
`Layout.read_jumpBytes_long`), and that a table whose keys are not in order cannot be read by the
format (`Bound.read_emit_of_not_rangeFits`).
-/

namespace Outliner

/-! ### Fields -/

theorem Bytes.toNat_ofInt (n : Int) : ((UInt8.ofInt n).toNat : Int) = n % 256 := by
  rw [UInt8.ofInt, UInt8.toNat_ofNat']
  omega

/-- Reading from the front of bytes. -/
abbrev Reading := StateT (List UInt8) Option

namespace Reading

/-- A number of the given number of bytes. -/
def unsigned (count : Nat) : Reading Nat := fun bytes =>
  if count ≤ bytes.length then some (Bytes.toNat (bytes.take count), bytes.drop count) else none

/-- A number in two's complement. -/
def signed (count : Nat) : Reading Int := do
  return Int.bmod (← unsigned count) (Nat.pow 256 count)

/-- The same thing several times. -/
def times {α : Type} (count : Nat) (x : Reading α) : Reading (List α) :=
  match count with
  | 0 => return []
  | count + 1 => do return (← x) :: (← times count x)

variable {α β : Type} {rest : List UInt8}

theorem bind_run {x : Reading α} {f : α → Reading β} {bytes : List UInt8} {a : α}
    (h : x bytes = some (a, rest)) : (x >>= f) bytes = f a rest := by
  change (x bytes).bind _ = _
  rw [h]
  rfl

theorem unsigned_append {count : Nat} {front : List UInt8} (h : front.length = count) :
    unsigned count (front ++ rest) = some (Bytes.toNat front, rest) := by
  subst h
  simp [unsigned]

theorem unsigned_one (x : UInt8) : unsigned 1 (x :: rest) = some (x.toNat, rest) := by
  simp [unsigned, Bytes.toNat]

/-- A number is read back from its bytes. -/
theorem unsigned_bigEndian {count n : Nat} (h : n < Nat.pow 256 count) :
    unsigned count (Bytes.bigEndian count n ++ rest) = some (n, rest) := by
  rw [unsigned_append (Bytes.length_bigEndian count n), Bytes.toNat_bigEndian h]

theorem pow_eight_mul (count : Nat) : Nat.pow 2 (8 * count) = Nat.pow 256 count :=
  Nat.pow_mul 2 8 count

theorem unsigned_bigEndianInt {count : Nat} {n : Int} (bound : Nat)
    (hbound : Nat.pow 256 count = bound) (hlow : 0 ≤ n) (hhigh : n < bound) :
    unsigned count (Bytes.bigEndianInt count n ++ rest) = some (n.toNat, rest) := by
  subst hbound
  rw [Bytes.bigEndianInt, pow_eight_mul, Int.emod_eq_of_lt hlow hhigh,
    unsigned_bigEndian (by omega)]

/-- An integer is read back from its bytes if it lies in their range. -/
theorem signed_bigEndianInt {count : Nat} {n : Int} (half : Nat)
    (hhalf : Nat.pow 256 count = 2 * half) (hlow : -half ≤ n) (hhigh : n < half) :
    signed count (Bytes.bigEndianInt count n ++ rest) = some (n, rest) := by
  -- the bytes hold the remainder, which stands for exactly one number of the range around zero
  have hpos : (0 : Int) < (2 * half : Nat) := by omega
  have hwrapped := Int.emod_nonneg n (Int.ne_of_gt hpos)
  have hlt := Int.emod_lt_of_pos n hpos
  rw [Bytes.bigEndianInt, pow_eight_mul, hhalf, signed, bind_run (unsigned_bigEndian (by omega)),
    hhalf, Int.toNat_of_nonneg hwrapped, Int.emod_bmod,
    Int.bmod_eq_of_le_mul_two (by omega) (by omega)]
  rfl

theorem bigEndianInt_one (n : Int) : Bytes.bigEndianInt 1 n = [UInt8.ofInt n] := by
  have hmod : (n % 256).toNat % 256 = (n % 256).toNat := by omega
  change [UInt8.ofNat ((n % 256).toNat % 256)] = [UInt8.ofNat (n % 256).toNat]
  rw [hmod]

theorem unsigned_ofInt {n : Int} (hlow : 0 ≤ n) (hhigh : n < 256) :
    unsigned 1 (UInt8.ofInt n :: rest) = some (n.toNat, rest) := by
  have hread : unsigned 1 (Bytes.bigEndianInt 1 n ++ rest) = some (n.toNat, rest) :=
    unsigned_bigEndianInt 256 rfl hlow hhigh
  rwa [bigEndianInt_one] at hread

theorem signed_ofInt {n : Int} (hlow : -128 ≤ n) (hhigh : n < 128) :
    signed 1 (UInt8.ofInt n :: rest) = some (n, rest) := by
  have hread : signed 1 (Bytes.bigEndianInt 1 n ++ rest) = some (n, rest) :=
    signed_bigEndianInt 128 rfl hlow hhigh
  rwa [bigEndianInt_one] at hread

theorem times_flatMap {α β : Type} {x : Reading β} {f : α → List UInt8} {g : α → β} (as : List α)
    (h : ∀ a ∈ as, ∀ rest, x (f a ++ rest) = some (g a, rest)) :
    times as.length x (as.flatMap f ++ rest) = some (as.map g, rest) := by
  induction as with
  | nil => rfl
  | cons a as ih =>
    rw [List.flatMap_cons, List.append_assoc, List.length_cons, times,
      bind_run (h a List.mem_cons_self _),
      bind_run (ih fun a ha => h a (List.mem_cons_of_mem _ ha))]
    rfl

theorem bind_run_none {x : Reading α} {f : α → Reading β} {bytes : List UInt8}
    (h : x bytes = none) : (x >>= f) bytes = none := by
  change (x bytes).bind _ = _
  rw [h]
  rfl

theorem lift_run {x : Option α} {a : α} (h : x = some a) :
    (liftM x : Reading α) rest = some (a, rest) := by
  rw [h]
  rfl

/-- Nothing is read from too few bytes. -/
theorem times_signed_eq_none {count : Nat} {bytes : List UInt8} (h : bytes.length < 4 * count) :
    times count (signed 4) bytes = none := by
  induction count generalizing bytes with
  | zero => omega
  | succ count ih =>
    rw [times]
    by_cases hfour : 4 ≤ bytes.length
    · have hfirst : unsigned 4 bytes = some (Bytes.toNat (bytes.take 4), bytes.drop 4) :=
        if_pos hfour
      have hrest : times count (signed 4) (bytes.drop 4) = none :=
        ih (by rw [List.length_drop]; omega)
      exact (bind_run (bind_run hfirst)).trans (bind_run_none hrest)
    · exact bind_run_none (bind_run_none (if_neg hfour))

end Reading

/-! ### Instructions -/

/-- How many rows a table has, by its least and its greatest key. -/
abbrev RowCount := Int → Int → Option Nat

namespace RowCount

/-- The count of the format, for which the keys are in order. -/
def ordered : RowCount := fun low high =>
  if low ≤ high then some (high - low + 1).toNat else none

/-- The count in words, by which a table may also be empty or wrap around. -/
def wrapping : RowCount := fun low high =>
  some ((high - low + 1) % 0x100000000).toNat

end RowCount

/-- **An instruction as it stands in code**: constants are given by index and labels by their
distance from the instruction. -/
inductive Coded where
  | plain (op : Opcode)
  | int (op : Opcode) (value : Int)
  | slot (op : Opcode) (index : Int)
  | iinc (index amount : Int)
  | pooled (op : Opcode) (index : Nat)
  /-- A call through an interface, with the number of cells its arguments take. -/
  | interfaceCall (index : Nat) (count : Int)
  | ldc (wide : Bool) (index : Nat)
  | jump (op : Opcode) (distance : Int)
  | tableSwitch (fallback low high : Int) (distances : List Int)
  | lookupSwitch (fallback : Int) (rows : List (Int × Int))
  | multiArray (index : Nat) (dims : Int)
  deriving DecidableEq, Repr

namespace Coded

open Reading

/-- A key with a distance. -/
def readRow : Reading (Int × Int) := do
  return (← signed 4, ← signed 4)

/-- The operands of a named operation, in their plain form. -/
def readOperands (rows : RowCount) (position : Nat) (op : Opcode) : OperandForm → Reading Coded
  | .plain => return plain op
  | .int =>
    -- the kind of an element is a code, not a number
    if op = .newArray then return int op (← unsigned 1)
    else return int op (← signed (if op = .sipush then 2 else 1))
  | .slot => return slot op (← unsigned 1)
  | .iinc => return iinc (← unsigned 1) (← signed 1)
  | .type | .field => return pooled op (← unsigned 2)
  | .method =>
    if op = .invoke .interface then do
      let index ← unsigned 2
      let count ← unsigned 1
      let _ ← unsigned 1
      return interfaceCall index count
    else return pooled op (← unsigned 2)
  | .callSite => do
    let index ← unsigned 2
    let _ ← unsigned 2
    return pooled op index
  | .ldc => return ldc false (← unsigned 1)
  | .jump => return jump op (← signed 2)
  | .tableSwitch => do
    let _ ← unsigned (3 - position % 4)
    let fallback ← signed 4
    let low ← signed 4
    let high ← signed 4
    let count ← liftM (rows low high)
    return tableSwitch fallback low high (← times count (signed 4))
  | .lookupSwitch => do
    let _ ← unsigned (3 - position % 4)
    let fallback ← signed 4
    let count ← unsigned 4
    return lookupSwitch fallback (← times count readRow)
  | .multiArray => return multiArray (← unsigned 2) (← unsigned 1)

/-- The operation and the slot in a code that stands for both. -/
def compactSlot? (code : Nat) : Option (Opcode × Nat) :=
  -- four codes for each kind of value, the kinds in the order of the operations with an operand
  if 26 ≤ code ∧ code ≤ 45 then some (.ofCode (21 + (code - 26) / 4), (code - 26) % 4)
  else if 59 ≤ code ∧ code ≤ 78 then some (.ofCode (54 + (code - 59) / 4), (code - 59) % 4)
  else none

/-- The operands of an operation on a slot, in their wide form. -/
def readWide (op : Opcode) : OperandForm → Reading Coded
  | .slot => return slot op (← unsigned 2)
  | .iinc => return iinc (← unsigned 2) (← signed 2)
  | _ => failure

/-- What follows a code without a name: other forms of named operations, with the slot in the code
or with wider fields. -/
def readOther (code : Nat) : Reading Coded :=
  match compactSlot? code with
  | some (op, index) => return slot op index
  | none =>
    if code = 19 then return ldc false (← unsigned 2)
    else if code = 20 then return ldc true (← unsigned 2)
    else if code = 196 then do
      let op := Opcode.ofCode (← unsigned 1)
      readWide op op.form
    else if code = 200 then return jump .gotoWide (← signed 4)
    else if code = 201 then return jump .jsrWide (← signed 4)
    else failure

/-- **Reads the instruction at a position.** -/
def read (rows : RowCount) (position : Nat) : Reading Coded := do
  let code ← unsigned 1
  let op := Opcode.ofCode code
  if op.mnemonic?.isSome then readOperands rows position op op.form else readOther code

end Coded

namespace Opcode

theorem code_bounds {op : Opcode} (h : op.mnemonic?.isSome) : 0 ≤ op.code ∧ op.code < 256 := by
  cases op with
  | unassigned code => cases h
  | marker => cases h
  | iconst k | lconst k | fconst k | dconst k => simp only [code]; omega
  | load kind | store kind | returnValue kind => cases kind <;> decide
  | arrayLoad kind | arrayStore kind => cases kind <;> decide
  | shuffle form => cases form <;> decide
  | arith op kind => cases op <;> cases kind <;> decide
  | neg kind => cases kind <;> decide
  | shift op wide => cases op <;> cases wide <;> decide
  | bitwise op wide => cases op <;> cases wide <;> decide
  | convert conversion => cases conversion <;> decide
  | fcmp flag | dcmp flag | ifRef flag => cases flag <;> decide
  | ifZero cond | ifInt cond => cases cond <;> decide
  | field op => cases op <;> decide
  | invoke op => cases op <;> decide
  | _ => decide

theorem toNat_byte {op : Opcode} (h : op.mnemonic?.isSome) : (op.byte.toNat : Int) = op.code := by
  obtain ⟨hlow, hhigh⟩ := code_bounds h
  rw [byte, Bytes.toNat_ofInt]
  omega

end Opcode

namespace Coded

open Reading

variable {rows : RowCount} {position : Nat} {rest : List UInt8}

/-- The operands of an operation follow its code. -/
theorem read_byte {op : Opcode} (h : op.mnemonic?.isSome) :
    read rows position (op.byte :: rest) = readOperands rows position op op.form rest := by
  rw [read, bind_run (unsigned_one _), Opcode.toNat_byte h, Opcode.ofCode_code h, if_pos h]

/-- A code without a name stands for another form. -/
theorem read_other {code : UInt8} (h : (Opcode.ofCode code.toNat).mnemonic? = none) :
    read rows position (code :: rest) = readOther code.toNat rest := by
  rw [read, bind_run (unsigned_one _), h]
  rfl

end Coded

/-- The operations on slots. -/
theorem Opcode.eq_of_form_slot {op : Opcode} (h : op.form = .slot) :
    op = .ret ∨ (∃ kind, op = .load kind) ∨ ∃ kind, op = .store kind := by
  cases op with
  | ret => exact .inl rfl
  | load kind => exact .inr (.inl ⟨kind, rfl⟩)
  | store kind => exact .inr (.inr ⟨kind, rfl⟩)
  | invoke op => cases op <;> cases h
  | _ => cases h

namespace Coded

open Reading

variable {rows : RowCount} {position : Nat} {rest : List UInt8}

/-- The first four slots have codes of their own. -/
theorem compactSlot?_compactCode {op : Opcode} (hform : op.form = .slot) (hret : op ≠ .ret) :
    ∀ n : Nat, n < 4 → (Opcode.ofCode (op.compactCode n).toNat).mnemonic? = none ∧
      compactSlot? (op.compactCode n).toNat = some (op, n) := by
  rcases Opcode.eq_of_form_slot hform with rfl | ⟨kind, rfl⟩ | ⟨kind, rfl⟩
  · exact absurd rfl hret
  -- five kinds of values, with four codes each
  · cases kind <;> decide +kernel
  · cases kind <;> decide +kernel

theorem read_compact {op : Opcode} (hform : op.form = .slot) (hret : op ≠ .ret) {n : Int}
    (hlow : 0 ≤ n) (hhigh : n ≤ 3) :
    read rows position (op.compactCode n :: rest) = some (slot op n, rest) := by
  obtain ⟨n, rfl⟩ := Int.eq_ofNat_of_zero_le hlow
  obtain ⟨hunnamed, hslot⟩ := compactSlot?_compactCode hform hret n (by omega)
  rw [read_other hunnamed, readOther, hslot]
  rfl

/-- Wide operands follow the mark for them and the code of the operation. -/
theorem read_wideMark {op : Opcode} (h : op.mnemonic?.isSome) :
    read rows position (Opcode.wideMark :: op.byte :: rest) = readWide op op.form rest := by
  refine (read_other (by decide +kernel)).trans ((bind_run (unsigned_one _)).trans ?_)
  rw [Opcode.toNat_byte h, Opcode.ofCode_code h]

/-- The distances of an instruction to those it can go to, the one taken by default first. -/
def distances : Coded → List Int
  | jump _ distance => [distance]
  | tableSwitch fallback _ _ distances => fallback :: distances
  | lookupSwitch fallback rows => fallback :: rows.map Prod.snd
  | _ => []

/-- The counts of an instruction cut down to a byte. -/
def narrowed : Coded → Coded
  | interfaceCall index count => interfaceCall index (count % 256)
  | multiArray index dims => multiArray index (dims % 256)
  | c => c

end Coded

namespace Instruction

/-- **How an instruction stands in code**, with its constant at an index and labels at distances
from it. -/
def coded (index : Nat) (distance : Label → Int) : Instruction → Coded
  | plain op => .plain op
  | int op value => .int op value.toInt
  | slot op n => .slot op n
  | iinc n amount => .iinc n amount.toInt
  | type op _ | field op _ _ _ => .pooled op index
  | method op _ _ descriptor _ =>
    if op = .invoke .interface then
      match Signature.parse descriptor with
      | .ok s => .interfaceCall index (s.argumentsSize + 1)
      | .error _ => .pooled op index
    else .pooled op index
  | ldc c => .ldc c.isWide index
  | jump op target => .jump op (distance target)
  | tableSwitch low high fallback targets =>
    .tableSwitch (distance fallback) low.toInt high.toInt (targets.map distance)
  | lookupSwitch fallback keys targets =>
    .lookupSwitch (distance fallback)
      ((keys.zip targets).map fun row => (row.1.toInt, distance row.2))
  | multiArray _ dims => .multiArray index dims
  | label _ | line _ | frame => .plain .marker

/-- The slot, the increment and the immediate operand of an instruction fit the widest fields there
are for them. -/
def OperandsFit : Instruction → Prop
  | int .bipush value => -128 ≤ value.toInt ∧ value.toInt ≤ 127
  | int .sipush value => -32768 ≤ value.toInt ∧ value.toInt ≤ 32767
  | int _ value => 0 ≤ value.toInt ∧ value.toInt ≤ 255
  | slot _ n => 0 ≤ n ∧ n ≤ 65535
  | iinc n amount => 0 ≤ n ∧ n ≤ 65535 ∧ -32768 ≤ amount.toInt ∧ amount.toInt ≤ 32767
  | _ => True

/-- The table of an instruction has a row, and its keys are words. -/
def RangeFits : Instruction → Prop
  | tableSwitch low _ _ targets => targets ≠ [] ∧ low.toInt + targets.length ≤ 0x80000000
  | _ => True

/-- The operand form an instruction has; those of calls are told apart by the opcode. -/
def form : Instruction → OperandForm
  | plain _ | label _ | line _ | frame => .plain
  | int _ _ => .int
  | slot _ _ => .slot
  | iinc _ _ => .iinc
  | type _ _ => .type
  | field _ _ _ _ => .field
  | method op _ _ _ _ => op.form
  | ldc _ => .ldc
  | jump _ _ => .jump
  | tableSwitch _ _ _ _ => .tableSwitch
  | lookupSwitch _ _ _ => .lookupSwitch
  | multiArray _ _ => .multiArray

/-- A canonical operation is written in the form of its opcode. -/
theorem form_eq {insn : Instruction} (h : insn.isCanonical) (hpos : insn.isPosition = false) :
    insn.opcode.form = insn.form := by
  have hcarries := (carries_of_isCanonical h hpos).2
  cases insn with
  | method _ _ _ _ _ => rfl
  | label _ | line _ | frame => cases hpos
  | _ =>
    -- what the instruction carries is carried by one form only
    generalize Opcode.form _ = form' at hcarries ⊢
    cases form' <;> first | rfl | cases hcarries

theorem opcode_method {op : Opcode} {owner name descriptor : String} {onInterface : Bool}
    (h : (method op owner name descriptor onInterface).isCanonical) :
    ∃ kind, op = .invoke kind := by
  have hcarries := (carries_of_isCanonical h rfl).2
  cases op with
  | invoke kind => exact ⟨kind, rfl⟩
  | _ => cases hcarries

/-- The operands of a canonical operation are read after its code. -/
theorem read_opcode {insn : Instruction} (h : insn.isCanonical) (hpos : insn.isPosition = false)
    (rows : RowCount) (position : Nat) (rest : List UInt8) :
    Coded.read rows position (insn.opcode.byte :: rest) =
      Coded.readOperands rows position insn.opcode insn.form rest := by
  rw [Coded.read_byte (carries_of_isCanonical h hpos).1, form_eq h hpos]

end Instruction

namespace Bound

open Reading Coded

variable {rows : RowCount} {b : Bound} {l : Layout} {offset : Nat} {bytes rest : List UInt8}

theorem read_emit_int {op : Opcode} {value : Int32}
    (h : b.emit l offset (.int op value) = .ok bytes)
    (hcanonical : (Instruction.int op value).isCanonical)
    (hfits : (Instruction.int op value).OperandsFit) :
    Coded.read rows (l.position offset) (bytes ++ rest) = some (.int op value.toInt, rest) := by
  obtain rfl := Except.ok.inj h
  have hform : op.form = .int := Instruction.form_eq hcanonical rfl
  rw [List.cons_append]
  refine (Instruction.read_opcode hcanonical rfl _ _ _).trans ?_
  cases op with
  | bipush => exact bind_run (signed_bigEndianInt 128 rfl hfits.1 (Int.lt_add_one_of_le hfits.2))
  | sipush => exact bind_run (signed_bigEndianInt 32768 rfl hfits.1 (Int.lt_add_one_of_le hfits.2))
  | newArray =>
    refine (bind_run
      (unsigned_bigEndianInt 256 rfl hfits.1 (Int.lt_add_one_of_le hfits.2))).trans ?_
    rw [Int.toNat_of_nonneg hfits.1]
    rfl
  | invoke op => cases op <;> cases hform
  | _ => cases hform

theorem read_emit_slot {op : Opcode} {n : Int} (h : b.emit l offset (.slot op n) = .ok bytes)
    (hcanonical : (Instruction.slot op n).isCanonical)
    (hfits : (Instruction.slot op n).OperandsFit) :
    Coded.read rows (l.position offset) (bytes ++ rest) = some (.slot op n, rest) := by
  obtain ⟨hlow, hhigh⟩ := hfits
  have hform : op.form = .slot := Instruction.form_eq hcanonical rfl
  unfold emit at h
  dsimp only at h
  split at h
  · next hcompact =>
    -- the slot is part of the code
    obtain rfl := Except.ok.inj h
    exact read_compact hform hcompact.1 hlow hcompact.2
  split at h
  · next hbyte =>
    obtain rfl := Except.ok.inj h
    refine (Instruction.read_opcode hcanonical rfl _ _ _).trans ?_
    refine (bind_run (unsigned_ofInt hlow (by omega))).trans ?_
    rw [Int.toNat_of_nonneg hlow]
    rfl
  · -- behind the mark for wide operands stands the operation itself
    obtain rfl := Except.ok.inj h
    have hnamed : op.mnemonic?.isSome := (Instruction.carries_of_isCanonical hcanonical rfl).1
    rw [List.cons_append, List.cons_append, read_wideMark hnamed, hform]
    refine (bind_run (unsigned_bigEndianInt 65536 rfl hlow (by omega))).trans ?_
    rw [Int.toNat_of_nonneg hlow]
    rfl

theorem read_emit_iinc {n : Int} {amount : Int32} (h : b.emit l offset (.iinc n amount) = .ok bytes)
    (hfits : (Instruction.iinc n amount).OperandsFit) :
    Coded.read rows (l.position offset) (bytes ++ rest) = some (.iinc n amount.toInt, rest) := by
  obtain ⟨hlow, hhigh, hleast, hmost⟩ := hfits
  have hcanonical : (Instruction.iinc n amount).isCanonical := rfl
  unfold emit at h
  dsimp only at h
  split at h
  · next hbytes =>
    -- one byte each, if both the slot and the amount have room in one
    obtain ⟨hbyte, hleast, hmost⟩ := hbytes
    rw [Int32.le_iff_toInt_le] at hleast hmost
    obtain rfl := Except.ok.inj h
    refine (Instruction.read_opcode hcanonical rfl _ _ _).trans ?_
    refine (bind_run (unsigned_ofInt hlow (by omega))).trans ?_
    refine (bind_run (signed_ofInt hleast (Int.lt_add_one_of_le hmost))).trans ?_
    rw [Int.toNat_of_nonneg hlow]
    rfl
  · obtain rfl := Except.ok.inj h
    rw [List.cons_append, List.cons_append, read_wideMark rfl, List.append_assoc]
    refine (bind_run (unsigned_bigEndianInt 65536 rfl hlow (by omega))).trans ?_
    refine (bind_run (signed_bigEndianInt 32768 rfl hleast (by omega))).trans ?_
    rw [Int.toNat_of_nonneg hlow]
    rfl

theorem read_emit_method {op : Opcode} {owner name descriptor : String} {onInterface : Bool}
    {distance : Label → Int}
    (h : b.emit l offset (.method op owner name descriptor onInterface) = .ok bytes)
    (hcanonical : (Instruction.method op owner name descriptor onInterface).isCanonical)
    (hindex : b.indexes.getD offset 0 < 65536) :
    Coded.read rows (l.position offset) (bytes ++ rest) =
      some ((Instruction.coded (b.indexes.getD offset 0) distance
        (.method op owner name descriptor onInterface)).narrowed, rest) := by
  obtain ⟨kind, rfl⟩ := Instruction.opcode_method hcanonical
  have hread := Instruction.read_opcode hcanonical rfl rows (l.position offset)
  cases kind with
  | interface =>
    unfold emit at h
    dsimp only at h
    split at h
    · next s hs =>
      obtain rfl := Except.ok.inj h
      rw [List.append_assoc, List.cons_append]
      refine (hread _).trans ((bind_run (unsigned_bigEndian hindex)).trans ?_)
      -- nothing checks that the count has room in its byte, so its remainder is read
      refine (bind_run (unsigned_one _)).trans ((bind_run (unsigned_one _)).trans ?_)
      rw [Instruction.coded, if_pos rfl, hs, UInt8.toNat_ofNat']
      rfl
    · cases h
  | dynamic =>
    obtain rfl := Except.ok.inj h
    rw [List.append_assoc, List.cons_append]
    refine (hread _).trans ((bind_run (unsigned_bigEndian hindex)).trans ?_)
    exact bind_run (unsigned_append (show [0, 0].length = 2 from rfl))
  | virtual | special | static =>
    obtain rfl := Except.ok.inj h
    exact (hread _).trans (bind_run (unsigned_bigEndian hindex))

theorem read_emit_ldc {c : Constant} (h : b.emit l offset (.ldc c) = .ok bytes)
    (hindex : b.indexes.getD offset 0 < 65536) :
    Coded.read rows (l.position offset) (bytes ++ rest) =
      some (.ldc c.isWide (b.indexes.getD offset 0), rest) := by
  unfold emit at h
  dsimp only at h
  split at h
  · next hwide =>
    obtain rfl := Except.ok.inj h
    rw [hwide]
    exact (read_other (by decide +kernel)).trans (bind_run (unsigned_bigEndian hindex))
  next hwide =>
  rw [Bool.not_eq_true] at hwide
  rw [hwide]
  split at h
  · next hbyte =>
    obtain rfl := Except.ok.inj h
    refine (read_byte rfl).trans ((bind_run (unsigned_one _)).trans ?_)
    rw [UInt8.toNat_ofNat', Nat.mod_eq_of_lt (by omega)]
    rfl
  · obtain rfl := Except.ok.inj h
    exact (read_other (by decide +kernel)).trans (bind_run (unsigned_bigEndian hindex))

end Bound

/-! ### Switches and jumps -/

namespace Layout

open Reading

variable {l : Layout} {offset : Nat}

/-- No label is farther away than the largest code is long. -/
def Near (l : Layout) (r : Routine) : Prop :=
  ∀ offset label, -65535 ≤ l.distance r offset label ∧ l.distance r offset label ≤ 65535

theorem Near.read_branch {r : Routine} (h : l.Near r) (label : Label) (rest : List UInt8) :
    signed 4 (l.branch r offset label ++ rest) = some (l.distance r offset label, rest) := by
  have hdistance := h offset label
  exact signed_bigEndianInt 0x80000000 rfl (by omega) (by omega)

theorem read_padding (l : Layout) (offset : Nat) (rest : List UInt8) : ∃ zeros,
    unsigned (3 - l.position offset % 4) (l.padding offset ++ rest) = some (zeros, rest) := by
  refine ⟨_, unsigned_append ?_⟩
  rw [padding, List.length_replicate, switchPadding]
  omega

end Layout

theorem Reading.signed_int32 (n : Int32) (rest : List UInt8) :
    signed 4 (Bytes.bigEndianInt 4 n.toInt ++ rest) = some (n.toInt, rest) :=
  signed_bigEndianInt 0x80000000 rfl n.le_toInt n.toInt_lt

/-- The range of a canonical table has as many keys as there are labels. -/
theorem Instruction.length_targets {low high : Int32} {fallback : Label} {targets : List Label}
    (h : (tableSwitch low high fallback targets).isCanonical)
    (hlength : targets.length < 0x100000000) :
    ((high.toInt - low.toInt + 1) % 0x100000000).toNat = targets.length := by
  have hhigh : high = low + Int32.ofNat targets.length - 1 := of_decide_eq_true h
  -- each step of the arithmetic is exact up to multiples of the range of a word
  have hlast : high.toInt % 0x100000000 =
      ((low + Int32.ofNat targets.length).toInt - 1) % 0x100000000 := by
    rw [hhigh, Int32.toInt_sub]
    exact Int.bmod_emod
  have hsum : (low + Int32.ofNat targets.length).toInt % 0x100000000 =
      (low.toInt + (Int32.ofNat targets.length).toInt) % 0x100000000 := by
    rw [Int32.toInt_add]
    exact Int.bmod_emod
  have hcount : (Int32.ofNat targets.length).toInt % 0x100000000 =
      (targets.length : Int) % 0x100000000 := by
    rw [Int32.toInt_ofNat']
    exact Int.bmod_emod
  omega

namespace RowCount

variable {low high : Int32} {fallback : Label} {targets : List Label}

theorem wrapping_eq (h : (Instruction.tableSwitch low high fallback targets).isCanonical)
    (hlength : targets.length < 0x100000000) :
    wrapping low.toInt high.toInt = some targets.length :=
  congrArg some (Instruction.length_targets h hlength)

/-- The keys of a table that fits are in order. -/
theorem ordered_of_rangeFits (h : (Instruction.tableSwitch low high fallback targets).isCanonical)
    (hlength : targets.length < 0x100000000)
    (hrange : (Instruction.tableSwitch low high fallback targets).RangeFits) :
    ordered low.toInt high.toInt = some targets.length := by
  have hcount := Instruction.length_targets h hlength
  have hpos := List.length_pos_iff.2 hrange.1
  have hlast := hrange.2
  have hhigh := And.intro high.le_toInt high.toInt_lt
  have hlow := low.le_toInt
  rw [ordered, if_pos (by omega)]
  exact congrArg some (by omega)

/-- The keys of another table are out of order, or they are all the words there are. -/
theorem ordered_of_not_rangeFits
    (h : (Instruction.tableSwitch low high fallback targets).isCanonical)
    (hlength : targets.length < 0x100000000)
    (hrange : ¬(Instruction.tableSwitch low high fallback targets).RangeFits) :
    ordered low.toInt high.toInt = none ∨ ordered low.toInt high.toInt = some 0x100000000 := by
  have hcount := Instruction.length_targets h hlength
  have hmost := high.toInt_lt
  have hleast := low.le_toInt
  have hrange : targets.length = 0 ∨ 0x80000000 < low.toInt + targets.length := by
    by_contra hnot
    rw [not_or, List.length_eq_zero_iff] at hnot
    exact hrange ⟨hnot.1, by omega⟩
  by_cases hordered : low.toInt ≤ high.toInt
  · right
    rw [ordered, if_pos hordered]
    exact congrArg some (by omega)
  · exact .inl (if_neg hordered)

end RowCount

namespace Bound

open Reading Coded

variable {rows : RowCount} {b : Bound} {l : Layout} {offset : Nat} {bytes rest : List UInt8}

/-- The bytes of a table are read up to its rows. -/
theorem read_emit_table {low high : Int32} {fallback : Label} {targets : List Label}
    (h : b.emit l offset (.tableSwitch low high fallback targets) = .ok bytes)
    (hcanonical : (Instruction.tableSwitch low high fallback targets).isCanonical)
    (hnear : l.Near b.routine) :
    Coded.read rows (l.position offset) (bytes ++ rest) =
      (do
        let count ← liftM (rows low.toInt high.toInt)
        return tableSwitch (l.distance b.routine offset fallback) low.toInt high.toInt
          (← times count (signed 4)) : Reading Coded)
        (targets.flatMap (l.branch b.routine offset) ++ rest) := by
  -- how many zeros there are depends on the position, what they say on nothing
  obtain ⟨zeros, hzeros⟩ := l.read_padding offset (l.branch b.routine offset fallback ++
    (Bytes.bigEndianInt 4 low.toInt ++ (Bytes.bigEndianInt 4 high.toInt ++
      (targets.flatMap (l.branch b.routine offset) ++ rest))))
  obtain rfl := Except.ok.inj h
  rw [List.cons_append, List.append_assoc, List.append_assoc, List.append_assoc, List.append_assoc]
  refine (Instruction.read_opcode hcanonical rfl _ _ _).trans ((bind_run hzeros).trans ?_)
  refine (bind_run (hnear.read_branch _ _)).trans ?_
  exact (bind_run (signed_int32 _ _)).trans (bind_run (signed_int32 _ _))

theorem read_emit_tableSwitch {low high : Int32} {fallback : Label} {targets : List Label}
    (h : b.emit l offset (.tableSwitch low high fallback targets) = .ok bytes)
    (hcanonical : (Instruction.tableSwitch low high fallback targets).isCanonical)
    (hnear : l.Near b.routine) (hrows : rows low.toInt high.toInt = some targets.length) :
    Coded.read rows (l.position offset) (bytes ++ rest) =
      some ((Instruction.tableSwitch low high fallback targets).coded 0
        (l.distance b.routine offset), rest) := by
  refine (read_emit_table h hcanonical hnear).trans ((bind_run (lift_run hrows)).trans ?_)
  exact bind_run (times_flatMap targets fun label _ rest => hnear.read_branch label rest)

/-- A table that does not fit cannot be read by the format. -/
theorem read_emit_of_not_rangeFits {insn : Instruction} (h : b.emit l offset insn = .ok bytes)
    (hcanonical : insn.isCanonical) (hrange : ¬insn.RangeFits) (hnear : l.Near b.routine)
    (hlength : (bytes ++ rest).length ≤ 65535) :
    Coded.read .ordered (l.position offset) (bytes ++ rest) = none := by
  cases insn with
  | tableSwitch low high fallback targets =>
    have hsize := b.length_emit h
    unfold Instruction.codeSize at hsize
    dsimp only at hsize
    have hrest : (targets.flatMap (l.branch b.routine offset) ++ rest).length ≤ 65535 := by
      rw [← Except.ok.inj h] at hlength
      simp only [List.length_append, List.length_cons] at hlength ⊢
      omega
    rw [List.length_append] at hlength
    rw [read_emit_table h hcanonical hnear]
    -- there is no number of rows, or one that is far too large for the code
    rcases RowCount.ordered_of_not_rangeFits hcanonical (by omega) hrange with hrows | hrows
    · exact bind_run_none (by rw [hrows]; rfl)
    · exact (bind_run (lift_run hrows)).trans (bind_run_none (times_signed_eq_none (by omega)))
  | _ => exact absurd trivial hrange

theorem read_emit_lookupSwitch {fallback : Label} {keys : List Int32} {targets : List Label}
    (h : b.emit l offset (.lookupSwitch fallback keys targets) = .ok bytes)
    (hcanonical : (Instruction.lookupSwitch fallback keys targets).isCanonical)
    (hnear : l.Near b.routine) (hlength : keys.length < 0x100000000) :
    Coded.read rows (l.position offset) (bytes ++ rest) =
      some ((Instruction.lookupSwitch fallback keys targets).coded 0 (l.distance b.routine offset),
        rest) := by
  obtain ⟨pairs, hpairs, rfl⟩ := emit_lookupSwitch_ok h
  obtain ⟨zeros, hzeros⟩ := l.read_padding offset (l.branch b.routine offset fallback ++
    (Bytes.bigEndian 4 keys.length ++ (pairs.flatMap (fun row =>
      Bytes.bigEndianInt 4 row.1.toInt ++ l.branch b.routine offset row.2) ++ rest)))
  -- one row is a key and the distance to its target
  have hrow (row : Int32 × Label) (rest : List UInt8) :
      readRow (Bytes.bigEndianInt 4 row.1.toInt ++ l.branch b.routine offset row.2 ++ rest) =
        some ((row.1.toInt, l.distance b.routine offset row.2), rest) := by
    rw [List.append_assoc]
    exact (bind_run (signed_int32 _ _)).trans (bind_run (hnear.read_branch _ _))
  rw [List.cons_append, List.append_assoc, List.append_assoc, List.append_assoc]
  refine (Instruction.read_opcode hcanonical rfl _ _ _).trans ((bind_run hzeros).trans ?_)
  refine (bind_run (hnear.read_branch _ _)).trans ((bind_run (unsigned_bigEndian hlength)).trans ?_)
  rw [← (keyTargets_ok hpairs).2]
  refine (bind_run (times_flatMap pairs fun row _ => hrow row)).trans ?_
  rw [(keyTargets_ok hpairs).1]
  rfl

end Bound

/-! ### All other instructions -/

/-- **The bytes of an instruction are read back as the instruction**, except that its counts are cut
down to a byte. -/
theorem Bound.read_emit {b : Bound} {l : Layout} {offset : Nat} {insn : Instruction}
    {bytes : List UInt8} (h : b.emit l offset insn = .ok bytes) (hcanonical : insn.isCanonical)
    (hreal : insn.isPosition = false) (hjump : insn.form ≠ .jump) (hfits : insn.OperandsFit)
    (hrange : insn.RangeFits) (hindex : b.indexes.getD offset 0 < 65536) (hnear : l.Near b.routine)
    (hlength : bytes.length ≤ 65535) (rest : List UInt8) :
    Coded.read .ordered (l.position offset) (bytes ++ rest) =
      some ((insn.coded (b.indexes.getD offset 0) (l.distance b.routine offset)).narrowed,
        rest) := by
  have hsize := b.length_emit h
  cases insn with
  | label _ | line _ | frame => cases hreal
  | jump _ _ => exact absurd rfl hjump
  | plain op =>
    obtain rfl := Except.ok.inj h
    exact Instruction.read_opcode hcanonical rfl _ _ _
  | int op value => exact read_emit_int h hcanonical hfits
  | slot op n => exact read_emit_slot h hcanonical hfits
  | iinc n amount => exact read_emit_iinc h hfits
  | type op _ | field op _ _ _ =>
    obtain rfl := Except.ok.inj h
    exact (Instruction.read_opcode hcanonical rfl _ _ _).trans
      (Reading.bind_run (Reading.unsigned_bigEndian hindex))
  | method op owner name descriptor onInterface => exact read_emit_method h hcanonical hindex
  | ldc c => exact read_emit_ldc h hindex
  | tableSwitch low high fallback targets =>
    -- every row takes bytes, so the number of rows is bounded by theirs
    unfold Instruction.codeSize at hsize
    dsimp only at hsize
    exact read_emit_tableSwitch h hcanonical hnear
      (RowCount.ordered_of_rangeFits hcanonical (by omega) hrange)
  | lookupSwitch fallback keys targets =>
    unfold Instruction.codeSize at hsize
    dsimp only at hsize
    exact read_emit_lookupSwitch h hcanonical hnear (by omega)
  | multiArray descriptor dims =>
    obtain rfl := Except.ok.inj h
    rw [List.cons_append, List.append_assoc]
    refine (Instruction.read_opcode hcanonical rfl _ _ _).trans
      ((Reading.bind_run (Reading.unsigned_bigEndian hindex)).trans
        ((Reading.bind_run (Reading.unsigned_one _)).trans ?_))
    rw [Bytes.toNat_ofInt]
    rfl

/-! ### Jumps -/

/-- The condition that holds exactly when another one does not. -/
def Cond.negated : Cond → Cond
  | eq => ne
  | ne => eq
  | lt => ge
  | ge => lt
  | gt => le
  | le => gt

namespace Opcode

/-- The conditional jump that is taken exactly when another one is not. -/
def inverse : Opcode → Opcode
  | ifZero cond => ifZero cond.negated
  | ifInt cond => ifInt cond.negated
  | ifRef differ => ifRef !differ
  | ifNull => ifNonNull
  | ifNonNull => ifNull
  | op => op

/-- Jumps without a condition, and those with one. -/
theorem eq_of_form_jump {op : Opcode} (h : op.form = .jump) :
    op = .goto ∨ op = .jsr ∨ op.flow = .branch := by
  cases op with
  | goto => exact .inl rfl
  | jsr => exact .inr (.inl rfl)
  | ifZero _ | ifInt _ | ifRef _ | ifNull | ifNonNull => exact .inr (.inr rfl)
  | invoke op => cases op <;> cases h
  | _ => cases h

theorem inverse_spec {op : Opcode} (h : op.flow = .branch) :
    op.inverse.mnemonic?.isSome ∧ op.inverse.form = .jump ∧
      UInt8.ofInt op.invertedCode = op.inverse.byte := by
  cases op with
  | ifZero cond | ifInt cond => cases cond <;> decide
  | ifRef differ => cases differ <;> decide
  | ifNull | ifNonNull => decide
  | _ => cases h

end Opcode

namespace Layout

open Reading Coded

variable {rows : RowCount} {l : Layout} {r : Routine} {offset : Nat} {op : Opcode} {label : Label}
  {rest : List UInt8}

/-- A short jump is read back if its target is within reach. -/
theorem read_jumpBytes_short (hcanonical : (Instruction.jump op label).isCanonical)
    (hlong : l.long.getD offset false = false)
    (hreach : reachesShort (l.distance r offset label)) (position : Nat) :
    Coded.read rows position (l.jumpBytes r offset op label ++ rest) =
      some (.jump op (l.distance r offset label), rest) := by
  unfold reachesShort at hreach
  rw [Bool.and_eq_true, decide_eq_true_iff, decide_eq_true_iff] at hreach
  unfold jumpBytes
  rw [hlong]
  refine (Instruction.read_opcode hcanonical rfl _ _ _).trans ?_
  exact bind_run (signed_bigEndianInt 32768 rfl hreach.1 (Int.lt_add_one_of_le hreach.2))

/-- A long jump without a condition has a code of its own. -/
theorem read_jumpBytes_long (hnear : l.Near r) (hlong : l.long.getD offset false = true)
    (position : Nat) :
    Coded.read rows position (l.jumpBytes r offset .goto label ++ rest) =
        some (.jump .gotoWide (l.distance r offset label), rest) ∧
      Coded.read rows position (l.jumpBytes r offset .jsr label ++ rest) =
        some (.jump .jsrWide (l.distance r offset label), rest) := by
  unfold jumpBytes
  rw [hlong]
  exact ⟨(read_other (by decide +kernel)).trans (bind_run (hnear.read_branch label rest)),
    (read_other (by decide +kernel)).trans (bind_run (hnear.read_branch label rest))⟩

/-- A long jump with a condition is two: with the inverse condition over one without a condition. -/
theorem jumpBytes_over (hop : op.flow = .branch) (hlong : l.long.getD offset false = true) :
    l.jumpBytes r offset op label = op.inverse.byte :: Bytes.bigEndianInt 2 8 ++
      (Opcode.gotoWide.byte :: Bytes.bigEndianInt 4 (l.distance r offset label - 3)) := by
  rw [← (Opcode.inverse_spec hop).2.2]
  unfold jumpBytes
  rw [hlong]
  cases op with
  | goto | jsr => cases hop
  | _ => rfl

theorem read_inverse (hop : op.flow = .branch) (position : Nat) :
    Coded.read rows position (op.inverse.byte :: Bytes.bigEndianInt 2 8 ++ rest) =
      some (.jump op.inverse 8, rest) := by
  obtain ⟨hnamed, hform, -⟩ := Opcode.inverse_spec hop
  rw [List.cons_append, read_byte hnamed, hform]
  exact bind_run (signed_bigEndianInt 32768 rfl (by decide) (by decide))

theorem read_gotoWide {distance : Int} (hlow : -0x80000000 ≤ distance)
    (hhigh : distance < 0x80000000) (position : Nat) :
    Coded.read rows position (Opcode.gotoWide.byte :: Bytes.bigEndianInt 4 distance ++ rest) =
      some (.jump .gotoWide distance, rest) :=
  (read_other (by decide +kernel)).trans (bind_run (signed_bigEndianInt 0x80000000 rfl hlow hhigh))

end Layout

/-! ### Assembled code -/

namespace MethodCode

/-- The instruction at a position of the code, and the position after it. -/
def readBy (m : MethodCode) (rows : RowCount) (position : Nat) : Option (Coded × Nat) :=
  (Coded.read rows position (m.code.toList.drop position)).map fun out =>
    (out.1, m.code.size - out.2.length)

/-- **The instruction at a position**, by the format. -/
abbrev read (m : MethodCode) (position : Nat) : Option (Coded × Nat) :=
  m.readBy .ordered position

/-- The instruction at a position, with the rows of tables counted in words. -/
abbrev scan (m : MethodCode) (position : Nat) : Option (Coded × Nat) :=
  m.readBy .wrapping position

theorem readBy_of_drop {m : MethodCode} {rows : RowCount} {start stop : Nat} {coded : Coded}
    {bytes : List UInt8} (hbytes : m.code.toList.drop start = bytes) (hstop : stop ≤ m.code.size)
    (hread : Coded.read rows start bytes = some (coded, m.code.toList.drop stop)) :
    m.readBy rows start = some (coded, stop) := by
  rw [readBy, hbytes, hread, Option.map_some, List.length_drop, Array.length_toList,
    Nat.sub_sub_self hstop]

end MethodCode

/-- Positions in code that is not too large are near each other. -/
theorem Layout.Steps.near {l : Layout} {b : Bound} (h : l.Steps b)
    (hsize : l.size b.routine ≤ maxCodeSize) : l.Near b.routine := by
  -- also of an offset behind the end, which has the position zero
  have hle (i : Nat) : l.position i ≤ 65535 := by
    by_cases hi : i ≤ b.routine.size
    · exact Nat.le_trans (h.mono hi (Nat.le_refl _)) hsize
    · rw [Layout.position, Array.getD_eq_getD_getElem?,
        Array.getElem?_eq_none (by rw [h.size]; omega)]
      exact Nat.zero_le _
  intro offset label
  have htarget : l.target b.routine label ≤ 65535 := hle _
  have hoffset := hle offset
  unfold distance
  omega

/-- **The bytes of an instruction stand in code** where the layout has put them. -/
structure MethodCode.Holds (m : MethodCode) (b : Bound) (i : Nat) (insn : Instruction)
    (bytes : List UInt8) : Prop where
  position : m.positions[i]? = some (b.layout.position i)
  emit : b.emit b.layout i insn = .ok bytes
  next : m.nextPosition i = b.layout.position i + bytes.length
  next_le : m.nextPosition i ≤ m.code.size
  size_le : m.code.size ≤ 65535
  drop : m.code.toList.drop (b.layout.position i) = bytes ++ m.code.toList.drop (m.nextPosition i)
  near : b.layout.Near b.routine

/-- What is read from the bytes of an instruction is read from the code. -/
theorem MethodCode.Holds.readBy {m : MethodCode} {rows : RowCount} {b : Bound} {i : Nat}
    {insn : Instruction} {bytes : List UInt8} (h : m.Holds b i insn bytes) {coded : Coded}
    (hread : ∀ rest, Coded.read rows (b.layout.position i) (bytes ++ rest) = some (coded, rest)) :
    m.readBy rows (b.layout.position i) = some (coded, m.nextPosition i) :=
  readBy_of_drop h.drop h.next_le (hread _)

theorem MethodCode.Holds.length_le {m : MethodCode} {b : Bound} {i : Nat} {insn : Instruction}
    {bytes : List UInt8} (h : m.Holds b i insn bytes) : bytes.length ≤ 65535 := by
  have hnext := h.next
  have hnext_le := h.next_le
  have hsize := h.size_le
  omega

/-- A table that does not fit is not read from the code. -/
theorem MethodCode.Holds.read_eq_none {m : MethodCode} {b : Bound} {i : Nat} {insn : Instruction}
    {bytes : List UInt8} (h : m.Holds b i insn bytes) (hcanonical : insn.isCanonical)
    (hrange : ¬insn.RangeFits) : m.read (b.layout.position i) = none := by
  have hsize := h.size_le
  have hlength : (bytes ++ m.code.toList.drop (m.nextPosition i)).length ≤ 65535 := by
    rw [← h.drop, List.length_drop, Array.length_toList]
    omega
  rw [MethodCode.read, MethodCode.readBy, h.drop,
    b.read_emit_of_not_rangeFits h.emit hcanonical hrange h.near hlength, Option.map_none]

/-- **Every instruction of a routine stands in its code.** -/
theorem Assembly.holds_of_assemble {p p' : Pool} {m : MethodCode} {b : Bound}
    (h : assemble p b.routine = (.ok m, p')) (hb : b.indexes = (bindAll p b.routine).indexes)
    {i : Nat} {insn : Instruction} (hinsn : b.routine.code[i]? = some insn) :
    ∃ bytes, m.Holds b i insn bytes := by
  obtain ⟨-, hsize, hemit, -, hpositions⟩ := assembles_of_eq_ok h
  rw [← hb] at hsize hemit hpositions
  have hsteps := b.steps_layout
  have hstart : (#[] : Array UInt8).size = b.layout.position 0 := hsteps.zero.symm
  obtain ⟨-, -, hcode, hall⟩ := emitFrom_ok hsteps (by simp) hstart hemit
  rw [Nat.zero_add, Array.length_toList, ← Routine.size] at hcode
  -- the code is what the instructions before give, these bytes, and what those behind give
  obtain ⟨bytes, before, after, hbytes, hsplit, hbefore⟩ := hall i insn (by simpa using hinsn)
  rw [Nat.zero_add] at hbytes hbefore
  have hi : i < b.routine.size := (Array.getElem?_eq_some_iff.1 hinsn).1
  have hnext := hsteps.nextPosition_eq hpositions hcode hi
  have hlast : b.layout.position (i + 1) ≤ b.layout.size b.routine := hsteps.mono hi (Nat.le_refl _)
  have hend : m.nextPosition i = b.layout.position i + bytes.length := by
    rw [hnext, hsteps.succ i insn hinsn, b.length_emit hbytes]
  refine ⟨bytes, ?_, hbytes, hend, ?_, Nat.le_trans (Nat.le_of_eq hcode) hsize, ?_,
    hsteps.near hsize⟩
  · rw [hpositions]
    exact hsteps.getElem?_pop hi
  · rw [hnext, hcode]
    exact hlast
  · rw [hend, hsplit, ← hbefore]
    simp

/-- Parts whose routine can be assembled with an empty pool, by a test that computes. -/
theorem Assembly.exists_assemble_of_any (parts : RoutineParts) (test : Routine → MethodCode → Bool)
    (h : (Routine.make parts).toOption.any fun r => r.code.all Instruction.isCanonical &&
      (assemble .empty r).1.toOption.any (test r)) :
    ∃ r m p', Routine.make parts = .ok r ∧ r.Canonical ∧ assemble .empty r = (.ok m, p') ∧
      test r m := by
  obtain ⟨r, hr, hrun⟩ := exists_ok_of_any h
  rw [Bool.and_eq_true, Array.all_eq_true'] at hrun
  obtain ⟨m, hm, htest⟩ := exists_ok_of_any hrun.2
  exact ⟨r, m, (assemble .empty r).2, hr, hrun.1, Prod.ext hm rfl, htest⟩

end Outliner
