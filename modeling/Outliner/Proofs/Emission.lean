import Outliner.Assembly.Code
import Outliner.Proofs.Made
import Outliner.Proofs.Operands
import Outliner.Proofs.Pools

/-!
# Layout and emission agree

The length of an instruction is computed by `Instruction.codeSize` when code is laid out, and its
bytes are written by `Bound.emit` once all positions are known. The two go through the forms of an
instruction independently. This module proves that they agree (`Bound.length_emit`), so that every
instruction stands in the code exactly where the layout has put it.

* `Assembly.assemble_laidOut` — the positions of assembled code tile it, an instruction has bytes
  exactly if it is an operation, the operands of switches are aligned, and the rows of the exception
  table cover exactly the operations of the regions they are for.

Positions only ever grow by the length of an instruction (`Layout.Steps`), which is all that the
rows of the exception table depend on.
-/

namespace Outliner

/-! ### Lengths -/

namespace Bytes

@[simp] theorem length_bigEndian (count n : Nat) : (bigEndian count n).length = count := by
  induction count generalizing n with
  | zero => rfl
  | succ count ih => simp [bigEndian, ih]

/-- The bytes of a number that is not too large give the number. -/
theorem toNat_bigEndian {count n : Nat} (h : n < Nat.pow 256 count) :
    toNat (bigEndian count n) = n := by
  induction count generalizing n with
  | zero =>
    obtain rfl : n = 0 := Nat.lt_one_iff.1 h
    rfl
  | succ count ih =>
    have hlt : n < Nat.pow 256 count * 256 := h
    have hdiv : n / 256 < Nat.pow 256 count := Nat.div_lt_of_lt_mul (by rwa [Nat.mul_comm] at hlt)
    have hbyte : (UInt8.ofNat (n % 256)).toNat = n % 256 := by
      rw [UInt8.toNat_ofNat']
      exact Nat.mod_mod _ _
    -- the last byte has the remainder, those before it the quotient
    calc toNat (bigEndian (count + 1) n)
      _ = toNat (bigEndian count (n / 256)) * 256 + (UInt8.ofNat (n % 256)).toNat := by
        rw [bigEndian, toNat, List.foldl_append]
        rfl
      _ = n / 256 * 256 + n % 256 := by rw [ih hdiv, hbyte]
      _ = n := Nat.div_add_mod' n 256

@[simp] theorem length_bigEndianInt (count : Nat) (n : Int) :
    (bigEndianInt count n).length = count :=
  length_bigEndian count _

end Bytes

/-- Keys that all have targets are paired with them in order. -/
theorem keyTargets_ok {ε : Type} {keys : List Int32} {targets : List Label}
    {pairs : List (Int32 × Label)}
    (h : (keyTargets keys targets : Answer ε (List (Int32 × Label))) = .ok pairs) :
    pairs = keys.zip targets ∧ pairs.length = keys.length := by
  induction keys generalizing targets pairs with
  | nil =>
    obtain rfl := Except.ok.inj h
    exact ⟨rfl, rfl⟩
  | cons key keys ih =>
    cases targets with
    | nil => cases h
    | cons target targets =>
      rw [keyTargets] at h
      cases hrest : (keyTargets keys targets : Answer ε (List (Int32 × Label))) with
      | error e => rw [hrest] at h; cases h
      | ok rest =>
        rw [hrest] at h
        obtain rfl := Except.ok.inj h
        obtain ⟨hzip, hlength⟩ := ih hrest
        rw [List.zip_cons_cons, ← hzip, List.length_cons, List.length_cons, hlength]
        exact ⟨rfl, rfl⟩

theorem length_flatMap_const {α : Type} {f : α → List UInt8} {n : Nat}
    (h : ∀ a, (f a).length = n) (l : List α) : (l.flatMap f).length = n * l.length := by
  induction l with
  | nil => rfl
  | cons a rest ih =>
    rw [List.flatMap_cons, List.length_append, h, ih, List.length_cons, Nat.mul_succ, Nat.add_comm]

theorem Layout.length_jumpBytes (l : Layout) (r : Routine) (offset : Nat) (op : Opcode)
    (label : Label) :
    (l.jumpBytes r offset op label).length =
      (Instruction.jump op label).codeSize 0 (l.long.getD offset false) 0 := by
  unfold jumpBytes Instruction.codeSize
  dsimp only
  split
  · simp
  · cases op with
    | goto | jsr => simp
    | _ => simp

/-- A lookup switch is written with its keys and targets in pairs. -/
theorem Bound.emit_lookupSwitch_ok {b : Bound} {l : Layout} {offset : Nat} {fallback : Label}
    {keys : List Int32} {targets : List Label} {bytes : List UInt8}
    (h : b.emit l offset (.lookupSwitch fallback keys targets) = .ok bytes) :
    ∃ pairs, (keyTargets keys targets : Answer OperandFault _) = .ok pairs ∧
      bytes = Opcode.lookupSwitch.byte :: (l.padding offset ++ l.branch b.routine offset fallback ++
        Bytes.bigEndian 4 keys.length ++ pairs.flatMap fun row =>
          Bytes.bigEndianInt 4 row.1.toInt ++ l.branch b.routine offset row.2) := by
  unfold emit at h
  dsimp only at h
  cases hpairs : (keyTargets keys targets : Answer OperandFault _) with
  | error e => rw [hpairs] at h; cases h
  | ok pairs =>
    rw [hpairs] at h
    exact ⟨pairs, rfl, (Except.ok.inj h).symm⟩

/-- **An instruction has as many bytes as its layout reserves for it.** -/
theorem Bound.length_emit {b : Bound} {l : Layout} {offset : Nat} {insn : Instruction}
    {bytes : List UInt8} (h : b.emit l offset insn = .ok bytes) :
    bytes.length = insn.codeSize (b.indexes.getD offset 0) (l.long.getD offset false)
      (l.position offset) := by
  have hbranch (label : Label) : (l.branch b.routine offset label).length = 4 :=
    Bytes.length_bigEndianInt 4 _
  cases insn with
  | label _ | line _ | frame | plain _ =>
    obtain rfl := Except.ok.inj h
    rfl
  | int op value =>
    obtain rfl := Except.ok.inj h
    simp only [List.length_cons, Bytes.length_bigEndianInt, Instruction.codeSize]
    split <;> rfl
  | slot op n =>
    -- the bytes and their number are chosen by the same tests
    unfold emit at h
    unfold Instruction.codeSize
    dsimp only at h ⊢
    split at h
    · next hc =>
      obtain rfl := Except.ok.inj h
      rw [if_pos hc]
      rfl
    next hc =>
    rw [if_neg hc]
    split at h
    · next hn =>
      obtain rfl := Except.ok.inj h
      rw [if_pos hn]
      rfl
    · next hn =>
      obtain rfl := Except.ok.inj h
      rw [if_neg hn]
      simp
  | iinc n amount =>
    unfold emit at h
    unfold Instruction.codeSize
    dsimp only at h ⊢
    split at h
    · next hc =>
      obtain rfl := Except.ok.inj h
      rw [if_pos hc]
      rfl
    · next hc =>
      obtain rfl := Except.ok.inj h
      rw [if_neg hc]
      simp
  | type _ _ | field _ _ _ _ | multiArray _ _ =>
    obtain rfl := Except.ok.inj h
    simp [Instruction.codeSize]
  | method op owner name descriptor onInterface =>
    unfold emit at h
    unfold Instruction.codeSize
    dsimp only at h ⊢
    split at h
    · split at h
      · obtain rfl := Except.ok.inj h
        simp
      · cases h
    · obtain rfl := Except.ok.inj h
      simp
    · next hinterface hdynamic =>
      obtain rfl := Except.ok.inj h
      rw [if_neg]
      · simp
      · rintro (rfl | rfl)
        · exact hinterface rfl
        · exact hdynamic rfl
  | ldc c =>
    unfold emit at h
    unfold Instruction.codeSize
    dsimp only at h ⊢
    split at h
    · next hc =>
      obtain rfl := Except.ok.inj h
      rw [if_pos hc]
      simp
    next hc =>
    rw [if_neg hc]
    split at h
    · next hn =>
      obtain rfl := Except.ok.inj h
      rw [if_pos hn]
      rfl
    · next hn =>
      obtain rfl := Except.ok.inj h
      rw [if_neg hn]
      simp
  | jump op label =>
    obtain rfl := Except.ok.inj h
    exact l.length_jumpBytes b.routine offset op label
  | tableSwitch low high fallback targets =>
    obtain rfl := Except.ok.inj h
    simp only [List.length_cons, List.length_append, Layout.padding, List.length_replicate,
      hbranch, Bytes.length_bigEndianInt, length_flatMap_const hbranch, Instruction.codeSize]
    omega
  | lookupSwitch fallback keys targets =>
    obtain ⟨pairs, hpairs, rfl⟩ := emit_lookupSwitch_ok h
    -- as many pairs are written as there are keys
    rw [List.length_cons, List.length_append, List.length_append, List.length_append,
      length_flatMap_const (n := 8) (fun pair => by simp [hbranch]), (keyTargets_ok hpairs).2,
      hbranch, Bytes.length_bigEndian, Layout.padding, List.length_replicate,
      Instruction.codeSize]
    omega

/-! ### Positions -/

/-- The positions that `positionsFrom` computes: those given stay, the next is where it starts, and
each is followed by the end of its instruction. -/
theorem Bound.positionsFrom_spec (b : Bound) (long : Array Bool) (code : List Instruction)
    (offset position : Nat) (known : Array Nat) :
    (b.positionsFrom long offset position code known).size = known.size + code.length + 1 ∧
    known.toList <+: (b.positionsFrom long offset position code known).toList ∧
    (b.positionsFrom long offset position code known)[known.size]? = some position ∧
    ∀ (k : Nat) (insn : Instruction), code[k]? = some insn → ∃ start,
      (b.positionsFrom long offset position code known)[known.size + k]? = some start ∧
      (b.positionsFrom long offset position code known)[known.size + k + 1]? =
        some (start + insn.codeSize (b.indexes.getD (offset + k) 0)
          (long.getD (offset + k) false) start) := by
  induction code generalizing offset position known with
  | nil =>
    refine ⟨by simp [positionsFrom], ?_, by simp [positionsFrom], fun k insn hk => by simp at hk⟩
    rw [positionsFrom, Array.toList_push]
    exact List.prefix_append _ _
  | cons insn rest ih =>
    rw [positionsFrom]
    obtain ⟨hsize, hprefix, hfirst, hsteps⟩ := ih (offset + 1)
      (position + insn.codeSize (b.indexes.getD offset 0) (long.getD offset false) position)
      (known.push position)
    rw [Array.toList_push] at hprefix
    rw [Array.size_push] at hsize hfirst hsteps
    -- the position pushed before the recursive call is still where it was put
    have hhere : (b.positionsFrom long (offset + 1) (position + insn.codeSize
        (b.indexes.getD offset 0) (long.getD offset false) position) rest
        (known.push position))[known.size]? = some position := by
      rw [← Array.getElem?_toList]
      exact List.prefix_iff_getElem?.1 hprefix known.size (by simp) ▸ by simp
    refine ⟨by rw [hsize, List.length_cons]; omega, (List.prefix_append _ _).trans hprefix,
      hhere, ?_⟩
    intro k insn' hk
    cases k with
    | zero =>
      obtain rfl := Option.some.inj hk
      exact ⟨position, hhere, hfirst⟩
    | succ k =>
      obtain ⟨start, hstart, hend⟩ := hsteps k insn' hk
      rw [show known.size + 1 + k = known.size + (k + 1) by omega] at hstart hend
      rw [show offset + 1 + k = offset + (k + 1) by omega] at hend
      exact ⟨start, hstart, hend⟩

/-- Settling a layout ends with positions that follow from the jumps chosen to be long. -/
theorem Bound.exists_layoutWith (b : Bound) : ∃ long, b.layout = b.layoutWith long := by
  -- every round lays the code out anew, so only the last choice of long jumps matters
  have hsettle (rounds : Nat) (long : Array Bool) :
      ∃ long', b.settle rounds (b.layoutWith long) = b.layoutWith long' := by
    induction rounds generalizing long with
    | zero => exact ⟨long, rfl⟩
    | succ rounds ih =>
      rw [settle]
      split
      · exact ⟨long, rfl⟩
      · exact ih _
  exact hsettle _ _

/-- **Positions in step with an instruction sequence**: the first is 0, and each instruction ends
where the next one starts. -/
structure Layout.Steps (l : Layout) (b : Bound) : Prop where
  size : l.positions.size = b.routine.size + 1
  zero : l.position 0 = 0
  succ : ∀ (i : Nat) (insn : Instruction), b.routine.code[i]? = some insn →
    l.position (i + 1) = l.position i + insn.codeSize (b.indexes.getD i 0) (l.long.getD i false)
      (l.position i)

theorem Bound.steps_layoutWith (b : Bound) (long : Array Bool) : (b.layoutWith long).Steps b := by
  obtain ⟨hsize, -, hfirst, hsteps⟩ := b.positionsFrom_spec long b.routine.code.toList 0 0 #[]
  have hposition {i start : Nat}
      (h : (b.positionsFrom long 0 0 b.routine.code.toList #[])[i]? = some start) :
      (b.layoutWith long).position i = start := by
    rw [Layout.position, Array.getD_eq_getD_getElem?]
    exact congrArg (Option.getD · 0) h
  refine ⟨?_, hposition hfirst, ?_⟩
  · change (b.positionsFrom long 0 0 b.routine.code.toList #[]).size = _
    rw [hsize, Array.size_empty, Nat.zero_add, Array.length_toList]
    rfl
  · intro i insn hinsn
    obtain ⟨start, hstart, hend⟩ := hsteps i insn (by simpa using hinsn)
    simp only [List.size_toArray, List.length_nil, Nat.zero_add] at hstart hend
    rw [hposition hstart, hposition hend]
    rfl

theorem Bound.steps_layout (b : Bound) : b.layout.Steps b := by
  obtain ⟨long, heq⟩ := b.exists_layoutWith
  rw [heq]
  exact b.steps_layoutWith long

namespace Instruction

/-- Labels, lines and frames have no length; operations have. -/
theorem codeSize_pos_iff {insn : Instruction} (index : Nat) (long : Bool) (position : Nat) :
    0 < insn.codeSize index long position ↔ insn.isPosition = false := by
  cases insn with
  | label _ | line _ | frame => simp [codeSize, isPosition]
  | _ =>
    simp only [codeSize, isPosition, iff_true]
    first | omega | (repeat' split) <;> omega

/-- A canonical instruction is a marker only if it is there for its position. -/
theorem isPosition_eq_isMarker {insn : Instruction} (h : insn.isCanonical) :
    insn.isPosition = insn.isMarker := by
  cases hpos : insn.isPosition with
  | true =>
    cases insn with
    | label _ | line _ | frame => rfl
    | _ => cases hpos
  | false =>
    have hnamed := (carries_of_isCanonical h hpos).1
    unfold isMarker
    split
    · next hop =>
      rw [hop] at hnamed
      cases hnamed
    · rfl

end Instruction

namespace Layout.Steps

variable {l : Layout} {b : Bound} (h : l.Steps b)

include h

theorem succ_le {i : Nat} (hi : i < b.routine.size) : l.position i ≤ l.position (i + 1) := by
  rw [h.succ i _ (Array.getElem?_eq_getElem hi)]
  exact Nat.le_add_right _ _

theorem mono {i j : Nat} (hij : i ≤ j) (hj : j ≤ b.routine.size) : l.position i ≤ l.position j := by
  induction hij with
  | refl => exact Nat.le_refl _
  | step _ ih => exact Nat.le_trans (ih (by omega)) (h.succ_le (by omega))

/-- An operation ends after it starts. -/
theorem lt_succ {i : Nat} {insn : Instruction} (hinsn : b.routine.code[i]? = some insn)
    (hreal : insn.isPosition = false) : l.position i < l.position (i + 1) := by
  rw [h.succ i insn hinsn]
  exact Nat.lt_add_of_pos_right ((Instruction.codeSize_pos_iff _ _ _).2 hreal)

/-- **An operation lies in a range of offsets exactly if its position lies in the range of
positions.** -/
theorem mem_range_iff {start stop i : Nat} {insn : Instruction} (hstop : stop ≤ b.routine.size)
    (hle : start ≤ stop) (hinsn : b.routine.code[i]? = some insn)
    (hreal : insn.isPosition = false) :
    (start ≤ i ∧ i < stop) ↔ l.position start ≤ l.position i ∧ l.position i < l.position stop := by
  have hi : i < b.routine.size := (Array.getElem?_eq_some_iff.1 hinsn).1
  have hlt := h.lt_succ hinsn hreal
  constructor
  · rintro ⟨hstart, hlast⟩
    exact ⟨h.mono hstart (by omega), Nat.lt_of_lt_of_le hlt (h.mono hlast hstop)⟩
  · rintro ⟨hstart, hlast⟩
    constructor
    · by_contra hnot
      -- the operation would end before the range starts
      have := h.mono (i := i + 1) (j := start) (by omega) (by omega)
      omega
    · by_contra hnot
      have := h.mono (i := stop) (j := i) (by omega) (by omega)
      omega

/-- Positions move exactly where there is an operation. -/
theorem lt_iff_exists {start stop : Nat} (hle : start ≤ stop) (hstop : stop ≤ b.routine.size) :
    l.position start < l.position stop ↔
      ∃ i insn, start ≤ i ∧ i < stop ∧ b.routine.code[i]? = some insn ∧
        insn.isPosition = false := by
  constructor
  · intro hlt
    by_contra hnone
    -- without an operation in between, positions stay what they were at the start
    have hstay : ∀ j, start ≤ j → j ≤ stop → l.position j = l.position start := by
      intro j hj
      induction hj with
      | refl => exact fun _ => rfl
      | @step j hle ih =>
        intro hj
        have hsome := Array.getElem?_eq_getElem (show j < b.routine.code.size from by
          unfold Routine.size at hstop
          omega)
        rw [Nat.succ_eq_add_one, h.succ j _ hsome, ih (by omega)]
        refine Nat.add_eq_left.2 (Nat.eq_zero_of_not_pos ?_)
        rw [Instruction.codeSize_pos_iff]
        intro hreal
        exact hnone ⟨j, _, hle, by omega, hsome, hreal⟩
    rw [hstay stop hle (Nat.le_refl _)] at hlt
    exact Nat.lt_irrefl _ hlt
  · rintro ⟨i, insn, hstart, hlast, hinsn, hreal⟩
    have hi := (h.mem_range_iff hstop hle hinsn hreal).1 ⟨hstart, hlast⟩
    exact Nat.lt_of_le_of_lt hi.1 hi.2

end Layout.Steps

/-! ### The code as a whole -/

namespace Assembly

/-- A fault that was noted does not go away. -/
theorem faults_of_emitFrom {b : Bound} {l : Layout} {insns : List Instruction} {offset : Nat}
    {code code' : Array UInt8} {faults : Array AssemblyFault}
    (h : emitFrom b l offset insns code faults = .ok (code', #[])) : faults = #[] := by
  induction insns generalizing offset code faults with
  | nil => exact (Prod.mk.inj (Except.ok.inj h)).2
  | cons insn rest ih =>
    rw [emitFrom] at h
    split at h
    · exact ih h
    · exact absurd (ih h) (by simp)
    · cases h

/-- **Every instruction is emitted at its position.** Emission that starts at the position of an
offset and reports no fault adds the bytes of each instruction from that offset on at its own
position. -/
theorem emitFrom_ok {b : Bound} {l : Layout} (hsteps : l.Steps b) {insns : List Instruction}
    {offset : Nat} {code code' : Array UInt8} {faults : Array AssemblyFault}
    (hinsns : ∀ (k : Nat) (insn : Instruction), insns[k]? = some insn →
      b.routine.code[offset + k]? = some insn)
    (hstart : code.size = l.position offset)
    (h : emitFrom b l offset insns code faults = .ok (code', #[])) :
    faults = #[] ∧ code.toList <+: code'.toList ∧
      code'.size = l.position (offset + insns.length) ∧
      ∀ (k : Nat) (insn : Instruction), insns[k]? = some insn → ∃ bytes before after,
        b.emit l (offset + k) insn = .ok bytes ∧ code'.toList = before ++ bytes ++ after ∧
          before.length = l.position (offset + k) := by
  induction insns generalizing offset code faults with
  | nil =>
    obtain ⟨rfl, rfl⟩ := Prod.mk.inj (Except.ok.inj h)
    exact ⟨rfl, List.prefix_refl _, hstart, fun k insn hk => by simp at hk⟩
  | cons insn rest ih =>
    have hrest : ∀ (k : Nat) (insn' : Instruction), rest[k]? = some insn' →
        b.routine.code[offset + 1 + k]? = some insn' := by
      intro k insn' hk
      rw [Nat.add_assoc, Nat.add_comm 1 k]
      exact hinsns (k + 1) insn' hk
    rw [emitFrom] at h
    split at h
    · next bytes hbytes =>
      have hlist : (bytes.foldl Array.push code).toList = code.toList ++ bytes := by
        rw [← Array.toList_appendList]
        rfl
      -- this is where the lengths computed by layout and emission have to agree
      have hnext : (bytes.foldl Array.push code).size = l.position (offset + 1) := by
        rw [← Array.length_toList, hlist, List.length_append, Array.length_toList, hstart,
          hsteps.succ offset insn (hinsns 0 insn rfl), b.length_emit hbytes]
      obtain ⟨hfaults, hprefix, hsize, hall⟩ := ih hrest hnext h
      rw [hlist] at hprefix
      refine ⟨hfaults, (List.prefix_append _ _).trans hprefix, ?_, ?_⟩
      · rw [hsize, List.length_cons, Nat.add_assoc, Nat.add_comm 1]
      · intro k insn' hk
        cases k with
        | zero =>
          obtain rfl := Option.some.inj hk
          obtain ⟨after, hafter⟩ := hprefix
          exact ⟨bytes, code.toList, after, hbytes, hafter.symm,
            by rw [Array.length_toList, hstart]; rfl⟩
        | succ k =>
          obtain ⟨bytes', before, after, hemit, heq, hlength⟩ := hall k insn' hk
          rw [Nat.add_assoc, Nat.add_comm 1] at hemit hlength
          exact ⟨bytes', before, after, hemit, heq, hlength⟩
    -- a fault here would be among those reported at the end
    · exact absurd (faults_of_emitFrom h) (by simp)
    · cases h

/-- What the rows of the exception table are made of: one for each region whose ends have different
positions. -/
theorem guard_ok {l : Layout} {regions : List Region} {p p' : Pool} {rows : List Guarded}
    (h : guard l regions p = (.ok rows, p')) :
    List.Forall₂ (fun region row => row.start = l.position region.start ∧
        row.stop = l.position region.stop ∧ row.handler = l.position region.handler)
      (regions.filter fun region => l.position region.start ≠ l.position region.stop) rows := by
  induction regions generalizing p p' rows with
  | nil =>
    obtain rfl := Except.ok.inj (Prod.mk.inj h).1
    exact .nil
  | cons region rest ih =>
    rw [guard] at h
    dsimp only at h
    split at h
    · next heq =>
      rw [List.filter_cons_of_neg (by simpa using heq)]
      exact ih h
    · next hne =>
      rw [List.filter_cons_of_pos (by simpa using hne)]
      -- whichever way the class is found, the rest of the table comes after it
      have hrow {work : Pooling Nat} (h : (work >>= fun catchType => guard l rest >>= fun rows =>
          pure (Guarded.mk (l.position region.start) (l.position region.stop)
            (l.position region.handler) catchType :: rows)) p = (.ok rows, p')) :
          List.Forall₂ (fun region row => row.start = l.position region.start ∧
              row.stop = l.position region.stop ∧ row.handler = l.position region.handler)
            (region :: rest.filter fun region =>
              l.position region.start ≠ l.position region.stop) rows := by
        rw [Pooling.bind_run] at h
        split at h
        · rw [Pooling.bind_run] at h
          split at h
          · next rows' _ hrows =>
            obtain rfl := Except.ok.inj (Prod.mk.inj h).1
            exact .cons ⟨rfl, rfl, rfl⟩ (ih hrows)
          · cases (Prod.mk.inj h).1
        · cases (Prod.mk.inj h).1
      split at h
      · exact hrow h
      · exact hrow h

/-- What assembly consists of when it succeeds. -/
structure Assembles (p : Pool) (r : Routine) (m : MethodCode) (p' : Pool) : Prop where
  faults_eq : (bindAll p r).faults = #[]
  size_le : (Bound.mk r (bindAll p r).indexes).layout.size r ≤ maxCodeSize
  emits : emitFrom ⟨r, (bindAll p r).indexes⟩ (Bound.mk r (bindAll p r).indexes).layout 0
    r.code.toList #[] #[] = .ok (m.code, #[])
  guards : guard (Bound.mk r (bindAll p r).indexes).layout r.regions (bindAll p r).pool =
    (.ok m.guarded, p')
  positions_eq : m.positions = (Bound.mk r (bindAll p r).indexes).layout.positions.pop

theorem assembles_of_eq_ok {p p' : Pool} {r : Routine} {m : MethodCode}
    (h : assemble p r = (.ok m, p')) : Assembles p r m p' := by
  unfold assemble at h
  dsimp only at h
  split at h
  · cases (Prod.mk.inj h).1
  · cases (Prod.mk.inj h).1
  split at h
  swap
  · cases (Prod.mk.inj h).1
  next hfaults =>
  split at h
  · cases (Prod.mk.inj h).1
  next l code hemit =>
  -- no fault has been collected if code is handed out
  unfold emitAll at hemit
  dsimp only at hemit
  split at hemit
  · cases hemit
  next hsize =>
  cases hrun : emitFrom ⟨r, (bindAll p r).indexes⟩ (Bound.mk r (bindAll p r).indexes).layout 0
      r.code.toList #[] #[] with
  | error stop => rw [hrun] at hemit; cases hemit
  | ok result =>
    obtain ⟨code', faults⟩ := result
    rw [hrun] at hemit
    dsimp only [bind, Except.bind] at hemit
    split at hemit
    · next hempty =>
      obtain ⟨rfl, rfl⟩ := Prod.mk.inj (Except.ok.inj hemit)
      split at h
      · cases (Prod.mk.inj h).1
      · next guarded pool hguard =>
        obtain ⟨hm, rfl⟩ := Prod.mk.inj h
        obtain rfl := Except.ok.inj hm
        rw [Array.isEmpty_iff] at hempty
        exact ⟨Array.isEmpty_iff.1 hfaults, Nat.not_lt.1 hsize, by rw [hrun, hempty], hguard, rfl⟩
    · cases hemit

end Assembly

/-- The label to which a switch goes when no key matches. -/
def Instruction.fallback? : Instruction → Option Label
  | tableSwitch _ _ fallback _ | lookupSwitch fallback _ _ => some fallback
  | _ => none

/-- The operands of a switch come after zeros that align them. -/
theorem Bound.emit_switch {b : Bound} {l : Layout} {offset : Nat} {insn : Instruction}
    {bytes : List UInt8} {fallback : Label} (h : b.emit l offset insn = .ok bytes)
    (hswitch : insn.fallback? = some fallback) :
    ∃ pad rest, bytes = insn.opcode.byte ::
        (List.replicate pad 0 ++ (l.branch b.routine offset fallback ++ rest)) ∧
      4 ∣ l.position offset + 1 + pad := by
  have halign : 4 ∣ l.position offset + 1 + switchPadding (l.position offset) := by
    unfold switchPadding
    omega
  cases insn with
  | tableSwitch low high fallback' targets =>
    obtain rfl := Option.some.inj hswitch
    obtain rfl := Except.ok.inj h
    exact ⟨_, _,
      by rw [Layout.padding, List.append_assoc, List.append_assoc, List.append_assoc]; rfl, halign⟩
  | lookupSwitch fallback' keys targets =>
    obtain rfl := Option.some.inj hswitch
    obtain ⟨pairs, -, rfl⟩ := emit_lookupSwitch_ok h
    exact ⟨_, _, by rw [Layout.padding, List.append_assoc, List.append_assoc]; rfl, halign⟩
  | _ => cases hswitch

/-- Whether a region has an operation in it. -/
def Routine.hasOperationIn (r : Routine) (region : Region) : Bool :=
  (List.range r.size).any fun i => region.contains i && r.code[i]?.any fun insn => !insn.isMarker

namespace MethodCode

/-- Where the instruction after an offset starts, or the code ends. -/
def nextPosition (m : MethodCode) (i : Nat) : Nat :=
  m.positions.getD (i + 1) m.code.size

/-- **A row of the exception table is for a region**: it covers a part of the code that is not
empty, the operations in it are those of the region, and the handlers are the same. -/
structure Covers (m : MethodCode) (r : Routine) (region : Region) (row : Guarded) : Prop where
  lt : row.start < row.stop
  le : row.stop ≤ m.code.size
  contains_iff : ∀ (i : Nat) (insn : Instruction) (start : Nat), r.code[i]? = some insn →
    insn.isMarker = false → m.positions[i]? = some start →
    (region.contains i ↔ row.start ≤ start ∧ start < row.stop)
  handler : m.positions[region.handler]? = some row.handler

/-- **Code that is laid out as its positions say.** -/
structure LaidOut (m : MethodCode) (b : Bound) : Prop where
  size_eq : m.positions.size = b.routine.size
  first : ∀ start, m.positions[0]? = some start → start = 0
  ascending : ∀ (i j start start' : Nat), i ≤ j → m.positions[i]? = some start →
    m.positions[j]? = some start' → start ≤ start'
  code_le : m.code.size ≤ 65535
  /-- The bytes of an instruction are those between its position and the next one. There are some
  exactly if it is an operation, and those of a switch start with aligned operands. -/
  bytes : ∀ (i : Nat) (insn : Instruction), b.routine.code[i]? = some insn → ∃ start bytes,
    m.positions[i]? = some start ∧ b.emit b.layout i insn = .ok bytes ∧
    start + bytes.length = m.nextPosition i ∧ m.nextPosition i ≤ m.code.size ∧
    (m.code.extract start (m.nextPosition i)).toList = bytes ∧
    (bytes = [] ↔ insn.isMarker) ∧
    ∀ fallback, insn.fallback? = some fallback → ∃ pad rest,
      bytes = insn.opcode.byte ::
        (List.replicate pad 0 ++ (b.layout.branch b.routine i fallback ++ rest)) ∧
      4 ∣ start + 1 + pad
  /-- The rows of the exception table, in order, are for the regions that have code. -/
  guarded : List.Forall₂ (m.Covers b.routine)
    (b.routine.regions.filter b.routine.hasOperationIn) m.guarded

end MethodCode

theorem Routine.hasOperationIn_iff {r : Routine} (hcanonical : r.Canonical) {region : Region} :
    r.hasOperationIn region = true ↔ ∃ i insn, region.start ≤ i ∧ i < region.stop ∧
      r.code[i]? = some insn ∧ insn.isPosition = false := by
  simp only [hasOperationIn, List.any_eq_true, List.mem_range, Bool.and_eq_true, Region.contains,
    decide_eq_true_eq, Option.any_eq_true, Bool.not_eq_true']
  constructor
  · rintro ⟨i, -, ⟨hstart, hstop⟩, insn, hinsn, hreal⟩
    exact ⟨i, insn, hstart, hstop, hinsn, Instruction.isPosition_of_isMarker hreal⟩
  · rintro ⟨i, insn, hstart, hstop, hinsn, hreal⟩
    have hmem := Array.mem_of_getElem? hinsn
    rw [Instruction.isPosition_eq_isMarker (hcanonical insn hmem)] at hreal
    exact ⟨i, (Array.getElem?_eq_some_iff.1 hinsn).1, ⟨hstart, hstop⟩, insn, hinsn, hreal⟩

namespace Layout.Steps

variable {l : Layout} {b : Bound} (h : l.Steps b)

include h

/-- The positions of the instructions are all positions but the last. -/
theorem getElem?_pop {i : Nat} (hi : i < b.routine.size) :
    l.positions.pop[i]? = some (l.position i) := by
  have hsize := h.size
  rw [Array.getElem?_pop, if_pos (by omega), Layout.position, Array.getD_eq_getD_getElem?,
    Array.getElem?_eq_getElem (by omega), Option.getD_some]

/-- An instruction ends where the next one starts, and the last one where the code ends. -/
theorem nextPosition_eq {m : MethodCode} (hpositions : m.positions = l.positions.pop)
    (hcode : m.code.size = l.position b.routine.size) {i : Nat} (hi : i < b.routine.size) :
    m.nextPosition i = l.position (i + 1) := by
  have hsize : m.positions.size = b.routine.size := by
    rw [hpositions, Array.size_pop, h.size, Nat.add_sub_cancel]
  rw [MethodCode.nextPosition, Array.getD_eq_getD_getElem?]
  by_cases hlast : i + 1 < b.routine.size
  · rw [hpositions, h.getElem?_pop hlast, Option.getD_some]
  · rw [Array.getElem?_eq_none (by omega), Option.getD_none, hcode,
      show i + 1 = b.routine.size by omega]

/-- The regions that have an operation are those whose ends are at different positions. -/
theorem filter_regions (hmade : b.routine.Made) (hcanonical : b.routine.Canonical) :
    b.routine.regions.filter b.routine.hasOperationIn =
      b.routine.regions.filter fun region =>
        l.position region.start ≠ l.position region.stop := by
  refine List.filter_congr fun region hregion => ?_
  obtain ⟨hle, hstop⟩ := hmade.checked.stop_lt hregion
  have hmono := h.mono hle (Nat.le_of_lt hstop)
  rw [Bool.eq_iff_iff, Routine.hasOperationIn_iff hcanonical,
    ← h.lt_iff_exists hle (Nat.le_of_lt hstop), decide_eq_true_iff]
  omega

/-- A row made from the positions of a region covers the operations of that region. -/
theorem covers {m : MethodCode} {region : Region} {row : Guarded}
    (hpositions : m.positions = l.positions.pop) (hcode : m.code.size = l.position b.routine.size)
    (hle : region.start ≤ region.stop) (hstop : region.stop < b.routine.size)
    (hhandler : region.handler < b.routine.size)
    (hlt : l.position region.start < l.position region.stop)
    (hrow : row.start = l.position region.start ∧ row.stop = l.position region.stop ∧
      row.handler = l.position region.handler) : m.Covers b.routine region row := by
  obtain ⟨hrowstart, hrowstop, hrowhandler⟩ := hrow
  refine ⟨?_, ?_, ?_, ?_⟩
  · rwa [hrowstart, hrowstop]
  · rw [hrowstop, hcode]
    exact h.mono (Nat.le_of_lt hstop) (Nat.le_refl _)
  · intro i insn start hinsn hreal hstart
    have hi : i < b.routine.size := (Array.getElem?_eq_some_iff.1 hinsn).1
    rw [hpositions, h.getElem?_pop hi] at hstart
    obtain rfl := Option.some.inj hstart
    rw [hrowstart, hrowstop, ← h.mem_range_iff (Nat.le_of_lt hstop) hle hinsn
      (Instruction.isPosition_of_isMarker hreal)]
    simp [Region.contains]
  · rw [hpositions, hrowhandler]
    exact h.getElem?_pop hhandler

/-- Rows made from the positions of the regions that have code are for the regions that have an
operation. -/
theorem covers_guarded {m : MethodCode} (hmade : b.routine.Made) (hcanonical : b.routine.Canonical)
    (hpositions : m.positions = l.positions.pop) (hcode : m.code.size = l.position b.routine.size)
    (hrows : List.Forall₂ (fun region row => row.start = l.position region.start ∧
        row.stop = l.position region.stop ∧ row.handler = l.position region.handler)
      (b.routine.regions.filter fun region => l.position region.start ≠ l.position region.stop)
      m.guarded) :
    List.Forall₂ (m.Covers b.routine) (b.routine.regions.filter b.routine.hasOperationIn)
      m.guarded := by
  obtain ⟨hlength, hrows⟩ := List.forall₂_iff_get.1 hrows
  rw [h.filter_regions hmade hcanonical]
  refine List.forall₂_iff_get.2 ⟨hlength, fun k hk hk' => ?_⟩
  obtain ⟨hregion, hne⟩ := List.mem_filter.1 (List.get_mem _ ⟨k, hk⟩)
  obtain ⟨hle, hstop⟩ := hmade.checked.stop_lt hregion
  have hmono := h.mono hle (Nat.le_of_lt hstop)
  have hlt := Nat.lt_of_le_of_ne hmono (of_decide_eq_true hne)
  exact h.covers hpositions hcode hle hstop (hmade.checked.handler_lt hregion) hlt (hrows k hk hk')

end Layout.Steps

/-- **Layout and emission agree**, for every canonical routine and every pool with which it can be
assembled. -/
theorem Assembly.assemble_laidOut {p p' : Pool} {r : Routine} {m : MethodCode} (hmade : r.Made)
    (hcanonical : r.Canonical) (h : assemble p r = (.ok m, p')) :
    m.LaidOut ⟨r, (bindAll p r).indexes⟩ := by
  obtain ⟨-, hsize, hemit, hguard, hpositions⟩ := assembles_of_eq_ok h
  have hsteps := (Bound.mk r (bindAll p r).indexes).steps_layout
  -- the routine with its indexes is one thing from here on
  generalize hb : Bound.mk r (bindAll p r).indexes = b at *
  obtain rfl : b.routine = r := by rw [← hb]
  have hstart : (#[] : Array UInt8).size = b.layout.position 0 := hsteps.zero.symm
  obtain ⟨-, -, hcode, hbytes⟩ := emitFrom_ok hsteps (by simp) hstart hemit
  rw [Nat.zero_add, Array.length_toList, ← Routine.size] at hcode
  have hkept {i : Nat} (hi : i < b.routine.size) :
      m.positions[i]? = some (b.layout.position i) := by
    rw [hpositions]
    exact hsteps.getElem?_pop hi
  have hcount : m.positions.size = b.routine.size := by
    rw [hpositions, Array.size_pop, hsteps.size, Nat.add_sub_cancel]
  have hnext {i : Nat} (hi : i < b.routine.size) :
      m.nextPosition i = b.layout.position (i + 1) :=
    hsteps.nextPosition_eq hpositions hcode hi
  refine ⟨hcount, ?_, ?_, ?_, ?_, ?_⟩
  · intro start hstart
    have hpos : 0 < b.routine.size := hcount ▸ (Array.getElem?_eq_some_iff.1 hstart).1
    rw [hkept hpos, hsteps.zero] at hstart
    exact (Option.some.inj hstart).symm
  · intro i j start start' hij hstart hstart'
    have hj : j < b.routine.size := hcount ▸ (Array.getElem?_eq_some_iff.1 hstart').1
    rw [hkept (by omega)] at hstart
    rw [hkept hj] at hstart'
    obtain rfl := Option.some.inj hstart
    obtain rfl := Option.some.inj hstart'
    exact hsteps.mono hij (Nat.le_of_lt hj)
  · rw [hcode]
    exact hsize
  · intro i insn hinsn
    have hi : i < b.routine.size := (Array.getElem?_eq_some_iff.1 hinsn).1
    obtain ⟨bytes, before, after, hwritten, hsplit, hbefore⟩ := hbytes i insn (by simpa using hinsn)
    rw [Nat.zero_add] at hwritten hbefore
    have hlength := b.length_emit hwritten
    -- the bytes end where the layout has the next instruction start
    have hend : b.layout.position i + bytes.length = m.nextPosition i := by
      rw [hnext hi, hsteps.succ i insn hinsn, hlength]
    refine ⟨b.layout.position i, bytes, hkept hi, hwritten, hend, ?_, ?_, ?_, ?_⟩
    · rw [hnext hi, hcode]
      exact hsteps.mono hi (Nat.le_refl _)
    · rw [← hend, Array.toList_extract, hsplit, ← hbefore]
      simp
    · have hcanon := hcanonical insn (Array.mem_of_getElem? hinsn)
      rw [← Instruction.isPosition_eq_isMarker hcanon, ← List.length_eq_zero_iff, hlength,
        ← not_iff_not, ← ne_eq, ← Nat.pos_iff_ne_zero, Instruction.codeSize_pos_iff,
        Bool.not_eq_true]
    · intro fallback hfallback
      exact b.emit_switch hwritten hfallback
  · exact hsteps.covers_guarded hmade hcanonical hpositions hcode (guard_ok hguard)

/-- A switch inside a protected block, and a block without an operation. -/
def guardedSwitch : RoutineParts where
  owner := "T"
  name := "f"
  descriptor := "()V"
  access := .static
  code := #[some (.label ⟨0, "start"⟩), some (.int .bipush 1),
    some (.tableSwitch 0 0 ⟨2, "rest"⟩ [⟨1, "zero"⟩]), some (.label ⟨1, "zero"⟩),
    some (.plain .nop), some (.label ⟨2, "rest"⟩), some (.line 7), some (.label ⟨3, "last"⟩),
    some (.plain .returnVoid), some (.label ⟨4, "handler"⟩), some (.plain .pop),
    some (.plain .returnVoid)]
  blocks := [⟨⟨0, "start"⟩, ⟨1, "zero"⟩, ⟨4, "handler"⟩, ""⟩,
    ⟨⟨2, "rest"⟩, ⟨3, "last"⟩, ⟨4, "handler"⟩, ""⟩]
  maxLocals := 0
  maxStack := 0

/-- The operands of the switch start at 4, and the block without an operation has no row. -/
theorem Assembly.assemble_laidOut_guardedSwitch :
    ∃ r m p, Routine.make guardedSwitch = .ok r ∧ r.Canonical ∧
      assemble .empty r = (.ok m, p) ∧ m.LaidOut ⟨r, (bindAll .empty r).indexes⟩ ∧
      m.positions = #[0, 0, 2, 20, 20, 21, 21, 21, 21, 22, 22, 23] ∧
      m.guarded = [⟨0, 20, 22, 0⟩] := by
  have hrun : (Routine.make guardedSwitch).toOption.any fun r =>
      r.code.all Instruction.isCanonical && (assemble .empty r).1.toOption.any fun m =>
        decide (m.positions = #[0, 0, 2, 20, 20, 21, 21, 21, 21, 22, 22, 23]) &&
          decide (m.guarded = [⟨0, 20, 22, 0⟩]) := by
    decide +kernel
  obtain ⟨r, hr, hrun⟩ := exists_ok_of_any hrun
  rw [Bool.and_eq_true, Array.all_eq_true'] at hrun
  obtain ⟨hcanonical, hrun⟩ := hrun
  obtain ⟨m, hm, hrun⟩ := exists_ok_of_any hrun
  rw [Bool.and_eq_true, decide_eq_true_iff, decide_eq_true_iff] at hrun
  have hassemble : assemble .empty r = (.ok m, (assemble .empty r).2) := Prod.ext hm rfl
  exact ⟨r, m, _, hr, hcanonical, hassemble, assemble_laidOut ⟨_, hr⟩ hcanonical hassemble, hrun⟩

end Outliner
