import Mathlib.Data.Finset.Card
import Outliner.Machine.Perform
import Outliner.Proofs.Reading

/-!
# Layouts settle and jumps land

Jumps are made long in rounds (`Bound.round`), each of which lays out the code with the jumps that
fell short in the one before. No position ever decreases, in spite of the zeros before the operands
of a switch, whose number can fall when code moves: what is lost there is less than what was gained
(`Instruction.end_mono`). Each round but the last makes a jump long that was short, so there are no
more of them than instructions, and the last one leaves every short jump within reach of its target.

* `Assembly.jumps_land` — rounds settle, positions only grow, and every jump and every row of a
  switch leads to the position of its label.
-/

namespace Outliner

/-! ### Rounds -/

namespace Bound

/-- The layouts of the rounds in which jumps are made long. -/
def round (b : Bound) : Nat → Layout
  | 0 => b.layoutWith (Array.replicate b.routine.size false)
  | k + 1 => b.layoutWith ((b.round k).lengthened b.routine)

theorem size_long_round (b : Bound) (k : Nat) : (b.round k).long.size = b.routine.size := by
  cases k with
  | zero => exact Array.size_replicate
  | succ k => exact Array.size_mapIdx

theorem steps_round (b : Bound) (k : Nat) : (b.round k).Steps b := by
  cases k with
  | zero => exact b.steps_layoutWith _
  | succ k => exact b.steps_layoutWith _

end Bound

namespace Layout

variable {r : Routine}

theorem lengthened_jump (l : Layout) {i : Nat} {op : Opcode} {label : Label}
    (h : r.code[i]? = some (.jump op label)) : (l.lengthened r).getD i false =
      (l.long.getD i false || !reachesShort (l.distance r i label)) := by
  rw [lengthened, Array.getD_eq_getD_getElem?, Array.getElem?_mapIdx, h]
  rfl

/-- A jump that is long stays long. -/
theorem long_lengthened {l : Layout} (hsize : l.long.size = r.size) {i : Nat}
    (h : l.long.getD i false) :
    (l.lengthened r).getD i false := by
  have hi : i < r.code.size := by
    by_contra hge
    rw [Array.getD_eq_getD_getElem?,
      Array.getElem?_eq_none (by rw [hsize, Routine.size]; omega)] at h
    cases h
  rw [lengthened, Array.getD_eq_getD_getElem?, Array.getElem?_mapIdx, Array.getElem?_eq_getElem hi,
    Option.map_some, Option.getD_some, h, Bool.true_or]

end Layout

/-! ### Positions -/

/-- **An instruction that starts later ends later**, also if it is a jump that has become long.
Fewer zeros may be needed before the operands of a switch, but never so many fewer. -/
theorem Instruction.end_mono (insn : Instruction) (index : Nat) {long long' : Bool}
    {position position' : Nat} (hlong : long → long') (h : position ≤ position') :
    position + insn.codeSize index long position ≤
      position' + insn.codeSize index long' position' := by
  cases insn with
  | tableSwitch low high fallback targets =>
    -- the operands start at the next multiple of four, and that does not decrease
    unfold codeSize switchPadding
    dsimp only
    omega
  | lookupSwitch fallback keys targets =>
    unfold codeSize switchPadding
    dsimp only
    omega
  | jump op label =>
    unfold codeSize
    dsimp only
    cases long with
    | false =>
      -- no form is shorter than that of a short jump
      have hleast : 3 ≤ if !long' then 3 else if op = .goto ∨ op = .jsr then 5 else 8 := by
        split
        · exact Nat.le_refl _
        · split <;> decide
      exact Nat.add_le_add h hleast
    | true =>
      rw [hlong rfl]
      exact Nat.add_le_add_right h _
  | _ => exact Nat.add_le_add_right h _

/-- Positions do not decrease when jumps are made long. -/
theorem Layout.Steps.position_mono {l l' : Layout} {b : Bound} (h : l.Steps b) (h' : l'.Steps b)
    (hlong : ∀ i, l.long.getD i false → l'.long.getD i false) (i : Nat) :
    l.position i ≤ l'.position i := by
  by_cases hi : i ≤ b.routine.size
  · induction i with
    | zero =>
      rw [h.zero]
      exact Nat.zero_le _
    | succ i ih =>
      have hinsn := Array.getElem?_eq_getElem (show i < b.routine.code.size from hi)
      rw [h.succ i _ hinsn, h'.succ i _ hinsn]
      exact Instruction.end_mono _ _ (hlong i) (ih (by omega))
  · rw [Layout.position, Array.getD_eq_getD_getElem?,
      Array.getElem?_eq_none (by rw [h.size]; omega)]
    exact Nat.zero_le _

theorem Bound.round_mono (b : Bound) (k i : Nat) :
    (b.round k).position i ≤ (b.round (k + 1)).position i :=
  (b.steps_round k).position_mono (b.steps_round (k + 1))
    (fun _ => Layout.long_lengthened (b.size_long_round k)) i

/-! ### The last round -/

namespace Layout

/-- The places where a jump could still be made long. -/
def shorts (l : Layout) (r : Routine) : Finset Nat :=
  (Finset.range r.size).filter fun i => l.long.getD i false = false

/-- A round that changes anything leaves fewer short jumps. -/
theorem shorts_lt {l : Layout} (l' : Layout) {r : Routine} (hsize : l.long.size = r.size)
    (hlong : l'.long = l.lengthened r) (hne : l.lengthened r ≠ l.long) :
    (l'.shorts r).card < (l.shorts r).card := by
  refine Finset.card_lt_card (Finset.ssubset_iff_subset_ne.2 ⟨fun i hi => ?_, fun heq => hne ?_⟩)
  · rw [shorts, Finset.mem_filter] at hi ⊢
    refine ⟨hi.1, Bool.eq_false_iff.2 fun h => ?_⟩
    rw [hlong, long_lengthened hsize h] at hi
    exact Bool.noConfusion hi.2
  · have hsize' : (l.lengthened r).size = r.size := Array.size_mapIdx
    refine Array.ext (hsize'.trans hsize.symm) fun i hi hi' => ?_
    -- the same places are short, so the same places are long
    have hmem : i ∈ l'.shorts r ↔ i ∈ l.shorts r := by rw [heq]
    rw [shorts, shorts, Finset.mem_filter, Finset.mem_filter, hlong, Finset.mem_range,
      Array.getD_eq_getD_getElem?, Array.getD_eq_getD_getElem?, Array.getElem?_eq_getElem hi,
      Array.getElem?_eq_getElem hi', Option.getD_some, Option.getD_some] at hmem
    have hlt : i < r.size := hsize' ▸ hi
    rw [Bool.eq_iff_iff]
    simpa [hlt] using not_congr hmem

end Layout

/-- **Lengthening comes to an end**, given a round for each short jump. -/
theorem Bound.settle_round (b : Bound) (rounds k : Nat)
    (h : ((b.round k).shorts b.routine).card ≤ rounds) :
    ∃ j ≤ k + rounds, b.settle rounds (b.round k) = b.round j ∧
      (b.round j).lengthened b.routine = (b.round j).long := by
  induction rounds generalizing k with
  | zero =>
    -- no short jump is left that another round could make long
    refine ⟨k, Nat.le_refl _, rfl, ?_⟩
    by_contra hne
    have := Layout.shorts_lt (b.round (k + 1)) (b.size_long_round k) rfl hne
    omega
  | succ rounds ih =>
    rw [settle]
    split
    · next heq => exact ⟨k, by omega, rfl, heq⟩
    · next hne =>
      have hlt := Layout.shorts_lt (b.round (k + 1)) (b.size_long_round k) rfl hne
      obtain ⟨j, hj, hsettle⟩ := ih (k + 1) (by omega)
      exact ⟨j, by omega, hsettle⟩

/-- A layout is that of the round after which nothing changes. -/
theorem Bound.exists_layout_eq_round (b : Bound) : ∃ k ≤ b.routine.size, b.layout = b.round k ∧
    (b.round k).lengthened b.routine = (b.round k).long := by
  have hcard : ((b.round 0).shorts b.routine).card ≤ b.routine.size := by
    refine (Finset.card_filter_le _ _).trans ?_
    rw [Finset.card_range]
  obtain ⟨k, hk, hlayout⟩ := b.settle_round b.routine.size 0 hcard
  exact ⟨k, by omega, hlayout⟩

/-- A jump that a layout leaves short is within reach of its target. -/
theorem Bound.reachesShort_layout (b : Bound) {i : Nat} {op : Opcode} {label : Label}
    (hinsn : b.routine.code[i]? = some (.jump op label))
    (hshort : b.layout.long.getD i false = false) :
    Layout.reachesShort (b.layout.distance b.routine i label) := by
  obtain ⟨k, -, hlayout, hfixed⟩ := b.exists_layout_eq_round
  rw [hlayout] at hshort ⊢
  -- a jump out of reach would be long after one more round, and that changes nothing
  have hlong := (b.round k).lengthened_jump hinsn
  rw [hfixed, hshort] at hlong
  simpa using hlong.symm

/-! ### Inverse conditions -/

theorem Numeric.holds_negated (cond : Cond) (a b : Int32) :
    holds cond.negated a b = !holds cond a b := by
  cases cond <;>
    simp only [holds, Cond.negated, ← decide_not, Int32.not_lt, Int32.not_le, ne_eq, not_not]

/-- **A conditional jump is taken exactly when the inverse one is not**, whatever operands it finds,
and both treat the operands alike. -/
theorem Exec.jumpTaken_inverse {op : Opcode} (h : op.flow = .branch) :
    jumpTaken op.inverse = (!·) <$> jumpTaken op := by
  cases op with
  | ifZero cond =>
    simp only [Opcode.inverse, jumpTaken, map_bind, map_pure, Numeric.holds_negated]
  | ifInt cond =>
    simp only [Opcode.inverse, jumpTaken, map_bind, map_pure, Numeric.holds_negated]
  | ifRef differ =>
    have hnot (same : Bool) : (same != !differ) = !(same != differ) := by
      cases same <;> cases differ <;> rfl
    simp only [Opcode.inverse, jumpTaken, map_bind, map_pure, hnot]
  | ifNull | ifNonNull =>
    simp only [Opcode.inverse, jumpTaken, map_bind, map_pure, ← decide_not, not_not]
  | _ => cases h

/-! ### Landing -/

namespace MethodCode

/-- How far a label is from a position. -/
def distance? (m : MethodCode) (r : Routine) (start : Nat) (label : Label) : Option Int := do
  let target ← m.positions[← r.offset? label]?
  return target - start

/-- **A jump over a distance stands in code between two positions**, in one of its forms. -/
inductive Jumps (m : MethodCode) (op : Opcode) (distance : Int) (start stop : Nat) : Prop where
  /-- A short jump. -/
  | short (hread : m.read start = some (.jump op distance, stop)) (hstop : stop = start + 3)
  /-- A long jump without a condition, by the operation for it. -/
  | goto (hop : op = .goto) (hread : m.read start = some (.jump .gotoWide distance, stop))
    (hstop : stop = start + 5)
  | jsr (hop : op = .jsr) (hread : m.read start = some (.jump .jsrWide distance, stop))
    (hstop : stop = start + 5)
  /-- A long jump with a condition: the inverse one leads over a jump without a condition. -/
  | over (hinverse : Exec.jumpTaken op.inverse = (!·) <$> Exec.jumpTaken op)
    (hread : m.read start = some (.jump op.inverse 8, start + 3))
    (hread' : m.read (start + 3) = some (.jump .gotoWide (distance - 3), stop))
    (hstop : stop = start + 8)

/-- **Every jump and every row of a switch leads to its label.** The rows of a table are all those
that were written, also if its keys wrap around. -/
structure Lands (m : MethodCode) (r : Routine) : Prop where
  jump : ∀ (i : Nat) (op : Opcode) (label : Label), r.code[i]? = some (.jump op label) →
    ∃ start distance, m.positions[i]? = some start ∧ m.distance? r start label = some distance ∧
      m.Jumps op distance start (m.nextPosition i)
  switch : ∀ (i : Nat) (insn : Instruction) (fallback : Label), r.code[i]? = some insn →
    insn.fallback? = some fallback →
    ∃ start coded, m.positions[i]? = some start ∧ m.scan start = some (coded, m.nextPosition i) ∧
      insn.targets.map (m.distance? r start) = coded.distances.map some

end MethodCode

/-- The distances of a layout are those between positions of the code. -/
theorem Layout.Steps.distance?_eq {l : Layout} {b : Bound} (h : l.Steps b) {m : MethodCode}
    (hchecked : b.routine.Checked) (hpositions : m.positions = l.positions.pop) {i : Nat}
    {insn : Instruction} (hinsn : b.routine.code[i]? = some insn) {label : Label}
    (hlabel : label ∈ insn.targets) :
    m.distance? b.routine (l.position i) label = some (l.distance b.routine i label) := by
  obtain ⟨k, hk⟩ := hchecked.targets insn (Array.mem_of_getElem? hinsn) label hlabel
  rw [MethodCode.distance?, hk, Option.bind_eq_bind, Option.bind_some, hpositions,
    h.getElem?_pop (hchecked.offset?_lt hk), Layout.distance, Layout.target, hk]
  rfl

/-- A jump stands in code in one of its forms. -/
theorem MethodCode.Holds.jumps {m : MethodCode} {b : Bound} {i : Nat} {op : Opcode} {label : Label}
    {bytes : List UInt8} (h : m.Holds b i (.jump op label) bytes)
    (hinsn : b.routine.code[i]? = some (.jump op label))
    (hcanonical : (Instruction.jump op label).isCanonical) :
    m.Jumps op (b.layout.distance b.routine i label) (b.layout.position i) (m.nextPosition i) := by
  obtain rfl := Except.ok.inj h.emit
  have hnext := h.next
  rw [b.length_emit h.emit] at hnext
  cases hlong : b.layout.long.getD i false with
  | false =>
    rw [hlong] at hnext
    have hreach := b.reachesShort_layout hinsn hlong
    exact .short (h.readBy fun _ => Layout.read_jumpBytes_short hcanonical hlong hreach _) hnext
  | true =>
    rw [hlong] at hnext
    have hform : op.form = .jump := Instruction.form_eq hcanonical rfl
    rcases Opcode.eq_of_form_jump hform with rfl | rfl | hop
    · exact .goto rfl (h.readBy fun _ => (Layout.read_jumpBytes_long h.near hlong _).1) hnext
    · exact .jsr rfl (h.readBy fun _ => (Layout.read_jumpBytes_long h.near hlong _).2) hnext
    · have hbytes : b.layout.jumpBytes b.routine i op label = _ := Layout.jumpBytes_over hop hlong
      have hstop : m.nextPosition i = b.layout.position i + 8 := by
        rw [h.next, hbytes]
        simp
      have hdrop := h.drop
      rw [hbytes, List.append_assoc] at hdrop
      -- the second jump starts behind the first one
      have hlater : m.code.toList.drop (b.layout.position i + 3) = Opcode.gotoWide.byte ::
          Bytes.bigEndianInt 4 (b.layout.distance b.routine i label - 3) ++
            m.code.toList.drop (m.nextPosition i) := by
        rw [← List.drop_drop, hdrop]
        exact List.drop_left' (by simp)
      have hdistance := h.near i label
      have hnext_le := h.next_le
      exact .over (Exec.jumpTaken_inverse hop)
        (readBy_of_drop hdrop (by omega) (hlater ▸ Layout.read_inverse hop _))
        (readBy_of_drop hlater h.next_le (Layout.read_gotoWide (by omega) (by omega) _)) hstop

/-- A switch stands in code with the distances of its labels. -/
theorem MethodCode.Holds.switches {m : MethodCode} {b : Bound} {i : Nat} {insn : Instruction}
    {bytes : List UInt8} {fallback : Label} (h : m.Holds b i insn bytes)
    (hcanonical : insn.isCanonical) (hswitch : insn.fallback? = some fallback) : ∃ coded,
      m.scan (b.layout.position i) = some (coded, m.nextPosition i) ∧
        coded.distances = insn.targets.map (b.layout.distance b.routine i) := by
  have hlength := b.length_emit h.emit
  have hmost := h.length_le
  cases insn with
  | tableSwitch low high fallback' targets =>
    unfold Instruction.codeSize at hlength
    dsimp only at hlength
    have hrows := RowCount.wrapping_eq hcanonical (by omega)
    exact ⟨_, h.readBy fun _ => Bound.read_emit_tableSwitch h.emit hcanonical h.near hrows, rfl⟩
  | lookupSwitch fallback' keys targets =>
    unfold Instruction.codeSize at hlength
    refine ⟨_, h.readBy fun _ => Bound.read_emit_lookupSwitch h.emit hcanonical h.near
      (by dsimp only at hlength; omega), ?_⟩
    -- rows are pairs with keys, and no label is left without one
    have hkeys : targets.length ≤ keys.length := Nat.le_of_eq (of_decide_eq_true hcanonical).symm
    rw [Instruction.coded, Coded.distances, List.map_map, Instruction.targets, List.map_cons]
    nth_rewrite 2 [← List.map_snd_zip hkeys]
    rw [List.map_map]
    rfl
  | _ => cases hswitch

/-- A jump of the code, with its position, its distance and where it ends. -/
theorem MethodCode.Lands.jumps_at {m : MethodCode} {r : Routine} (h : m.Lands r) {i : Nat}
    {op : Opcode} {label : Label} (hinsn : r.code[i]? = some (.jump op label)) {start stop : Nat}
    (hstart : m.positions[i]? = some start) {distance : Int}
    (hdistance : m.distance? r start label = some distance) (hstop : m.nextPosition i = stop) :
    m.Jumps op distance start stop := by
  obtain ⟨start', distance', hstart', hdistance', hjumps⟩ := h.jump i op label hinsn
  obtain rfl : start = start' := Option.some.inj (hstart.symm.trans hstart')
  obtain rfl : distance = distance' := Option.some.inj (hdistance.symm.trans hdistance')
  exact hstop ▸ hjumps

/-- **Lengthening settles and every jump lands**, whatever the indexes of constants are: for every
canonical routine there is a round after which nothing changes, at most as many as there are
instructions, no position decreases from one round to the next, and in code that can be assembled
every jump and every row of a switch leads to its label. -/
theorem Assembly.jumps_land {b : Bound} (hmade : b.routine.Made)
    (hcanonical : b.routine.Canonical) :
    (∃ k ≤ b.routine.size, b.layout = b.round k ∧
      (b.round k).lengthened b.routine = (b.round k).long) ∧
    (∀ k i, (b.round k).position i ≤ (b.round (k + 1)).position i) ∧
    ∀ p m p', assemble p b.routine = (.ok m, p') → m.Lands b.routine := by
  refine ⟨b.exists_layout_eq_round, b.round_mono, fun p m p' h => ?_⟩
  -- the indexes that count are those of the pool
  obtain ⟨c, hc, hindexes⟩ : ∃ c : Bound, c.routine = b.routine ∧
      c.indexes = (bindAll p c.routine).indexes :=
    ⟨⟨b.routine, (bindAll p b.routine).indexes⟩, rfl, rfl⟩
  rw [← hc] at hmade hcanonical h ⊢
  have hpositions : m.positions = c.layout.positions.pop := by
    rw [(assembles_of_eq_ok h).positions_eq, ← hindexes]
  constructor
  · intro i op label hinsn
    obtain ⟨bytes, hholds⟩ := holds_of_assemble h hindexes hinsn
    exact ⟨_, _, hholds.position, c.steps_layout.distance?_eq hmade.checked hpositions hinsn
      List.mem_cons_self, hholds.jumps hinsn (hcanonical _ (Array.mem_of_getElem? hinsn))⟩
  · intro i insn fallback hinsn hswitch
    obtain ⟨bytes, hholds⟩ := holds_of_assemble h hindexes hinsn
    obtain ⟨coded, hread, hdistances⟩ :=
      hholds.switches (hcanonical _ (Array.mem_of_getElem? hinsn)) hswitch
    refine ⟨_, coded, hholds.position, hread, ?_⟩
    rw [hdistances, List.map_map]
    exact List.map_congr_left fun label hlabel =>
      c.steps_layout.distance?_eq hmade.checked hpositions hinsn hlabel

/-- Jumps forwards and backwards, with and without a condition, and a switch. A table that is never
reached keeps what stands before it and what stands behind it out of reach of short jumps. -/
def backAndForth : RoutineParts where
  owner := "T"
  name := "f"
  descriptor := "()V"
  access := .static
  code := #[some (.label ⟨0, "top"⟩), some (.int .bipush 1), some (.jump (.ifZero .eq) ⟨2, "out"⟩),
    some (.int .bipush 7), some (.lookupSwitch ⟨2, "out"⟩ [1, 5] [⟨0, "top"⟩, ⟨1, "back"⟩]),
    some (.label ⟨1, "back"⟩), some (.jump .goto ⟨0, "top"⟩),
    some (.tableSwitch 1 8190 ⟨2, "out"⟩ (List.replicate 8190 ⟨1, "back"⟩)),
    some (.label ⟨2, "out"⟩), some (.jump .goto ⟨1, "back"⟩), some (.plain .returnVoid)]
  blocks := []
  maxLocals := 0
  maxStack := 0

/-- The condition leads 32814 bytes forwards and becomes two jumps, the last jump leads 32776 bytes
back by the long form, the one in between leads 40 bytes back by the short one, and the rows of the
switch lead to all three labels. -/
theorem Assembly.jumps_land_backAndForth :
    ∃ r m p, Routine.make backAndForth = .ok r ∧ r.Canonical ∧
      assemble .empty r = (.ok m, p) ∧ m.Lands r ∧
      m.positions = #[0, 0, 2, 10, 12, 40, 40, 43, 32816, 32816, 32821] ∧
      m.read 2 = some (.jump (.ifZero .ne) 8, 5) ∧ m.read 5 = some (.jump .gotoWide 32811, 10) ∧
      m.read 40 = some (.jump .goto (-40), 43) ∧
      m.read 32816 = some (.jump .gotoWide (-32776), 32821) ∧
      ∃ coded, m.scan 12 = some (coded, 40) ∧ coded.distances = [32804, -12, 28] := by
  obtain ⟨r, m, p, hr, hcanonical, hassemble, hrun⟩ := exists_assemble_of_any
    backAndForth (fun r m => decide (
      m.positions = #[0, 0, 2, 10, 12, 40, 40, 43, 32816, 32816, 32821] ∧
      (r.code[2]? = some (Instruction.jump (.ifZero .eq) ⟨2, "out"⟩) ∧
        m.distance? r 2 ⟨2, "out"⟩ = some 32814) ∧
      (r.code[6]? = some (Instruction.jump .goto ⟨0, "top"⟩) ∧
        m.distance? r 40 ⟨0, "top"⟩ = some (-40)) ∧
      (r.code[9]? = some (Instruction.jump .goto ⟨1, "back"⟩) ∧
        m.distance? r 32816 ⟨1, "back"⟩ = some (-32776)) ∧
      r.code[4]? = some
        (Instruction.lookupSwitch ⟨2, "out"⟩ [1, 5] [⟨0, "top"⟩, ⟨1, "back"⟩]) ∧
      [⟨2, "out"⟩, ⟨0, "top"⟩, ⟨1, "back"⟩].map (m.distance? r 12) =
        [32804, -12, 28].map some)) (by decide +kernel)
  obtain ⟨hpositions, hfirst, hsecond, hthird, hswitch, hrows⟩ := of_decide_eq_true hrun
  obtain ⟨-, -, hlands⟩ := jumps_land (b := ⟨r, #[]⟩) ⟨_, hr⟩ hcanonical
  have hlands := hlands _ m p hassemble
  have hnext (i : Nat) : m.nextPosition i =
      #[0, 0, 2, 10, 12, 40, 40, 43, 32816, 32816, 32821].getD (i + 1) m.code.size := by
    rw [MethodCode.nextPosition, hpositions]
  -- which form a jump has is seen from where it ends
  have hover := hlands.jumps_at hfirst.1 (by rw [hpositions]; rfl) hfirst.2 (hnext 2)
  have hshort := hlands.jumps_at hsecond.1 (by rw [hpositions]; rfl) hsecond.2 (hnext 6)
  have hlong := hlands.jumps_at hthird.1 (by rw [hpositions]; rfl) hthird.2 (hnext 9)
  obtain ⟨hread, hread'⟩ : m.read 2 = some (.jump (.ifZero .ne) 8, 5) ∧
      m.read 5 = some (.jump .gotoWide 32811, 10) := by
    cases hover with
    | short _ hstop => cases hstop
    | goto hop _ _ | jsr hop _ _ => cases hop
    | «over» _ hread hread' _ => exact ⟨hread, hread'⟩
  have hback : m.read 40 = some (.jump .goto (-40), 43) := by
    cases hshort with
    | short hread _ => exact hread
    | goto _ _ hstop | «over» _ _ _ hstop => cases hstop
    | jsr hop _ _ => cases hop
  have hfar : m.read 32816 = some (.jump .gotoWide (-32776), 32821) := by
    cases hlong with
    | goto _ hread _ => exact hread
    | short _ hstop | «over» _ _ _ hstop => cases hstop
    | jsr hop _ _ => cases hop
  obtain ⟨start, coded, hstart, hscan, hcoded⟩ := hlands.switch 4 _ _ hswitch rfl
  obtain rfl : 12 = start := by
    rw [hpositions] at hstart
    exact Option.some.inj hstart
  rw [hnext 4] at hscan
  have hdistances : coded.distances = [32804, -12, 28] :=
    (List.map_injective_iff.2 (Option.some_injective _)) (hcoded.symm.trans hrows)
  exact ⟨r, m, p, hr, hcanonical, hassemble, hlands, hpositions, hread, hread', hback, hfar, coded,
    hscan, hdistances⟩

end Outliner
