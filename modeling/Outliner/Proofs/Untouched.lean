import Outliner.Proofs.Approach
import Outliner.Proofs.Checking
import Outliner.Proofs.Provenance

/-!
# What a footprint delimits

The footprint of a range says how deep the range reaches into the stack and which slots it writes.
The extraction of a range relies on it: what the footprint does not list is taken to be left alone.
For the cuts that a survey finds, that is so (`Survey.footprint_delimits`): below the least depth
the frames at the start, inside and at the end of the range agree exactly, and so do the slots at
its start and its end, unless an instruction of the range writes to them or right beside them.

Two bounds come together. The frames in the range absorb the frame at its start, because control
brings it there (`Crossing.absorbs_before`). Conversely, all that ever came there on the way to the
last frames is absorbed by the frame at the start (`Crossing.before_absorbs`). A constructor changes
the types of its object everywhere, but the objects that a range initializes are made in the range,
and so are not among what it finds at its start.
-/

namespace Outliner

/-! ### Places in a frame -/

/-- The cell of a stack at a depth counted from the bottom; where there is none, it is unusable. -/
def cellAt (stack : List JType) (depth : Nat) : JType :=
  stack.reverse[depth]?.getD .top

section Cells

variable {lower stack : List JType} {d : Nat}

/-- The cells above do not matter. -/
theorem cellAt_append (upper : List JType) (h : d < lower.length) :
    cellAt (upper ++ lower) d = cellAt lower d := by
  unfold cellAt
  rw [List.reverse_append, List.getElem?_append_left (by rwa [List.length_reverse])]

theorem cellAt_drop {k : Nat} (h : d < (stack.drop k).length) :
    cellAt (stack.drop k) d = cellAt stack d := by
  have happend := cellAt_append (stack.take k) h
  rw [List.take_append_drop] at happend
  exact happend.symm

theorem cellAt_map (φ : JType → JType) (h : d < stack.length) :
    cellAt (stack.map φ) d = φ (cellAt stack d) := by
  have hlt : d < stack.reverse.length := by rwa [List.length_reverse]
  unfold cellAt
  rw [← List.map_reverse, List.getElem?_map, List.getElem?_eq_getElem hlt]
  rfl

end Cells

namespace Frame

/-- A cell of the stack, counted from the bottom, or a slot. -/
inductive Place where
  | cell (depth : Nat)
  | slot (index : Int)

/-- The type at a place of a frame. -/
def typeAt (f : Frame) : Place → JType
  | .cell depth => cellAt f.stack depth
  | .slot index => f.slot index

variable {f g m : Frame}

theorem cell?_eq_typeAt {d : Nat} (h : d < f.depth) : f.cell? d = some (f.typeAt (.cell d)) := by
  have hlt : d < f.stack.reverse.length := by rwa [List.length_reverse]
  change (if 0 ≤ (d : Int) then f.stack.reverse[(d : Int).toNat]? else none) =
    some (f.stack.reverse[d]?.getD .top)
  rw [if_pos (Int.natCast_nonneg d), Int.toNat_natCast, List.getElem?_eq_getElem hlt]
  rfl

theorem typeAt_merge {H : Hierarchy} {changed : Bool} (h : f.merge H g = .ok (m, changed))
    (place : Place) : m.typeAt place = (f.typeAt place).merge H (g.typeAt place) := by
  obtain ⟨hdepth, hstack, hslots, -⟩ := merge_eq_ok h
  cases place with
  | slot index => exact hslots index
  | cell d =>
    change cellAt m.stack d = (cellAt f.stack d).merge H (cellAt g.stack d)
    unfold cellAt
    rw [hstack, List.reverse_zipWith hdepth, List.getElem?_zipWith]
    by_cases hd : d < f.depth
    · have hf : d < f.stack.reverse.length := by rwa [List.length_reverse]
      have hg : d < g.stack.reverse.length := by rwa [List.length_reverse, ← depth, ← hdepth]
      rw [List.getElem?_eq_getElem hf, List.getElem?_eq_getElem hg]
      rfl
    · have hf : f.stack.reverse.length ≤ d := by
        rw [List.length_reverse]
        exact Nat.le_of_not_lt hd
      rw [List.getElem?_eq_none hf]
      exact (JType.top_merge _).symm

theorem Absorbs.typeAt (h : f.Absorbs .flat g) (place : Place) :
    (f.typeAt place).Absorbs .flat (g.typeAt place) :=
  (typeAt_merge h place).symm

end Frame

/-- The store of a value affects a slot: it is done there or right beside it. -/
def SlotAccess.Disturbs (a : SlotAccess) (slot : Int) : Prop :=
  a.slot = slot ∨ Word.wrap (a.slot - 1) = slot ∨ (a.size = 2 ∧ Word.wrap (a.slot + 1) = slot)

/-- A store leaves the slots alone that it does not affect. -/
theorem Frame.slot_setSlot_of_not_disturbs {f : Frame} {index slot : Int} {t : JType}
    (h : ¬ SlotAccess.Disturbs ⟨index, t.size⟩ slot) :
    (f.setSlot index t).slot slot = f.slot slot := by
  obtain ⟨hs, hbefore, hafter⟩ : index ≠ slot ∧ Word.wrap (index - 1) ≠ slot ∧
      (t.size = 2 → Word.wrap (index + 1) ≠ slot) := by
    simpa [SlotAccess.Disturbs] using h
  unfold setSlot Frame.slot
  dsimp only
  split
  · next hwide => split <;> grind [SlotMap.get?_insert]
  · next hnarrow => split <;> grind [SlotMap.get?_insert]

/-! ### One instruction -/

namespace Instruction

/-- What an instruction stores in slots. -/
def stores : Instruction → List SlotAccess
  | slot (.store kind) index => [⟨index, kind.size⟩]
  | iinc index _ => [⟨index, 1⟩]
  | _ => []

/-- An instruction executed at a depth does not reach a place. -/
def Avoids (insn : Instruction) (depth : Nat) : Frame.Place → Prop
  | .cell d => d + insn.drawn < depth
  | .slot s => ∀ a ∈ insn.stores, ¬ a.Disturbs s

end Instruction

namespace Tracker

variable {owner : String} {offset : Int} {insn : Instruction} {f after : Frame} {e : Effect}

/-- What an instruction takes off and stores does not depend on the frame. -/
theorem Does.pops_stores (h : Does owner offset insn f after e) :
    e.pops = insn.drawn ∧ e.writes = insn.stores := by
  cases h with
  | stack slot reads writes drawn_le pops reworks =>
    refine ⟨pops, writes.trans ?_⟩
    cases insn with
    | slot op index => cases op <;> cases slot
    | iinc index amount => cases slot
    | _ => rfl
  | load insn_eq holds pops reads writes =>
    subst insn_eq
    exact ⟨pops, writes⟩
  | store insn_eq holds stack pops reads writes =>
    subst insn_eq
    exact ⟨pops, writes⟩
  | increment insn_eq holds pops reads writes =>
    subst insn_eq
    exact ⟨pops, writes⟩
  | ret insn_eq pops reads writes =>
    subst insn_eq
    exact ⟨pops, writes⟩

theorem Does.pops_le (h : Does owner offset insn f after e) : e.pops ≤ f.depth := by
  cases h with
  | stack slot reads writes drawn_le pops reworks => exact pops ▸ drawn_le
  | load insn_eq holds pops => exact pops ▸ Nat.zero_le _
  | store insn_eq holds stack pops =>
    rw [pops, Frame.depth, stack, List.length_append, SlotKind.length_cellsOf holds]
    exact Nat.le_add_right _ _
  | increment insn_eq holds pops => exact pops ▸ Nat.zero_le _
  | ret insn_eq pops => exact pops ▸ Nat.zero_le _

/-- What lies below the cells taken off. -/
theorem Reworks.cell {k : Nat} {s' : State} (h : Reworks owner offset f k s') {d : Nat}
    (hd : d + k < f.depth) :
    cellAt s'.frame.stack d = cellAt f.stack d ∨
      ((cellAt f.stack d).isUninitialized ∧ cellAt f.stack d ∈ f.stack.take k) := by
  have hlength : d < (f.stack.drop k).length := by
    rw [List.length_drop]
    exact Nat.lt_sub_of_add_lt hd
  cases h with
  | plain pushed known => exact .inl ((cellAt_append pushed hlength).trans (cellAt_drop hlength))
  | init pushed name site mem definite =>
    by_cases heq : cellAt f.stack d = .uninitialized name site
    · rw [heq]
      exact .inr ⟨rfl, mem⟩
    · refine .inl ((cellAt_append pushed (by simpa [Frame.replace] using hlength)).trans ?_)
      change cellAt (List.map _ (f.stack.drop k)) d = _
      rw [cellAt_map _ hlength, cellAt_drop hlength, if_neg heq]

/-- **What an instruction does not reach it leaves alone**, except for an object among its operands
whose constructor it runs. -/
theorem Does.typeAt (h : Does owner offset insn f after e) {place : Frame.Place}
    (havoids : insn.Avoids f.depth place) :
    after.typeAt place = f.typeAt place ∨
      ((f.typeAt place).isUninitialized ∧ f.typeAt place ∈ f.stack.take insn.drawn) := by
  cases h with
  | stack slot reads writes drawn_le pops reworks =>
    cases place with
    | cell d => exact reworks.cell havoids
    | slot s =>
      -- a slot changes only with an object that is taken off, of which it holds a copy
      rcases reworks.slot s with hsame | ⟨name, site, heq, hmem, -⟩
      · exact .inl hsame
      · refine .inr ?_
        change (f.slot s).isUninitialized ∧ f.slot s ∈ _
        rw [heq]
        exact ⟨rfl, hmem⟩
  | load insn_eq holds pops reads writes =>
    left
    cases place with
    | cell d => exact cellAt_append _ (Nat.lt_of_le_of_lt (Nat.le_add_right d _) havoids)
    | slot s => rfl
  | @store kind index t ts _ insn_eq holds stack pops reads writes =>
    left
    subst insn_eq
    cases place with
    | cell d =>
      -- the stored value lies above the cell
      have hlength : d < ts.length := by
        have hcells := SlotKind.length_cellsOf holds
        change d + (kind.size + 0) < f.stack.length at havoids
        rw [stack, List.length_append] at havoids
        omega
      change cellAt ts d = cellAt f.stack d
      rw [stack]
      exact (cellAt_append _ hlength).symm
    | slot s =>
      have hother := havoids ⟨index, kind.size⟩ (List.mem_singleton_self _)
      rw [← (SlotKind.holds_usable holds).2] at hother
      exact Frame.slot_setSlot_of_not_disturbs hother
  | @increment index amount _ insn_eq holds pops reads writes =>
    left
    subst insn_eq
    cases place with
    | cell d => rfl
    | slot s =>
      exact Frame.slot_setSlot_of_not_disturbs (havoids ⟨index, 1⟩ (List.mem_singleton_self _))
  | ret insn_eq pops reads writes => exact .inl rfl

end Tracker

/-! ### Inside a range -/

/-- A reachable instruction of a range, given by its first and its last offset, stores something
that affects the slot. -/
def Flow.Disturbs (flow : Flow) (first last : Int) (slot : Int) : Prop :=
  ∃ i : Nat, first ≤ i ∧ i ≤ last ∧ flow.reachable i ∧ ∃ a ∈ (flow.effect i).writes, a.Disturbs slot

/-- The places a range leaves alone: the cells below a floor, and the slots it does not affect. -/
def Flow.Untouched (flow : Flow) (start stop floor : Nat) : Frame.Place → Prop
  | .cell d => d < floor
  | .slot s => ¬ flow.Disturbs start ((stop : Int) - 1) s

theorem Frame.Clean.typeAt {start stop : Nat} {f : Frame} (h : f.Clean start stop)
    (place : Frame.Place) : ¬ (f.typeAt place).MadeIn start stop := by
  cases place with
  | slot index => exact h.slots index
  | cell d =>
    change ¬ (f.stack.reverse[d]?.getD .top).MadeIn start stop
    cases hcell : f.stack.reverse[d]? with
    | none => exact fun hmade => absurd hmade.isUninitialized Bool.false_ne_true
    | some t => exact h.stack t (List.mem_reverse.1 (List.mem_of_getElem? hcell))

section Range

variable {flow : Flow} (hp : flow.Proper) {c : Cut} {start stop floor : Nat} {before exit : Frame}
  (hx : Crossing flow c start stop before exit floor) (hm : Movable flow.routine start stop)
  {i : Nat} (hlow : start ≤ i) (hhigh : i < stop) {f : Frame}
  (hf : flow.frame? i = some (some f))

include hp hx hlow hhigh hf

/-- An instruction of the range takes nothing off below the floor. -/
theorem Crossing.floor_add_pops_le : floor + (flow.effect i).pops ≤ f.depth := by
  obtain ⟨insn, after, hinsn, hrest⟩ := hp.atRest hf
  have hle := hx.floor_le i f hlow hhigh hf
  have hpops : (flow.effect i).pops ≤ f.depth := (hp.tracks hf hinsn hrest).pops_le
  omega

/-- An instruction of the range does not reach the places that the range leaves alone. -/
theorem Crossing.avoids {insn : Instruction} (hinsn : flow.routine.code[i]? = some insn)
    {place : Frame.Place} (hplace : flow.Untouched start stop floor place) :
    insn.Avoids f.depth place := by
  obtain ⟨insn', after, hinsn', hrest⟩ := hp.atRest hf
  obtain rfl := Option.some.inj (hinsn.symm.trans hinsn')
  obtain ⟨hpops, hwrites⟩ := (hp.tracks hf hinsn hrest).pops_stores
  cases place with
  | cell d =>
    have hle := hx.floor_add_pops_le hp hlow hhigh hf
    rw [hpops] at hle
    have hlt : d < floor := hplace
    change d + insn.drawn < f.depth
    omega
  | slot s =>
    intro a ha hdisturbs
    exact hplace ⟨i, by omega, by omega, Flow.reachable_iff.2 ⟨f, hf⟩, a, hwrites ▸ ha, hdisturbs⟩

include hm

/-- An object among the operands of an instruction of the range is made in the range, if it is not
initialized. -/
theorem Crossing.madeIn_of_mem_take {insn : Instruction}
    (hinsn : flow.routine.code[i]? = some insn) {t : JType} (ht : t ∈ f.stack.take insn.drawn)
    (hu : t.isUninitialized) : t.MadeIn start stop := by
  obtain ⟨insn', after, hinsn', hrest⟩ := hp.atRest hf
  obtain rfl := Option.some.inj (hinsn.symm.trans hinsn')
  have hle := hx.floor_add_pops_le hp hlow hhigh hf
  rw [(hp.tracks hf hinsn hrest).pops_stores.1] at hle
  exact (hx.homemade hp hm hlow hhigh hf).cells t
    (List.take_subset_take_left f.stack (by omega) ht) hu

/-- **An instruction of the range leaves alone what is as it was at the start.** -/
theorem Crossing.typeAt_after {insn : Instruction} (hinsn : flow.routine.code[i]? = some insn)
    {after : Frame} (hrest : flow.AtRest i f insn after) {place : Frame.Place}
    (hplace : flow.Untouched start stop floor place)
    (habsorbs : (f.typeAt place).Absorbs .flat (before.typeAt place)) :
    after.typeAt place = f.typeAt place := by
  rcases (hp.tracks hf hinsn hrest).typeAt (hx.avoids hp hlow hhigh hf hinsn hplace) with
    hsame | ⟨hu, hmem⟩
  · exact hsame
  · have hmade := hx.madeIn_of_mem_take hp hm hlow hhigh hf hinsn hmem hu
    rw [JType.eq_of_absorbs habsorbs hu] at hmade
    exact absurd hmade ((hx.clean_before hp hm).typeAt place)

/-- **The frames in the range absorb the one at its start**, where the range leaves them alone. -/
theorem Crossing.absorbs_before {place : Frame.Place}
    (hplace : flow.Untouched start stop floor place) :
    (f.typeAt place).Absorbs .flat (before.typeAt place) := by
  refine hx.frames_induction hp hm
    (P := fun f => (f.typeAt place).Absorbs .flat (before.typeAt place)) (.refl _)
    (fun i f after insn hlow hhigh hf hinsn hrest hbefore => ?_)
    (fun f g hg habsorbs => (Frame.Absorbs.typeAt habsorbs place).trans hg) hlow hhigh hf
  rw [hx.typeAt_after hp hm hlow hhigh hf hinsn hrest hplace hbefore]
  exact hbefore

/-- **The frame at the start of the range absorbs those in it**, where the range leaves them
alone. -/
theorem Crossing.before_absorbs {place : Frame.Place}
    (hplace : flow.Untouched start stop floor place) :
    (before.typeAt place).Absorbs .flat (f.typeAt place) := by
  rcases Nat.eq_or_lt_of_le hlow with rfl | hlt
  · rw [hx.before_eq] at hf
    obtain rfl := Option.some.inj (Option.some.inj hf)
    exact .refl _
  refine hm.approach hp (I := fun f => (before.typeAt place).Absorbs .flat (f.typeAt place))
    (fun f g m changed hIf hIg hmerge => ?_)
    (fun i last f after insn effect hlow hhigh hlast habsorbs hfits hinsn hexec hI => ?_)
    hlt hhigh hf
  · rw [Frame.typeAt_merge hmerge]
    exact hIf.lub hIg
  · have hbefore : (before.typeAt place).Absorbs .flat (f.typeAt place) := by
      rcases Nat.eq_or_lt_of_le hlow with rfl | hlt
      · rw [hx.before_eq] at hlast
        obtain rfl := Option.some.inj (Option.some.inj hlast)
        exact Frame.Absorbs.typeAt habsorbs place
      · exact hI hlt
    have hverified := (hp.verified i last insn hlast hinsn).1
    have hdoes := Tracker.does_of_execute (hp.canonical insn (Array.mem_of_getElem? hinsn))
      (hverified.of_absorbs hfits habsorbs) hexec
    have havoids := hx.avoids hp hlow hhigh hlast hinsn hplace
    rw [habsorbs.depth_eq] at havoids
    rcases hdoes.typeAt havoids with hsame | ⟨hu, hmem⟩
    · rw [hsame]
      exact hbefore
    by_cases htop : before.typeAt place = .top
    · rw [htop]
      exact JType.top_absorbs _
    · -- the last frame has the same object among the operands, and so it is made in the range
      have hmem' := (hverified.stack.whole.of_absorbs (Frame.fits_whole_iff.1 hfits).1
        (Frame.absorbs_iff.1 habsorbs).1).2 _ hmem hu
      have hmade := hx.madeIn_of_mem_take hp hm hlow hhigh hlast hinsn hmem' hu
      rw [← hbefore.eq_of_isUninitialized htop hu] at hmade
      exact absurd hmade ((hx.clean_before hp hm).typeAt place)

/-- **What a range leaves alone is the same in all its frames.** -/
theorem Crossing.typeAt_eq {place : Frame.Place} (hplace : flow.Untouched start stop floor place) :
    f.typeAt place = before.typeAt place :=
  (hx.absorbs_before hp hm hlow hhigh hf hplace).antisymm
    (hx.before_absorbs hp hm hlow hhigh hf hplace)

omit hlow hhigh hf in
/-- **What a range leaves alone is the same at its end.** -/
theorem Crossing.typeAt_exit {place : Frame.Place}
    (hplace : flow.Untouched start stop floor place) :
    exit.typeAt place = before.typeAt place := by
  have hlt := hm.lt
  obtain ⟨f, insn, hf, hinsn, -, hrest⟩ := hx.exists_last hp hm
  have hlow : start ≤ stop - 1 := by omega
  have hhigh : stop - 1 < stop := by omega
  rw [hx.typeAt_after hp hm hlow hhigh hf hinsn hrest hplace
    (hx.absorbs_before hp hm hlow hhigh hf hplace)]
  exact hx.typeAt_eq hp hm hlow hhigh hf hplace

end Range

/-! ### Footprints -/

/-- **A footprint delimits everything that its range touches.** Its frames are those at the ends of
the range. No reachable instruction of the range takes anything off below the least depth, which the
stack at the end has, too. The cells below it have the same types at the start, before every
reachable instruction of the range and at the end. A slot has the same type at the start and at the
end, unless a reachable instruction of the range writes to it or right beside it. -/
structure Footprint.Delimits (flow : Flow) (fp : Footprint) : Prop where
  startFrame : flow.frame? fp.start = some (some fp.startFrame)
  exitFrame : flow.frameAfter fp.stop = .ok fp.exitFrame
  pops : ∀ (i : Nat) (f : Frame), fp.start ≤ i → i ≤ fp.stop → flow.frame? i = some (some f) →
    ∃ insn after, flow.routine.code[i]? = some insn ∧
      Tracker.execute flow.routine.owner f insn i = (after, .ok (flow.effect i)) ∧
      fp.minDepth + (flow.effect i).pops ≤ f.depth
  exit_depth : fp.minDepth ≤ fp.exitFrame.depth
  cells : ∀ d, d < fp.minDepth → ∀ (i : Nat) (f : Frame), fp.start ≤ i → i ≤ fp.stop →
    flow.frame? i = some (some f) → f.cell? d = fp.startFrame.cell? d
  exit_cells : ∀ d, d < fp.minDepth → fp.exitFrame.cell? d = fp.startFrame.cell? d
  slots : ∀ s, fp.exitFrame.slot s = fp.startFrame.slot s ∨ flow.Disturbs fp.start fp.stop s

theorem Chosen.delimits {flow : Flow} {c : Cut} {start stop : Nat} (h : Chosen flow c start stop)
    (hp : flow.Proper) :
    ∃ fp, flow.footprint start ((stop : Int) - 1) = .ok fp ∧ fp.Delimits flow := by
  obtain ⟨fp, hfp, hx⟩ := h.exists_footprint
  have hm := h.movable
  obtain ⟨hstart, hstop⟩ : fp.start = start ∧ fp.stop = (stop : Int) - 1 := by
    obtain ⟨_, _, _, _, -, -, -, -, rfl⟩ := Flow.footprint_eq_ok hfp
    exact ⟨rfl, rfl⟩
  -- two frames that are deep enough have the same cell where they have the same type
  have hcell {g : Frame} {d : Nat} (hd : d < fp.minDepth) (hdepth : fp.minDepth ≤ g.depth)
      (heq : g.typeAt (.cell d) = fp.startFrame.typeAt (.cell d)) :
      g.cell? d = fp.startFrame.cell? d := by
    rw [Frame.cell?_eq_typeAt (Nat.lt_of_lt_of_le hd hdepth),
      Frame.cell?_eq_typeAt (Nat.lt_of_lt_of_le hd hx.floor_le_before), heq]
  refine ⟨fp, hfp, hstart ▸ hx.before_eq, hstop ▸ hx.after_eq, fun i f hlow hhigh hf => ?_,
    hx.floor_le_after, fun d hd i f hlow hhigh hf => ?_,
    fun d hd => hcell hd hx.floor_le_after (hx.typeAt_exit hp hm hd), fun s => ?_⟩
  · obtain ⟨insn, after, hinsn, hrest⟩ := hp.atRest hf
    exact ⟨insn, after, hinsn, hrest.executed,
      hx.floor_add_pops_le hp (by omega) (by omega) hf⟩
  · have hdepth := hx.floor_add_pops_le hp (by omega) (by omega) hf
    exact hcell hd (by omega) (hx.typeAt_eq hp hm (by omega) (by omega) hf hd)
  · rw [hstart, hstop]
    by_cases hdisturbs : flow.Disturbs start ((stop : Int) - 1) s
    · exact .inr hdisturbs
    · have huntouched : flow.Untouched start stop fp.minDepth (.slot s) := hdisturbs
      exact .inl (hx.typeAt_exit hp hm huntouched)

/-- Makes an object while another one waits on the stack for its constructor. -/
def nesting : RoutineParts where
  owner := "Nest"
  name := "make"
  descriptor := "()V"
  access := .static
  code := #[some (.type .new "B"), some (.type .new "A"), some (.plain (.shuffle .dup)),
    some (.method (.invoke .special) "A" "<init>" "()V" false), some (.slot (.store .ref) 0),
    some (.method (.invoke .special) "B" "<init>" "()V" false), some (.plain .returnVoid)]
  blocks := []
  maxLocals := 1
  maxStack := 3

end Outliner
