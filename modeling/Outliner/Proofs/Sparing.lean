import Outliner.Proofs.Crossing
import Outliner.Proofs.Routes
import Outliner.Proofs.Trimming

/-!
# What a range leaves alone

While control is inside a range that can be moved, the cells below the floor and the slots the range
does not write are as they were at its start, except that constructors may have run and paths may
have been merged (`Crossing.spared`). The range is entered at its start only, so whatever each of
its instructions passes on is carried along every route that ends inside it
(`Crossing.frames_induction`).

The instructions of the range, in turn, need nothing that is below the floor: they can be executed
on every frame that does as well above it (`Flow.Proper.outcome`).

A handler that protects the range expects no more of a slot than the start of the range
(`Crossing.handler_eases_before`) and its end (`Crossing.handler_eases_exit`). The latter is not a
consequence of absorbing: the end of a range may be a label that absorbs more than what the
instructions of the range bring to it. It is kept throughout the pass, because a pass enters the
handlers before it goes on.
-/

namespace Outliner

theorem StackSuits.take {owner : String} {under : Bool} {ts gs : List JType}
    (h : StackSuits owner under ts gs) (n : Nat) :
    StackSuits owner under (ts.take n) (gs.take n) := by
  induction h generalizing n with
  | nil => simpa using StackSuits.nil
  | cons cell _ ih =>
    cases n with
    | zero => exact .nil
    | succ n => exact .cons cell (ih n)

/-- The cells of a stack above a floor and those below it. -/
theorem Frame.split_floor {f : Frame} {floor : Nat} {upper base : List JType}
    (hstack : f.stack = upper ++ base) (hbase : base.length = floor) :
    f.stack.take (f.depth - floor) = upper ∧ f.stack.drop (f.depth - floor) = base ∧
      floor ≤ f.depth := by
  have hlength : f.depth - floor = upper.length := by
    rw [Frame.depth, hstack, List.length_append, hbase, Nat.add_sub_cancel]
  refine ⟨?_, ?_, ?_⟩
  · rw [hlength, hstack, List.take_left]
  · rw [hlength, hstack, List.drop_left]
  · rw [Frame.depth, hstack, List.length_append]
    omega

/-- The cells of frame `f` below a floor, and its slots except those marked as written, are as in
`before`, or expect less. -/
structure Frame.Spared (owner : String) (written : Int → Prop) (floor : Nat) (before f : Frame) :
    Prop where
  floor_le : floor ≤ f.depth
  base : List.Forall₂ (JType.Eases owner) (f.stack.drop (f.depth - floor))
    (before.stack.drop (before.depth - floor))
  slots : ∀ slot, ¬ written slot → (f.slot slot).Eases owner (before.slot slot)

namespace Frame.Spared

variable {owner : String} {written : Int → Prop} {floor : Nat} {before f g : Frame}

theorem refl (hle : floor ≤ before.depth) : Frame.Spared owner written floor before before :=
  ⟨hle, List.forall₂_same.2 fun t _ => .refl owner t, fun _ _ => .refl owner _⟩

theorem trans (h : Frame.Spared owner written floor before f)
    (h' : Frame.Spared owner written floor f g) : Frame.Spared owner written floor before g where
  floor_le := h'.floor_le
  base := by
    have hall {l l' l'' : List JType} (h : List.Forall₂ (JType.Eases owner) l l')
        (h' : List.Forall₂ (JType.Eases owner) l' l'') :
        List.Forall₂ (JType.Eases owner) l l'' := by
      induction h generalizing l'' with
      | nil => exact h'
      | cons hhead _ ih =>
        cases h' with
        | cons hhead' htail' => exact .cons (hhead.trans hhead') (ih htail')
    exact hall h'.base h.base
  slots := fun slot hslot => (h'.slots slot hslot).trans (h.slots slot hslot)

theorem of_absorbs (h : g.Absorbs .flat f) (hle : floor ≤ f.depth) :
    Frame.Spared owner written floor f g where
  floor_le := h.depth_eq ▸ hle
  base := by
    rw [h.depth_eq]
    exact List.forall₂_drop _ ((Frame.absorbs_iff.1 h).1.imp fun _ _ => JType.Absorbs.eases)
  slots := fun slot _ => (h.slot slot).eases

end Frame.Spared

/-! ### One instruction above a floor -/

section Floor

variable {flow : Flow} (hp : flow.Proper) {i : Nat} {f after : Frame} {insn : Instruction}
    {effect : Effect}
  (hf : flow.frame? i = some (some f)) (hinsn : flow.routine.code[i]? = some insn)
  (hexec : Tracker.execute flow.routine.owner f insn i = (after, .ok effect)) {floor : Nat}
  (hfloor : floor ≤ f.depth - effect.pops)

include hp hf hinsn hexec hfloor

/-- An instruction that does not reach below a floor can be executed on every frame that does as
well above it. -/
theorem Flow.Proper.outcome {place : Int → Int} {touched : Int → Prop}
    (hapart : ∀ slot slot', touched slot → touched slot' → place slot = place slot' → slot = slot')
    (htouched : ∀ slot width, insn.slotAccess? = some (slot, width) → touched slot) {g : Frame}
    (hg : (f.form flow.routine.owner place touched floor).Fits flow.routine.owner g) (j : Nat) :
    ∃ after' effect',
      Tracker.execute flow.routine.owner g (insn.reslot place) j = (after', .ok effect') ∧
      (after.form flow.routine.owner place touched floor).Fits flow.routine.owner after' ∧
      Frame.Spared flow.routine.owner (fun slot => ∃ a ∈ effect.writes, a.slot = slot) floor f
        after := by
  obtain ⟨hverified, harray⟩ := hp.verified i f insn hf hinsn
  obtain ⟨values, rest, hstack, htakes⟩ := Instruction.exists_takes hverified.stack harray
  have hasked := hp.asked_le_pops hf hinsn hexec htakes hstack
  obtain ⟨hsuits, hslots⟩ := Frame.fits_form_iff.1 hg
  -- all operands are above the floor
  have hdepth : f.depth = (cellsOfAll values).length + rest.length := by
    rw [Frame.depth, hstack, List.length_append]
  obtain ⟨above, base, rfl, hbase⟩ : ∃ above base, rest = above ++ base ∧ base.length = floor :=
    ⟨_, _, (List.take_append_drop (rest.length - floor) rest).symm, by
      rw [List.length_drop]
      omega⟩
  rw [← List.append_assoc] at hstack
  obtain ⟨hupper, hdrop, -⟩ := Frame.split_floor hstack hbase
  rw [hupper] at hsuits
  obtain ⟨after', effect', hexec', ⟨upper', base', hstack', hbase', hsuits'⟩, hslots', hkept, -⟩ :=
    Tracker.execute_outcome (c := ⟨flow.routine.owner, place, touched, f, base⟩) hapart
      hverified htouched htakes hstack hsuits hslots
      hexec j
  obtain ⟨hupper', hdrop', hle'⟩ := Frame.split_floor hstack' (hbase'.length_eq.trans hbase)
  refine ⟨after', effect', hexec', Frame.fits_form_iff.2 ⟨?_, hslots'⟩, hle', ?_,
    fun slot hslot => ?_⟩
  · rw [hupper']
    exact hsuits'
  · rw [hdrop', hdrop]
    exact hbase'
  · exact (hkept slot).resolve_left hslot

/-- What an instruction that does not reach below a floor leaves alone. -/
theorem Flow.Proper.spares :
    Frame.Spared flow.routine.owner (fun slot => ∃ a ∈ effect.writes, a.slot = slot) floor f
      after := by
  obtain ⟨g, hg⟩ := hp.exists_fits hf
  obtain ⟨hsuits, hslots⟩ := Frame.fits_whole_iff.1 hg
  have hfits : (f.form flow.routine.owner id (fun _ => True) floor).Fits flow.routine.owner
      ⟨g.stack.take (f.depth - floor), g.locals⟩ :=
    Frame.fits_form_iff.2 ⟨hsuits.take _, fun slot _ => hslots slot⟩
  obtain ⟨-, -, -, -, hspared⟩ := hp.outcome hf hinsn hexec hfloor
     (fun _ _ _ _ h => h) (fun _ _ _ => trivial) hfits i
  exact hspared

end Floor

/-! ### Inside a range -/

/-- A region protects all of a movable range or nothing of it. -/
theorem Movable.contains_iff {r : Routine} {start stop i : Nat} (hm : Movable r start stop)
    (hlow : start ≤ i) (hhigh : i < stop) {region : Region} (hmem : region ∈ r.regions) :
    region.contains i = region.contains start := by
  cases hempty : region.isEmpty with
  | true =>
    simp only [Region.contains, Region.isEmpty] at hempty ⊢
    grind
  | false =>
    have hinside := hm.inside region hmem hempty
    have hstart := hm.start_le region hmem hempty
    simp only [Region.contains] at hinside ⊢
    grind

theorem Region.isEmpty_of_contains {region : Region} {i : Nat} (h : region.contains i) :
    region.isEmpty = false := by
  simp only [contains, isEmpty] at h ⊢
  grind

/-- A movable range is entered at its start only. -/
theorem Movable.source_mem {r : Routine} {start stop : Nat} (hm : Movable r start stop)
    (hcanonical : r.Canonical) {i j : Nat} {insn : Instruction} {f after g : Frame}
    (hinsn : r.code[i]? = some insn) (hd : Flow.Delivers r i insn f after j g) (hlow : start < j)
    (hhigh : j < stop) : start ≤ i ∧ i < stop := by
  cases hd with
  | next falls => omega
  | target mem =>
    obtain ⟨l, hl, -⟩ := List.mem_filterMap.1 mem
    obtain ⟨hreal, hbranch⟩ :=
      Instruction.isBranch_of_mem_targets (hcanonical insn (Array.mem_of_getElem? hinsn)) hl
    rcases Nat.lt_or_ge i start with hi | hi
    · have := hm.enters i insn (.inl hi) hinsn hreal hbranch j mem
      omega
    · rcases Nat.lt_or_ge i stop with hi' | hi'
      · exact ⟨hi, hi'⟩
      · have := hm.enters i insn (.inr hi') hinsn hreal hbranch j mem
        omega
  | @handler region mem contains real =>
    have := hm.handler region mem (Region.isEmpty_of_contains contains)
    omega
  | resume calls lt => omega

/-- No instruction of a movable range has to do with subroutines. -/
theorem Movable.plain {r : Routine} {start stop : Nat} (hm : Movable r start stop)
    (hcanonical : r.Canonical) {i : Nat} {insn : Instruction} (hinsn : r.code[i]? = some insn)
    (hlow : start ≤ i) (hhigh : i < stop) :
    insn.opcode.isSubroutineCall = false ∧ insn.opcode ≠ .ret := by
  cases hmarker : insn.isMarker with
  | true =>
    unfold Instruction.isMarker at hmarker
    split at hmarker
    · next hop =>
      rw [hop]
      exact ⟨rfl, Opcode.noConfusion⟩
    · cases hmarker
  | false =>
    obtain ⟨-, hsub, -⟩ := hm.stays i insn hlow hhigh hinsn hmarker
    have hnamed := (Instruction.carries_of_isCanonical
      (hcanonical insn (Array.mem_of_getElem? hinsn))
      (Instruction.isPosition_of_isMarker hmarker)).1
    refine ⟨Bool.eq_false_iff.2 fun hcalls => ?_, fun hret => hsub (by rw [hret]; rfl)⟩
    -- the wide call has no name, and the other one is known as such
    unfold Opcode.isSubroutineCall at hcalls
    split at hcalls
    · next hjsr => exact hsub (by rw [hjsr]; rfl)
    · next hwide =>
      rw [hwide] at hnamed
      cases hnamed
    · cases hcalls

section Range

variable {flow : Flow} (hp : flow.Proper) {c : Cut} {start stop floor : Nat} {before exit : Frame}
  (hx : Crossing flow c start stop before exit floor) (hm : Movable flow.routine start stop)

include hp hx

/-- What an instruction of the range leaves alone. -/
theorem Crossing.spared_step {i : Nat} (hlow : start ≤ i) (hhigh : i < stop) {f after : Frame}
    {insn : Instruction} (hf : flow.frame? i = some (some f))
    (hinsn : flow.routine.code[i]? = some insn) (hrest : flow.AtRest i f insn after) :
    Frame.Spared flow.routine.owner (flow.Writes start stop) floor f after := by
  obtain ⟨hle, hbase, hslots⟩ := hp.spares hf hinsn hrest.executed
    (hx.floor_le i f hlow hhigh hf)
  refine ⟨hle, hbase, fun slot hslot => hslots slot fun hwrites => hslot ?_⟩
  exact ⟨i, hlow, hhigh, Flow.reachable_iff.2 ⟨f, hf⟩, hwrites⟩

include hm

/-- **What the frame at the start of a range has, and every instruction of the range passes on, all
frames of the range have.** -/
theorem Crossing.frames_induction {P : Frame → Prop} (entry : P before)
    (step : ∀ (i : Nat) (f after : Frame) (insn : Instruction), start ≤ i → i < stop →
      flow.frame? i = some (some f) → flow.routine.code[i]? = some insn →
      flow.AtRest i f insn after → P f → P after)
    (absorbed : ∀ f g : Frame, P g → f.Absorbs .flat g → P f)
    {i : Nat} (hlow : start ≤ i) (hhigh : i < stop) {f : Frame}
    (hf : flow.frame? i = some (some f)) : P f := by
  have hstart {f : Frame} (hf : flow.frame? start = some (some f)) : P f := by
    rw [hx.before_eq] at hf
    obtain rfl := Option.some.inj (Option.some.inj hf)
    exact entry
  -- The induction is over the steps of the pass. The range is entered at its start only, so every
  -- other frame in it comes from one of the range.
  refine Flow.frames_induction hp.checked hp.analyzed
    (P := fun i f => flow.frame? i = some (some f) → start ≤ i → i < stop → P f)
    (fun f _ hf hlow _ => ?_) (fun i j f f' after g insn hf hinsn hrest ih hd hf' habsorbs _ hlow
      hhigh => ?_) i f hf hf hlow hhigh
  · obtain rfl : start = 0 := by omega
    exact hstart hf
  · rcases Nat.eq_or_lt_of_le hlow with rfl | hlt
    · exact hstart hf'
    obtain ⟨hlow', hhigh'⟩ := hm.source_mem hp.canonical hinsn hd hlt hhigh
    have hafter : P after := step i f after insn hlow' hhigh' hf hinsn hrest (ih hf hlow' hhigh')
    cases hd with
    | next falls => exact absorbed f' _ hafter habsorbs
    | target mem => exact absorbed f' _ hafter habsorbs
    | @handler region mem contains real =>
      -- no handler lies in the range
      have := hm.handler region mem (Region.isEmpty_of_contains contains)
      omega
    | resume calls lt =>
      rw [(hm.plain hp.canonical hinsn hlow' hhigh').1] at calls
      cases calls

/-- **What a range leaves alone** is as it was at its start. -/
theorem Crossing.spared {i : Nat} (hlow : start ≤ i) (hhigh : i < stop) {f : Frame}
    (hf : flow.frame? i = some (some f)) :
    Frame.Spared flow.routine.owner (flow.Writes start stop) floor before f := by
  refine hx.frames_induction hp hm
    (P := Frame.Spared flow.routine.owner (flow.Writes start stop) floor before)
    (.refl hx.floor_le_before)
    (fun i f after insn hlow hhigh hf hinsn hrest hspared => ?_)
    (fun f g hg habsorbs => hg.trans (.of_absorbs habsorbs hg.floor_le)) hlow hhigh hf
  exact hspared.trans (hx.spared_step hp hlow hhigh hf hinsn hrest)

/-- The last instruction of the range and what it leaves. -/
theorem Crossing.exists_last :
    ∃ f insn, flow.frame? (stop - 1 : Nat) = some (some f) ∧
      flow.routine.code[stop - 1]? = some insn ∧ insn.fallsThrough ∧
      flow.AtRest (stop - 1) f insn exit := by
  have hlt := hm.lt
  have hle := hm.le_size
  obtain ⟨insn, f, effect, hinsn, hf, hexec⟩ := Flow.frameAfter_eq_ok hx.after_eq
  have hcast : ((stop : Int) - 1) = ((stop - 1 : Nat) : Int) := by omega
  rw [hcast] at hf hinsn hexec
  obtain ⟨insn', after, hinsn', hrest⟩ := Flow.atRest hp.checked (by omega) hp.analyzed hf
  obtain rfl := Option.some.inj (hinsn.symm.trans hinsn')
  have hsame := hexec.symm.trans hrest.executed
  obtain rfl := (Prod.mk.inj hsame).1
  exact ⟨f, insn, hf, hinsn, hm.falls insn hinsn, hrest⟩

theorem Crossing.spared_exit :
    Frame.Spared flow.routine.owner (flow.Writes start stop) floor before exit := by
  have hlt := hm.lt
  obtain ⟨f, insn, hf, hinsn, -, hrest⟩ := hx.exists_last hp hm
  have hlow : start ≤ stop - 1 := by omega
  have hhigh : stop - 1 < stop := by omega
  exact (hx.spared hp hm hlow hhigh hf).trans
    (hx.spared_step hp hlow hhigh hf hinsn hrest)

end Range

/-! ### Whole values -/

/-- On a stack that something suits, a wide value stands under its second half. -/
theorem StackSuits.under_wide {owner : String} {under : Bool} {ts gs : List JType}
    (h : StackSuits owner under ts gs) {a b : List JType} {t : JType} (heq : ts = a ++ t :: b)
    (hsize : t.size = 2) : (a = [] ∧ under) ∨ ∃ a', a = a' ++ [.top] := by
  induction h generalizing a with
  | nil => simp at heq
  | @cons under u g ts gs cell rest ih =>
    cases a with
    | nil =>
      obtain ⟨rfl, -⟩ := List.cons.inj heq
      exact .inl ⟨rfl, cell.under (cell.wide hsize ▸ hsize)⟩
    | cons u' a =>
      obtain ⟨rfl, htail⟩ := List.cons.inj heq
      rcases ih htail with ⟨rfl, hunder⟩ | ⟨a', rfl⟩
      · rw [decide_eq_true_eq] at hunder
        exact .inr ⟨[], by rw [hunder.1]; rfl⟩
      · exact .inr ⟨u :: a', rfl⟩

/-- Cells, bottom first, in which the second half of a wide value follows the first. -/
theorem Frame.cellsOfAll_collapse (cells : List JType)
    (h : ∀ a t b, cells = a ++ t :: b → t.size = 2 → ∃ b', b = .top :: b') :
    cellsOfAll (Frame.collapse cells).reverse = cells.reverse := by
  induction cells using Frame.collapse.induct with
  | case1 => rfl
  | case2 t hsize =>
    obtain ⟨b', hb'⟩ := h [] t [] rfl hsize
    cases hb'
  | case3 t hsize skipped rest ih =>
    obtain ⟨b', hb'⟩ := h [] t (skipped :: rest) rfl hsize
    obtain ⟨rfl, -⟩ := List.cons.inj hb'
    have hrest := ih fun a u b heq => h (t :: .top :: a) u b (by rw [heq]; rfl)
    rw [Frame.collapse, if_pos hsize]
    simp [hrest, Frame.cellsOf, hsize]
  | case4 t rest hsize ih =>
    have hrest := ih fun a u b heq => h (t :: a) u b (by rw [heq]; rfl)
    unfold Frame.collapse
    rw [if_neg hsize]
    simp [hrest, Frame.cellsOf, hsize]

/-- **Above a floor there are whole values only** on a stack that something suits. -/
theorem Frame.take_eq_cellsOfAll {owner : String} {f g : Frame} (hg : (f.whole owner).Fits owner g)
    (floor : Nat) :
    f.stack.take (f.depth - floor) =
      cellsOfAll (Frame.collapse (f.stack.reverse.drop floor)).reverse := by
  have htake : f.stack.reverse.drop floor = (f.stack.take (f.depth - floor)).reverse := by
    rw [List.drop_reverse]
    rfl
  have hsuits := (Frame.fits_whole_iff.1 hg).1.take (f.depth - floor)
  rw [htake, Frame.cellsOfAll_collapse, List.reverse_reverse]
  intro a t b heq hsize
  have heq' : f.stack.take (f.depth - floor) = b.reverse ++ t :: a.reverse := by
    rw [← List.reverse_reverse (f.stack.take (f.depth - floor)), heq]
    simp
  rcases hsuits.under_wide heq' hsize with ⟨-, hunder⟩ | ⟨b', hb'⟩
  · cases hunder
  · exact ⟨b'.reverse, by rw [← List.reverse_reverse b, hb']; simp⟩

section Range

variable {flow : Flow} (hp : flow.Proper) {c : Cut} {start stop floor : Nat} {before exit : Frame}
  (hx : Crossing flow c start stop before exit floor)

include hp hx

theorem Crossing.take_before :
    before.stack.take (before.depth - floor) = cellsOfAll c.consumed.reverse := by
  obtain ⟨g, hg⟩ := hp.exists_fits hx.before_eq
  rw [hx.consumed]
  exact Frame.take_eq_cellsOfAll hg floor

theorem Crossing.take_exit (hm : Movable flow.routine start stop) :
    exit.stack.take (exit.depth - floor) = cellsOfAll c.produced.reverse := by
  obtain ⟨f, insn, hf, hinsn, -, hrest⟩ := hx.exists_last hp hm
  obtain ⟨g, hg⟩ := hp.exists_fits hf
  obtain ⟨after', -, -, hafter'⟩ := hp.does hf hinsn hrest.executed hg (stop - 1)
  rw [hx.produced]
  exact Frame.take_eq_cellsOfAll hafter' floor

end Range

/-! ### Handlers that protect a range -/

/-- Instruction `first` is the first one of a range that is not just a marker. -/
structure FirstReal (r : Routine) (start stop first : Nat) : Prop where
  le : start ≤ first
  lt : first < stop
  real : ∃ insn, r.code[first]? = some insn ∧ insn.isMarker = false
  markers : ∀ i insn, start ≤ i → i < first → r.code[i]? = some insn → insn.isMarker

theorem exists_firstReal {r : Routine} {start stop i : Nat} {insn : Instruction} (hlow : start ≤ i)
    (hhigh : i < stop) (hinsn : r.code[i]? = some insn) (hreal : insn.isMarker = false) :
    ∃ first, FirstReal r start stop first := by
  induction i using Nat.strongRecOn generalizing insn with
  | ind i ih =>
    by_cases hsmaller : ∃ j insn, start ≤ j ∧ j < i ∧ r.code[j]? = some insn ∧ insn.isMarker = false
    · obtain ⟨j, insn, hj, hji, hcode, hmarker⟩ := hsmaller
      exact ih j hji hj (by omega) hcode hmarker
    · refine ⟨i, hlow, hhigh, ⟨insn, hinsn, hreal⟩, fun j insn hj hji hcode => ?_⟩
      cases hmarker : insn.isMarker with
      | true => rfl
      | false => exact absurd ⟨j, insn, hj, hji, hcode, hmarker⟩ hsmaller

theorem Tracker.execute_marker {owner : String} {f after : Frame} {insn : Instruction} {i : Int}
    {effect : Effect} (hmarker : insn.isMarker)
    (h : execute owner f insn i = (after, .ok effect)) : after = f := by
  have hop : insn.opcode = .marker := by
    unfold Instruction.isMarker at hmarker
    split at hmarker
    · next hop => exact hop
    · cases hmarker
  obtain ⟨u, hrun, rfl, -⟩ := execute_ok h
  unfold perform at hrun
  rw [hop] at hrun
  cases hrun
  rfl

section Handlers

variable {flow : Flow} (hp : flow.Proper) {c : Cut} {start stop floor first : Nat}
  {before exit : Frame} (hx : Crossing flow c start stop before exit floor)
  (hm : Movable flow.routine start stop) (hfirst : FirstReal flow.routine start stop first)
  {region : Region} (hmem : region ∈ flow.routine.regions) (hcontains : region.contains start)

include hp hx hm hfirst hmem hcontains

/-- **A handler expects no more of a slot than the start of the range it protects.** -/
theorem Crossing.handler_eases_before :
    ∃ g, flow.frame? region.handler = some (some g) ∧
      (∀ slot, (g.slot slot).Eases flow.routine.owner (before.slot slot)) ∧
      ∀ f, StackSuits flow.routine.owner false g.stack (Flow.caught region f).stack := by
  have hsize := hm.le_size
  have hle := hfirst.le
  have hlt := hfirst.lt
  -- the markers before the first instruction pass the frame on
  have hmarkers (k : Nat) (hk : start + k ≤ first) : ∃ f,
      flow.frame? (start + k : Nat) = some (some f) ∧
        ∀ slot, (f.slot slot).Eases flow.routine.owner (before.slot slot) := by
    induction k with
    | zero => exact ⟨before, hx.before_eq, fun _ => .refl _ _⟩
    | succ k ih =>
      obtain ⟨f, hf, heases⟩ := ih (by omega)
      obtain ⟨insn, after, hinsn, hrest⟩ := Flow.atRest hp.checked (by omega) hp.analyzed hf
      have hmarker := hfirst.markers _ insn (by omega) (by omega) hinsn
      obtain rfl := Tracker.execute_marker hmarker hrest.executed
      obtain ⟨f', hf', habsorbs⟩ := hrest.next (.inl hmarker)
      exact ⟨f', hf', fun slot => (Frame.Absorbs.slot habsorbs slot).eases.trans (heases slot)⟩
  obtain ⟨f, hf, heases⟩ := hmarkers (first - start) (by omega)
  rw [Nat.add_sub_cancel' hle] at hf
  obtain ⟨insn, hinsn, hreal⟩ := hfirst.real
  obtain ⟨insn', after, hinsn', hrest⟩ := Flow.atRest hp.checked (by omega) hp.analyzed hf
  obtain rfl := Option.some.inj (hinsn.symm.trans hinsn')
  obtain ⟨g, hg, habsorbs⟩ := hrest.before hreal region hmem (by
    rw [hm.contains_iff hle hlt hmem]
    exact hcontains)
  refine ⟨g, hg, fun slot => (Frame.Absorbs.slot habsorbs slot).eases.trans (heases slot),
    fun _ => ?_⟩
  exact (Frame.fits_whole_iff.1 (Frame.Absorbs.fits_whole habsorbs
    (Frame.fits_caught region fun _ => .refl _ _))).1

end Handlers

namespace Flow.Pass

variable {r : Routine} {p : Pass} {handler first stop : Nat}

/-- In every slot the frame of the handler absorbs `f`. -/
def Shadows (p : Pass) (handler : Nat) (f : Frame) : Prop :=
  ∃ g, p.frame? handler = some g ∧ ∀ slot, (g.slot slot).Absorbs .flat (f.slot slot)

/-- **In every slot the frame of the handler absorbs the frames between `first` and `stop`**, as
long as there is no error. -/
structure Overshadows (r : Routine) (handler first stop : Nat) (p : Pass) : Prop where
  tidy : Tidy r.size p
  shadows : p.errors = [] → ∀ j f, first < j → j < stop → p.frame? j = some f → p.Shadows handler f

/-- Raising the frame of the handler keeps what it absorbs. -/
theorem Shadows.arrive {offset : Nat} {f g : Frame} (ht : Tidy r.size p) (hlt : offset < r.size)
    (h : p.Shadows handler g) : (p.arrive r .flat offset f).Shadows handler g := by
  obtain ⟨known, hknown, habsorbs⟩ := h
  rcases arrive_cases (r := r) (h := .flat) offset f p with heq | ⟨e, heq⟩ | ⟨m, -, hcases, heq⟩
  · rw [heq]
    exact ⟨known, hknown, habsorbs⟩
  · rw [heq]
    exact ⟨known, by rw [fail_frame?]; exact hknown, habsorbs⟩
  · unfold Shadows
    rw [heq, frame?_raised hlt ht]
    split
    · next hsame =>
      subst hsame
      rcases hcases with ⟨hnone, -⟩ | ⟨known', hknown', hmerge⟩
      · rw [hknown] at hnone
        cases hnone
      · obtain rfl := Option.some.inj (hknown.symm.trans hknown')
        obtain ⟨-, -, hslot, -⟩ := Frame.merge_eq_ok hmerge
        exact ⟨m, rfl, fun slot => by rw [hslot]; exact (habsorbs slot).merged _⟩
    · exact ⟨known, hknown, habsorbs⟩

/-- An arrival outside, or with a frame the handler absorbs. -/
theorem Overshadows.arrive {offset : Nat} {f : Frame} (h : Overshadows r handler first stop p)
    (hlt : offset < r.size)
    (hf : first < offset → offset < stop → p.errors = [] → p.Shadows handler f) :
    Overshadows r handler first stop (p.arrive r .flat offset f) := by
  refine ⟨(tidy_grows_arrive hlt f h.tidy).1, fun herrors j g hlow hhigh hg => ?_⟩
  have herrors' := errors_of_arrive herrors
  have hbefore := h.shadows herrors' j
  suffices hshadows : p.Shadows handler g from hshadows.arrive h.tidy hlt
  rcases arrive_cases (r := r) (h := .flat) offset f p with heq | ⟨e, heq⟩ | ⟨m, -, hcases, heq⟩
  · rw [heq] at hg
    exact hbefore g hlow hhigh hg
  · rw [heq, fail_frame?] at hg
    exact hbefore g hlow hhigh hg
  · -- the frame at this offset is the new one, or the join of the old one with it
    rw [heq, frame?_raised hlt h.tidy] at hg
    split at hg
    · next hsame =>
      subst hsame
      obtain rfl := Option.some.inj hg
      obtain ⟨known, hknown, habsorbs⟩ := hf hlow hhigh herrors'
      rcases hcases with ⟨-, rfl⟩ | ⟨known', hknown', hmerge⟩
      · exact ⟨known, hknown, habsorbs⟩
      · obtain ⟨known₂, hknown₂, habsorbs'⟩ := hbefore known' hlow hhigh hknown'
        obtain rfl := Option.some.inj (hknown.symm.trans hknown₂)
        obtain ⟨-, -, hslot, -⟩ := Frame.merge_eq_ok hmerge
        exact ⟨known, hknown, fun slot => by
          rw [hslot]
          exact (habsorbs' slot).lub (habsorbs slot)⟩
    · exact hbefore g hlow hhigh hg

theorem Overshadows.fail {offset : Nat} {e : TrackError} (h : Overshadows r handler first stop p) :
    Overshadows r handler first stop (p.fail offset e) := by
  refine ⟨h.tidy.fail offset e, fun herrors j f hlow hhigh hf => ?_⟩
  rw [fail_frame?] at hf
  unfold Shadows
  rw [fail_frame?]
  exact h.shadows (errors_of_fail herrors) j f hlow hhigh hf

end Flow.Pass

section Handlers

open Flow.Pass

variable {r : Routine} (hr : r.Checked) (hcanonical : r.Canonical)
  {start stop first : Nat} (hm : Movable r start stop) (hfirst : FirstReal r start stop first)
  {region : Region} (hmem : region ∈ r.regions) (hcontains : region.contains start)

include hr hcanonical hm hfirst hmem hcontains

/-- A visit brings to the inside of the range only what it has brought to the handler. -/
theorem Movable.overshadows_spread {p : Flow.Pass} {source : Nat} {insn : Instruction}
    {before after : Frame} {effect : Effect} (hinsn : r.code[source]? = some insn)
    (hbefore : p.frame? source = some before)
    (hexec : Tracker.execute r.owner before insn source = (after, .ok effect))
    (h : Overshadows r region.handler first stop p) :
    Overshadows r region.handler first stop (p.spread r .flat source insn after) := by
  have hle := hfirst.le
  have hreal := hfirst.real
  obtain ⟨inside, hinside⟩ : ∃ inside : Prop, inside = (start ≤ source ∧ source < stop ∧
    (insn.isMarker → first < source)) := ⟨_, rfl⟩
  suffices hall : Overshadows r region.handler first stop (p.spread r .flat source insn after) ∧
      (inside → (p.spread r .flat source insn after).errors = [] →
        (p.spread r .flat source insn after).Shadows region.handler after) from hall.1
  -- an arrival inside the range comes from inside
  have harrive (q : Flow.Pass) (offset : Nat) (hlt : offset < r.size)
      (hfrom : first < offset → offset < stop → inside)
      (hq : Overshadows r region.handler first stop q ∧
        (inside → q.errors = [] → q.Shadows region.handler after)) :
      Overshadows r region.handler first stop (q.arrive r .flat offset after) ∧
        (inside → (q.arrive r .flat offset after).errors = [] →
          (q.arrive r .flat offset after).Shadows region.handler after) :=
    ⟨hq.1.arrive hlt fun hlow hhigh herrors => hq.2 (hfrom hlow hhigh) herrors,
      fun hin herrors => (hq.2 hin (errors_of_arrive herrors)).arrive hq.1.tidy hlt⟩
  refine Flow.Pass.spread_after (Q := fun q => Overshadows r region.handler first stop q ∧
      (inside → q.errors = [] → q.Shadows region.handler after))
    ?_ (fun _ hlt q hq => harrive q _ hlt (fun hlow hhigh => ?_) hq)
    (fun t ht q hq => harrive q t (hr.mem_targetOffsets ht) (fun hlow hhigh => ?_) hq)
    (fun hcalls hlt q f hq hf => ?_) fun _ _ q e hq => ⟨hq.1.fail, fun hin herrors => ?_⟩
  · split
    · next hmarker =>
      obtain rfl := Tracker.execute_marker hmarker hexec
      refine ⟨h, fun hin herrors => ?_⟩
      rw [hinside] at hin
      exact h.shadows herrors source after (hin.2.2 hmarker) hin.2.1 hbefore
    · next hmarker =>
      refine ⟨?_, fun hin herrors => ?_⟩
      · have houtside {other : Region} (hother : other ∈ r.regions)
            (hcontains : other.contains source) {q : Flow.Pass} {f : Frame}
            (hq : Overshadows r region.handler first stop q) :
            Overshadows r region.handler first stop (q.arrive r .flat other.handler f) := by
          refine hq.arrive (hr.handler_lt hother) fun hlow hhigh => ?_
          have := hm.handler other hother (Region.isEmpty_of_contains hcontains)
          omega
        refine List.foldlRecOn _ _ h fun q hq other hother => ?_
        obtain ⟨hother, hsource⟩ := List.mem_filter.1 hother
        refine houtside hother hsource ?_
        unfold Flow.Pass.arriveFrom
        split
        · exact houtside hother hsource hq
        · exact hq
      · rw [hinside] at hin
        obtain ⟨known, hknown, habsorbs⟩ := (Flow.Pass.enterHandlers_spec Frame.lasts_absorbs hr
          h.tidy herrors region hmem
          (by rw [hm.contains_iff hin.1 hin.2.1 hmem]; exact hcontains)).2
        exact ⟨known, hknown, fun slot => Frame.Absorbs.slot habsorbs slot⟩
  · rw [hinside]
    refine ⟨by omega, by omega, fun hmarker => ?_⟩
    rcases Nat.eq_or_lt_of_le (Nat.le_of_lt_succ hlow) with rfl | hlt
    · obtain ⟨insn', hinsn', hreal'⟩ := hreal
      obtain rfl := Option.some.inj (hinsn.symm.trans hinsn')
      rw [hreal'] at hmarker
      cases hmarker
    · exact hlt
  · have hdelivers : Flow.Delivers r source insn before after t after := .target ht
    obtain ⟨hlow', hhigh'⟩ := hm.source_mem hcanonical hinsn hdelivers (by omega) hhigh
    obtain ⟨l, hl, -⟩ := List.mem_filterMap.1 ht
    have hnotMarker := (Instruction.isBranch_of_mem_targets
      (hcanonical insn (Array.mem_of_getElem? hinsn)) hl).1
    rw [hinside]
    refine ⟨hlow', hhigh', fun hmarker => ?_⟩
    rw [hnotMarker] at hmarker
    cases hmarker
  · -- a subroutine call stands outside the range
    refine ⟨hq.1.arrive hlt fun hlow hhigh => ?_, fun hin herrors =>
      (hq.2 hin (errors_of_arrive herrors)).arrive hq.1.tidy hlt⟩
    rw [(hm.plain hcanonical hinsn (by omega) (by omega)).1] at hcalls
    cases hcalls
  · obtain ⟨known, hknown, habsorbs⟩ := hq.2 hin (errors_of_fail herrors)
    exact ⟨known, by rw [fail_frame?]; exact hknown, habsorbs⟩

/-- **A whole pass brings to the inside of the range only what it brings to the handler.** -/
theorem Movable.overshadows_run {fuel : Nat} {p p' : Flow.Pass}
    (hrun : Flow.Pass.run r .flat fuel p = .ok p')
    (h : Overshadows r region.handler first stop p) :
    Overshadows r region.handler first stop p' := by
  refine (Flow.Pass.run_induction (Q := Overshadows r region.handler first stop) hrun h
    (fun q offset rest hq hwork _ => ⟨hq.tidy.dequeue hwork, hq.shadows⟩)
    fun q q' source rest hq hwork _ hvisit => ?_).1
  have hdequeued : Overshadows r region.handler first stop (q.dequeue source rest) :=
    ⟨hq.tidy.dequeue hwork, hq.shadows⟩
  obtain ⟨insn, before, hinsn, hbefore, ⟨e, rfl⟩ | ⟨after, effect, hexec, rfl⟩⟩ :=
    Flow.Pass.visit_cases hvisit
  · exact hdequeued.fail
  · exact hm.overshadows_spread hr hcanonical hfirst hmem hcontains hinsn hbefore hexec
      ⟨hdequeued.tidy.setEffect source effect, hdequeued.shadows⟩

end Handlers

section Handlers

variable {flow : Flow} (hp : flow.Proper) {c : Cut} {start stop floor first : Nat}
  {before exit : Frame} (hx : Crossing flow c start stop before exit floor)
  (hm : Movable flow.routine start stop) (hfirst : FirstReal flow.routine start stop first)
  {region : Region} (hmem : region ∈ flow.routine.regions) (hcontains : region.contains start)

include hp hx hm hfirst hmem hcontains

/-- **A handler expects no more of a slot than the end of the range it protects.** -/
theorem Crossing.handler_eases_exit {g : Frame}
    (hg : flow.frame? region.handler = some (some g)) (slot : Int) :
    (g.slot slot).Eases flow.routine.owner (exit.slot slot) := by
  have hlt := hm.lt
  have hle := hfirst.le
  obtain ⟨f, insn, hf, hinsn, -, hrest⟩ := hx.exists_last hp hm
  cases hmarker : insn.isMarker with
  | false =>
    obtain ⟨g', hg', habsorbs⟩ := hrest.after hmarker region hmem (by
      rw [hm.contains_iff (by omega) (by omega) hmem]
      exact hcontains)
    obtain rfl := Option.some.inj (Option.some.inj (hg.symm.trans hg'))
    exact (Frame.Absorbs.slot habsorbs slot).eases
  | true =>
    obtain rfl := Tracker.execute_marker hmarker hrest.executed
    -- the last instruction comes after the first one that is no marker
    have hafter : first < stop - 1 := by
      rcases Nat.eq_or_lt_of_le (Nat.le_sub_one_of_lt hfirst.lt) with heq | hlt
      · obtain ⟨insn', hinsn', hreal⟩ := hfirst.real
        rw [heq] at hinsn'
        obtain rfl := Option.some.inj (hinsn.symm.trans hinsn')
        rw [hreal] at hmarker
        cases hmarker
      · exact hlt
    obtain ⟨p, hrun, herrors, hpass⟩ := Flow.analyzeWithin_ok hp.analyzed
    have hstart : Flow.Pass.Overshadows flow.routine region.handler first stop
        (.initial flow.routine .flat) := by
      have hempty : Flow.Pass.Overshadows flow.routine region.handler first stop
          (.start flow.routine.size) :=
        ⟨Flow.Pass.tidy_start _, fun _ j f _ _ hf => by
          rw [Flow.Pass.frame?_start] at hf
          cases hf⟩
      unfold Flow.Pass.initial
      split
      · exact hempty
      · exact hempty.arrive (by omega) fun hlow => absurd hlow (Nat.not_lt_zero _)
    have hfinal := hm.overshadows_run hp.checked hp.canonical hfirst hmem hcontains hrun
      hstart
    have hframe? {i : Nat} {f : Frame} (h : flow.frame? i = some (some f)) :
        p.frame? i = some f := by
      rw [Flow.frame?_natCast, hpass] at h
      exact congrArg Option.join h
    obtain ⟨g', hg', habsorbs⟩ := hfinal.shadows herrors (stop - 1) exit hafter (by omega)
      (hframe? hf)
    obtain rfl := Option.some.inj ((hframe? hg).symm.trans hg')
    exact (habsorbs slot).eases

end Handlers

end Outliner
