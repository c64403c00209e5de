import Outliner.Proofs.Trimming

/-!
# Where the two halves keep the code

After a routine is split, its instructions are found in two places. This module follows them one
offset at a time, as an execution does.

In the trimmed routine (`Trimmed`) the instruction at `i`, outside the range, has its *seat*, and
the one executed after it sits behind it. The seat of the start of the range is where control comes
from before: a few labels, then the call. The seat of its end is just behind what was inserted. The
instructions outside are protected as before, and those inserted as the start of the range.

In the extracted routine (`Extracted`) an instruction of the range has its *spot* between the
prologue and the epilogue. No handler is there.
-/

namespace Outliner

open Routine Outline

/-! ### The trimmed routine -/

/-- Where control goes on in the trimmed routine when it is at an offset outside the range or at its
start. -/
def Cut.seat (c : Cut) (r : Routine) (start stop : Nat) (extracted : Routine) (i : Nat) : Nat :=
  if i ≤ start then rank r.code.toList i else (c.splice r start stop extracted).relocate i

/-- What takes the place of the range. -/
def Cut.inserted (c : Cut) (extracted : Routine) : List Instruction :=
  call c extracted ++ unpack c

/-- A region of the trimmed routine is one of the routine: it protects what stayed as before, and
the inserted instructions as the start of the range. -/
structure Region.Corresponds (r : Routine) (start stop : Nat) (seat : Nat → Nat)
    (entry length : Nat) (region region' : Region) : Prop where
  type : region'.type = region.type
  handler : region.isEmpty = false → (region.handler < start ∨ stop ≤ region.handler) ∧
    region'.handler = seat region.handler
  contains : ∀ i, r.Keeps start stop i → region'.contains (seat i) = region.contains i
  inserted : ∀ q < length, region'.contains (entry + q) = region.contains start

/-- **The trimmed routine**, with `seat` the seats of what stayed and `entry` the place of what was
inserted. -/
structure Trimmed (r t : Routine) (start stop : Nat) (inserted : List Instruction)
    (seat : Nat → Nat) (entry : Nat) : Prop where
  checked : t.Checked
  owner : t.owner = r.owner
  name : t.name = r.name
  descriptor : t.descriptor = r.descriptor
  access : t.access = r.access
  signature : t.signature = r.signature
  maxLocals : r.maxLocals ≤ t.maxLocals
  code : ∀ i insn, i < start ∨ stop ≤ i → r.code[i]? = some insn → insn ≠ .frame →
    t.code[seat i]? = some insn ∧ seat (i + 1) = seat i + 1
  frame : ∀ i, i < start ∨ stop ≤ i → r.code[i]? = some .frame → seat (i + 1) = seat i
  targets : ∀ i insn, i < start ∨ stop ≤ i → r.code[i]? = some insn → ∀ l ∈ insn.targets,
    ∃ k, r.offset? l = some k ∧ (k < start ∨ stop ≤ k) ∧ t.offset? l = some (seat k)
  seat_zero : seat 0 = 0
  seat_start : seat start ≤ entry
  labels : ∀ k, seat start ≤ k → k < entry → ∃ l, t.code[k]? = some (.label l)
  stands : ∀ q insn, inserted[q]? = some insn → t.code[entry + q]? = some insn
  seat_stop : seat stop = entry + inserted.length
  regions : List.Forall₂ (Region.Corresponds r start stop seat entry inserted.length) r.regions
    t.regions

theorem Region.Corresponds.caught_eq {r : Routine} {start stop entry length : Nat}
    {seat : Nat → Nat} {region region' : Region}
    (h : Region.Corresponds r start stop seat entry length region region') (f : Frame) :
    Flow.caught region' f = Flow.caught region f := by
  unfold Flow.caught
  rw [h.type]

/-- Every region of the trimmed routine is an old one. -/
theorem Trimmed.exists_region {r t : Routine} {start stop entry : Nat} {inserted : List Instruction}
    {seat : Nat → Nat} (h : Trimmed r t start stop inserted seat entry) {region' : Region}
    (hmem : region' ∈ t.regions) : ∃ region ∈ r.regions,
      Region.Corresponds r start stop seat entry inserted.length region region' := by
  have hregions := h.regions
  generalize r.regions = old at hregions
  generalize t.regions = new at hregions hmem
  induction hregions with
  | nil => cases hmem
  | @cons region _ rest _ hhead _ ih =>
    rcases List.mem_cons.1 hmem with rfl | hmem
    · exact ⟨region, List.mem_cons_self, hhead⟩
    · obtain ⟨region, hregion, hcorresponds⟩ := ih hmem
      exact ⟨region, List.mem_cons_of_mem _ hregion, hcorresponds⟩

section Trimmed

variable {flow : Flow} {c : Cut} {start stop i : Nat} {r x : Routine}

theorem Cut.seat_eq_relocate (h : i < start ∨ stop ≤ i) (hlt : start < stop) :
    c.seat r start stop x i = (c.splice r start stop x).relocate i := by
  unfold seat
  split
  · rw [Splice.relocate, if_pos]
    · rfl
    · change i < start
      omega
  · rfl

/-- What stands behind an instruction outside the range sits behind it. -/
theorem Cut.seat_succ {insn : Instruction} (h : i < start ∨ stop ≤ i) (hlt : start < stop)
    (hi : r.code[i]? = some insn) :
    c.seat r start stop x (i + 1) =
      c.seat r start stop x i + if insn = .frame then 0 else 1 := by
  have hlist : r.code.toList[i]? = some insn := by simpa using hi
  -- a frame marker is left out, so the next instruction takes its seat
  have hrank {code : List Instruction} {k : Nat} (hk : code[k]? = some insn) :
      rank code (k + 1) = rank code k + if insn = .frame then 0 else 1 := by
    split
    · next hframe =>
      subst hframe
      exact rank_succ_of_frame hk
    · next hne => exact rank_succ hk hne
  rcases h with hbefore | hafter
  · -- before the range nothing has been moved
    rw [seat, seat, if_pos (by omega), if_pos (by omega)]
    exact hrank hlist
  · -- behind it everything is moved by the same distance
    have hdrop : (r.code.toList.drop stop)[i - stop]? = some insn := by
      rw [List.getElem?_drop, ← hlist]
      congr 1
      omega
    rw [seat_eq_relocate (.inr (by omega)) hlt, seat_eq_relocate (.inr hafter) hlt,
      Splice.relocate, Splice.relocate, if_neg (by change ¬ _ < start; omega),
      if_neg (by change ¬ _ < start; omega)]
    change _ + rank (r.code.toList.drop stop) (i + 1 - stop) =
      _ + rank (r.code.toList.drop stop) (i - stop) + _
    rw [show i + 1 - stop = i - stop + 1 by omega, hrank hdrop]
    omega

theorem le_localsNeeded (taken : Int) (insns : List Instruction) :
    taken ≤ localsNeeded taken insns := by
  induction insns generalizing taken with
  | nil => exact Int.le_refl _
  | cons insn rest ih =>
    refine Int.le_trans ?_ (ih _)
    dsimp only
    split
    · exact Int.le_max_left _ _
    · exact Int.le_refl _

theorem Region.contains_eq_false {region : Region} (h : region.stop ≤ region.start) (i : Nat) :
    region.contains i = false := by
  simp only [contains, Bool.and_eq_false_iff, decide_eq_false_iff_not]
  omega

/-- The regions of the trimmed routine, the empty ones included. -/
theorem Movable.corresponds_regions (hm : Movable r start stop) (hchecked : r.Checked) {t : Routine}
    (htrimmed : t.Checked) (hcode : t.code.toList = (c.splice r start stop x).result)
    (hblocks : t.blocks = r.blocks) :
    List.Forall₂ (Region.Corresponds r start stop (c.seat r start stop x)
      (c.splice r start stop x).entry (c.inserted x).length) r.regions t.regions := by
  have hlt := hm.lt
  have hle : (c.splice r start stop x).start ≤ (c.splice r start stop x).stop := Nat.le_of_lt hlt
  obtain ⟨hlen, hlands⟩ :=
    List.forall₂_iff_get.1 (hm.lands_regions hchecked htrimmed hcode hblocks)
  obtain ⟨hlen₁, hresolves⟩ := List.forall₂_iff_get.1 hchecked.regions
  have htables := htrimmed.regions
  rw [hblocks] at htables
  obtain ⟨hlen₂, hresolves'⟩ := List.forall₂_iff_get.1 htables
  refine List.forall₂_iff_get.2 ⟨hlen, fun n hn hn' => ?_⟩
  obtain ⟨htype, hfirst, hlast, hhandler⟩ := hlands n hn hn'
  generalize hregion : r.regions.get ⟨n, hn⟩ = region at *
  generalize hregion' : t.regions.get ⟨n, hn'⟩ = region' at *
  have hmem : region ∈ r.regions := hregion ▸ List.get_mem _ _
  refine ⟨htype, fun hne => ?_, fun i hi => ?_, fun q hq => ?_⟩
  · obtain ⟨-, -, hout⟩ := hm.outside hmem hne
    refine ⟨hout, ?_⟩
    rw [Cut.seat_eq_relocate hout hlt]
    rcases hhandler with ⟨-, heq⟩ | ⟨hrange, -⟩
    · exact heq
    · exact absurd hrange (by change ¬ (start ≤ _ ∧ _ < stop); omega)
  · rw [Cut.seat_eq_relocate hi.1 hlt]
    exact contains_of_lands hle hfirst hlast (Cut.stays_iff.2 hi)
  · cases hempty : region.isEmpty with
    | false =>
      obtain ⟨hstart, hstop, -⟩ := hm.outside hmem hempty
      have hlow := hfirst.le_entry_add_iff hstart hq hlt
      have hhigh := (hlast.le_entry_add_iff hstop hq hlt).not
      rw [Nat.not_le, Nat.not_le] at hhigh
      simp only [Region.contains, hlow, hhigh]
      rfl
    | true =>
      -- the two bounds of an empty block are one label, so they are together still
      have hblock : n < r.blocks.length := hlen₁ ▸ hn
      have hres := hresolves n hblock hn
      have hres' := hresolves' n hblock hn'
      rw [hregion] at hres
      rw [hregion'] at hres'
      have heq : region.start = region.stop :=
        Nat.le_antisymm hres.ordered (by simpa [Region.isEmpty] using hempty)
      obtain ⟨j, l, hj, hl, hid⟩ := exists_of_placeOf hres.start
      obtain ⟨j', l', hj', hl', hid'⟩ := exists_of_placeOf hres.stop
      obtain rfl : j = j' := by omega
      obtain rfl := Instruction.label.inj (Option.some.inj (hl.symm.trans hl'))
      have hsame := hres'.start
      rw [← hid, hid', hres'.stop] at hsame
      have heq' := Option.some.inj hsame
      rw [Region.contains_eq_false (Nat.le_of_eq heq.symm),
        Region.contains_eq_false (Nat.le_of_eq heq')]

/-- **The trimmed routine of a cut.** -/
theorem Chosen.trimmed (h : Chosen flow c start stop) (hmade : flow.routine.Made)
    (hcanonical : flow.routine.Canonical) (hsize : (flow.routine.size : Int) ≤ Word.max)
    {t : Routine} (htrim : trim flow.routine c x = .ok t) :
    Trimmed flow.routine t start stop (c.inserted x) (c.seat flow.routine start stop x)
      (c.splice flow.routine start stop x).entry := by
  have hm := h.movable
  have hlt := hm.lt
  have hchecked := hmade.checked
  have hrewires := h.rewires hmade hcanonical hsize htrim
  obtain ⟨htrimmed, hcode, hblocks⟩ := h.trim_ok hsize htrim
  rw [h.trim_eq hsize] at htrim
  obtain ⟨-, -, howner, hname, hdescriptor, haccess, -, hlocals, -⟩ := make_ok htrim
  have hsignature : t.signature = flow.routine.signature := by
    have := htrimmed.signature
    rw [hdescriptor, hchecked.signature] at this
    exact (Except.ok.inj this).symm
  refine ⟨htrimmed, howner, hname, hdescriptor, haccess, hsignature, ?_,
    fun i insn hi hinsn hne => ?_, fun i hi hframe => ?_, fun i insn hi hinsn l hl => ?_,
    by rw [Cut.seat, if_pos (Nat.zero_le _)]; rfl, ?_, fun k hlow hhigh => ?_,
    hrewires.stands, ?_, hm.corresponds_regions hchecked htrimmed hcode hblocks⟩
  · rw [hlocals]
    exact Int.le_trans (le_localsNeeded _ _) (Int.le_max_left _ _)
  · refine ⟨?_, by rw [Cut.seat_succ hi hlt hinsn, if_neg hne]⟩
    rw [Cut.seat_eq_relocate hi hlt]
    exact hrewires.code i insn ⟨hi, insn, hinsn, hne⟩ hinsn
  · rw [Cut.seat_succ hi hlt hframe, if_pos rfl]
    rfl
  · have hne : insn ≠ .frame := by
      rintro rfl
      cases hl
    obtain ⟨k, hk, hkeeps, hk'⟩ := hrewires.targets i insn ⟨hi, insn, hinsn, hne⟩ hinsn l hl
    exact ⟨k, hk, hkeeps.1, by rw [hk', Cut.seat_eq_relocate hkeeps.1 hlt]⟩
  · rw [Cut.seat, if_pos (Nat.le_refl _)]
    exact Nat.le_add_right _ _
  · -- the labels of the range that are still jumped to stand before the call
    rw [Cut.seat, if_pos (Nat.le_refl _)] at hlow
    have hkept : k - rank flow.routine.code.toList start <
        (c.splice flow.routine start stop x).kept.length := by
      unfold Splice.entry at hhigh
      change k < rank flow.routine.code.toList start + _ at hhigh
      omega
    have hget := Splice.getElem?_kept (List.getElem?_eq_getElem hkept)
    change (c.splice flow.routine start stop x).result[rank flow.routine.code.toList start + _]? =
      _ at hget
    rw [Nat.add_sub_cancel' hlow, ← hcode] at hget
    obtain ⟨l, -, hl⟩ := List.mem_map.1 (List.getElem_mem hkept)
    exact ⟨l, by rw [hl]; simpa using hget⟩
  · rw [Cut.seat_eq_relocate (.inr (Nat.le_refl _)) hlt, Splice.relocate,
      if_neg (by change ¬ stop < start; omega)]
    change _ + rank (flow.routine.code.toList.drop stop) (stop - stop) = _
    rw [Nat.sub_self]
    rfl

end Trimmed

/-! ### The extracted routine -/

/-- Where control goes on in the extracted routine when it is at an offset of the range or at its
end. -/
def Cut.spot (c : Cut) (r : Routine) (start : Nat) (plan : SlotPlan) (i : Nat) : Nat :=
  (prologue c plan).length + ((range r.code.toList start i).filterMap (moved plan)).length

/-- **The extracted routine**, with `spot` the spots of the instructions of the range. -/
structure Extracted (r x : Routine) (c : Cut) (start stop : Nat) (plan : SlotPlan)
    (spot : Nat → Nat) : Prop where
  checked : x.Checked
  owner : x.owner = r.owner
  isStatic : x.isStatic
  signature : x.signature = ⟨c.arguments.map JType.passed, .objectArray⟩
  parse : Signature.parse x.descriptor = .ok x.signature
  regions : x.regions = []
  prologue : ∀ (q : Nat) (insn : Instruction), (Outline.prologue c plan)[q]? = some insn →
    x.code[q]? = some insn
  spot_start : spot start = (Outline.prologue c plan).length
  code : ∀ i insn insn', start ≤ i → i < stop → r.code[i]? = some insn →
    moved plan insn = some insn' → x.code[spot i]? = some insn' ∧ spot (i + 1) = spot i + 1
  dropped : ∀ i insn, start ≤ i → i < stop → r.code[i]? = some insn → moved plan insn = none →
    spot (i + 1) = spot i
  targets : ∀ i insn, start ≤ i → i < stop → r.code[i]? = some insn → ∀ l ∈ insn.targets,
    ∃ k, r.offset? l = some k ∧ start ≤ k ∧ k < stop ∧ x.offset? l = some (spot k)
  epilogue : ∀ (q : Nat) (insn : Instruction), (Outline.epilogue c plan)[q]? = some insn →
    x.code[spot stop + q]? = some insn

section Extracted

variable {flow : Flow} {c : Cut} {start stop i : Nat} {r x : Routine} {plan : SlotPlan}

theorem range_succ {code : List Instruction} {insn : Instruction} (h : code[i]? = some insn)
    (hle : start ≤ i) : range code start (i + 1) = range code start i ++ [insn] := by
  obtain ⟨hlt, rfl⟩ := List.getElem?_eq_some_iff.1 h
  unfold range
  rw [show i + 1 - start = i - start + 1 by omega,
    List.take_succ_eq_append_getElem (by simp; omega)]
  simp [Nat.add_sub_cancel' hle]

theorem range_append {code : List Instruction} (hlow : start ≤ i) (hhigh : i ≤ stop) :
    range code start stop = range code start i ++ range code i stop := by
  unfold range
  rw [show stop - start = (i - start) + (stop - i) by omega, List.take_add, List.drop_drop,
    show start + (i - start) = i by omega]

theorem Cut.spot_succ {insn : Instruction} (h : r.code[i]? = some insn) (hle : start ≤ i) :
    c.spot r start plan (i + 1) =
      c.spot r start plan i + if (moved plan insn).isSome then 1 else 0 := by
  unfold spot
  rw [range_succ (by simpa using h) hle, List.filterMap_append, List.length_append]
  cases hmoved : moved plan insn <;> simp [hmoved, Nat.add_assoc]

/-- **The extracted routine of a cut.** -/
theorem Chosen.extracted (o : Outline) (h : Chosen flow c start stop) (hmade : flow.routine.Made)
    (hcanonical : flow.routine.Canonical) (hsize : (flow.routine.size : Int) ≤ Word.max)
    (hargs : ∀ t ∈ c.arguments, ∃ u, JType.parse t.descriptor = .ok u)
    (hextract : o.extract flow.routine c = .ok x) :
    Extracted flow.routine x c start stop
      (.ofCut c (accessWidths (range flow.routine.code.toList start stop)))
      (c.spot flow.routine start
        (.ofCut c (accessWidths (range flow.routine.code.toList start stop)))) := by
  have hchecked := hmade.checked
  generalize hplan : SlotPlan.ofCut c (accessWidths (range flow.routine.code.toList start stop)) =
    plan at *
  obtain ⟨hx, hlist, howner, -, hdescriptor, haccess, hblocks⟩ :=
    h.extract_ok hsize hplan.symm hextract
  have hget {k : Nat} {insn : Instruction} (hk : x.code.toList[k]? = some insn) :
      x.code[k]? = some insn := by simpa using hk
  have hspot {i : Nat} {insn insn' : Instruction} (hlow : start ≤ i) (hhigh : i < stop)
      (hi : flow.routine.code[i]? = some insn) (hmoved : moved plan insn = some insn') :
      x.code.toList[c.spot flow.routine start plan i]? = some insn' := by
    have hsplit : range flow.routine.code.toList start stop =
        range flow.routine.code.toList start i ++ insn ::
          range flow.routine.code.toList (i + 1) stop := by
      rw [range_append (Nat.le_succ_of_le hlow) hhigh, range_succ (by simpa using hi) hlow,
        List.append_assoc]
      rfl
    rw [hlist, hsplit, List.filterMap_append, List.filterMap_cons_some hmoved, Cut.spot,
      List.append_assoc, List.getElem?_append_right (Nat.le_add_right _ _),
      Nat.add_sub_cancel_left, List.append_assoc, List.getElem?_append_right (Nat.le_refl _),
      Nat.sub_self]
    rfl
  have hparse := hx.signature
  rw [hdescriptor] at hparse
  refine ⟨hx, howner, ?_, ?_, hx.signature, ?_, fun q insn hq => ?_, ?_,
    fun i insn insn' hlow hhigh hi hmoved => ?_, fun i insn hlow hhigh hi hmoved => ?_,
    fun i insn hlow hhigh hi l hl => ?_, fun q insn hq => ?_⟩
  · rw [isStatic, haccess]
    exact (by decide : Access.privateStaticSynthetic.has .static = true)
  · have hdefinite : JType.objectArray.isDefinite := rfl
    exact Except.ok.inj (hparse.symm.trans (Signature.parse_ofSignature
      (fun t ht => ⟨h.isDefinite t ht, hargs t ht⟩) hdefinite ⟨_, rfl⟩))
  · have := hx.regions
    rw [hblocks] at this
    exact List.forall₂_nil_left_iff.1 this
  · refine hget ?_
    rw [hlist, List.append_assoc, List.getElem?_append_left (List.getElem?_eq_some_iff.1 hq).1, hq]
  · simp [Cut.spot, range]
  · refine ⟨hget (hspot hlow hhigh hi hmoved), ?_⟩
    rw [Cut.spot_succ hi hlow, hmoved]
    rfl
  · rw [Cut.spot_succ hi hlow, hmoved]
    rfl
  · -- the target of a jump of the range is a label of the range
    have hmem : insn ∈ flow.routine.code := Array.mem_of_getElem? hi
    obtain ⟨hmarker, hbranch⟩ := Instruction.isBranch_of_mem_targets (hcanonical insn hmem) hl
    obtain ⟨k, hk⟩ := hchecked.targets insn hmem l hl
    obtain ⟨hlow', hhigh'⟩ := (h.movable.stays i insn hlow hhigh hi hmarker).2.2 hbranch k
      (List.mem_filterMap.2 ⟨l, hl, hk⟩)
    obtain ⟨l', hl', hid⟩ := hchecked.offset?_eq_some_iff.1 hk
    refine ⟨k, hk, hlow', hhigh', ?_⟩
    rw [hx.offset?_eq, ← hid]
    exact placeOf_zero_of_getElem? hx.nodup (hspot hlow' hhigh' hl' rfl)
  · refine hget ?_
    have hlength : c.spot flow.routine start plan stop = (prologue c plan ++
        (range flow.routine.code.toList start stop).filterMap (moved plan)).length := by
      rw [Cut.spot, List.length_append]
    rw [hlist, hlength, List.getElem?_append_right (Nat.le_add_right _ _),
      Nat.add_sub_cancel_left, hq]

end Extracted

end Outliner
