import Outliner.Proofs.Acceptance
import Outliner.Proofs.Halves
import Outliner.Proofs.Handover
import Outliner.Proofs.Sparing

/-!
# The extracted routine can be analyzed

The instructions of the range find in the extracted routine what they found before, as far as they
look: the cells above the floor of the range, and the slots they name, each in its place of the
plan. The arguments provide that at the start (`Crossing.exists_head`): they suit what they were
passed for, wherever the plan has moved them, and a slot that does not arrive has a place that
nothing has been stored in. At the end the results are packed.

The main results are `Crossing.exists_wraps` and `Extracted.expects`.
-/

namespace Outliner

open Tracker Outline

/-! ### Arguments -/

namespace Flow

/-- A slot in which no argument arrives is left alone. -/
theorem slot_setArguments_of_notMem (f : Frame) (index : Nat) (args : List JType) (j : Int)
    (h : ∀ a ∈ (SlotPlan.arrivals index args).1, (a : Int) ≠ j) :
    (setArguments f index args).slot j = f.slot j ∨ (setArguments f index args).slot j = .top := by
  induction args generalizing f index with
  | nil => exact .inl rfl
  | cons t rest ih =>
    have hne : j ≠ index := fun heq => h index List.mem_cons_self heq.symm
    rcases ih (f.setSlot index t.computational) (index + t.size)
      (fun a ha => h a (List.mem_cons_of_mem _ ha)) with hrest | hrest
    · rcases Frame.slot_setSlot_or f index t.computational j with hslot | hslot
      · rw [if_neg hne] at hslot
        exact .inl (hrest.trans hslot)
      · exact .inr (hrest.trans hslot)
    · exact .inr hrest

/-- An argument is found where it arrives, unless that became unusable. -/
theorem slot_setArguments (f : Frame) {index k a : Nat} {args : List JType} {t : JType}
    (hsize : ∀ t ∈ args, 1 ≤ t.size) (ha : (SlotPlan.arrivals index args).1[k]? = some a)
    (ht : args[k]? = some t) :
    (setArguments f index args).slot a = t.computational ∨
      (setArguments f index args).slot a = .top := by
  induction args generalizing f index k with
  | nil => cases ht
  | cons u rest ih =>
    cases k with
    | succ k => exact ih _ (fun t ht => hsize t (List.mem_cons_of_mem _ ht)) ha ht
    | zero =>
      obtain rfl : index = a := by simpa [SlotPlan.arrivals] using ha
      obtain rfl : u = t := by simpa using ht
      have hu := hsize u List.mem_cons_self
      -- a later argument lies behind this one, and can only clear it
      have hlater : ∀ a ∈ (SlotPlan.arrivals (index + u.size) rest).1, (a : Int) ≠ index := by
        intro a ha
        obtain ⟨k, hk⟩ := List.getElem?_of_mem ha
        have hlt : k < rest.length := by
          have := (List.getElem?_eq_some_iff.1 hk).1
          rwa [SlotPlan.length_arrivals] at this
        have := (SlotPlan.arrivals_bounds hk (List.getElem?_eq_getElem hlt)).1
        omega
      rcases slot_setArguments_of_notMem (f.setSlot index u.computational)
        (index + u.size) rest index hlater with hrest | hrest
      · rcases Frame.slot_setSlot_or f index u.computational index with hslot | hslot
        · rw [if_pos rfl] at hslot
          exact .inl (hrest.trans hslot)
        · exact .inr (hrest.trans hslot)
      · exact .inr hrest

end Flow

theorem SlotPlan.arrivals_passed (n : Nat) (types : List JType) :
    arrivals n (types.map JType.passed) = arrivals n types := by
  induction types generalizing n with
  | nil => rfl
  | cons t rest ih =>
    have ht : t.passed.size = t.size := by cases t <;> rfl
    simp only [List.map_cons, arrivals, ih, ht]

/-- What is passed for a value does as well. -/
theorem JType.suits_passed (owner : String) (t : JType) : t.Suits owner t.passed.computational := by
  cases t with
  | null => exact suits_of_isArray rfl
  | prim p => cases p <;> exact suits_of_isArray rfl
  | _ => exact .refl owner _

section Entry

variable {r x : Routine} {c : Cut} {start stop : Nat} {plan : SlotPlan} {spot : Nat → Nat}
  (hx : Extracted r x c start stop plan spot) (hdefinite : ∀ t ∈ c.arguments, t.isDefinite)

include hx

/-- An argument of the extracted routine does as well as the value it was passed for. -/
theorem Extracted.suits_argument (hdefinite : ∀ t ∈ c.arguments, t.isDefinite) {k a : Nat}
    {t : JType} (ha : (SlotPlan.arrivals 0 c.arguments).1[k]? = some a)
    (ht : c.arguments[k]? = some t) (owner : String) : t.Suits owner ((Flow.entry x).slot a) := by
  have hentry : Flow.entry x = Flow.setArguments .empty 0 (c.arguments.map JType.passed) := by
    rw [Flow.entry, if_pos hx.isStatic, hx.signature]
  have hsizes : ∀ u ∈ c.arguments.map JType.passed, 1 ≤ u.size := by
    intro u hu
    obtain ⟨u, hmem, rfl⟩ := List.mem_map.1 hu
    have hsize := Form.size_of_isDefinite (hdefinite u hmem)
    have hpassed : u.passed.size = u.size := by cases u <;> rfl
    omega
  rw [hentry]
  rcases Flow.slot_setArguments (k := k) (a := a) (t := t.passed) .empty hsizes
    (by rw [SlotPlan.arrivals_passed]; exact ha) (by rw [List.getElem?_map, ht]; rfl) with h | h
  · rw [h]
    exact JType.suits_passed owner t
  · rw [h]
    exact JType.suits_top owner t

/-- Behind the arguments nothing is set. -/
theorem Extracted.slot_entry_of_le {k : Nat} (hk : SlotPlan.argumentsEnd c ≤ k)
    (hdefinite : ∀ t ∈ c.arguments, t.isDefinite) : (Flow.entry x).slot k = .top := by
  rw [Flow.entry, if_pos hx.isStatic, hx.signature]
  have hnot : ∀ a ∈ (SlotPlan.arrivals 0 (c.arguments.map JType.passed)).1, (a : Int) ≠ k := by
    intro a ha
    rw [SlotPlan.arrivals_passed] at ha
    obtain ⟨j, hj⟩ := List.getElem?_of_mem ha
    have hlt : j < c.arguments.length := by
      have := (List.getElem?_eq_some_iff.1 hj).1
      rwa [SlotPlan.length_arrivals] at this
    have hsize := Form.size_of_isDefinite (hdefinite _ (List.getElem_mem hlt))
    have hbounds := (SlotPlan.arrivals_bounds hj (List.getElem?_eq_getElem hlt)).2
    unfold SlotPlan.argumentsEnd at hk
    omega
  exact (Flow.slot_setArguments_of_notMem .empty 0 _ k hnot).elim id id

end Entry

/-! ### Around the range -/

/-- What the instructions of a range look at in a frame: the cells above a floor, and the slots that
the range names, each in its place. -/
def Frame.seen (f : Frame) (owner : String) (plan : SlotPlan) (widths : SlotMap Nat) (floor : Nat) :
    Form :=
  f.form owner plan.slot (fun slot => widths.contains slot) floor

/-- **What is expected around the range in the extracted routine**: `head` along the code in front
of it, and `tail` along the code behind it. -/
structure Wraps (flow : Flow) (c : Cut) (plan : SlotPlan) (x : Routine) (widths : SlotMap Nat)
    (floor : Nat) (before exit : Frame) (head tail : Nat → Form) : Prop where
  entry : (head 0).Fits flow.routine.owner (Flow.entry x)
  prologue : ∀ q insn, (Outline.prologue c plan)[q]? = some insn →
    Form.Passes flow.routine.owner (head q) insn (head (q + 1))
  enter : Form.Yields flow.routine.owner (head (Outline.prologue c plan).length)
    (before.seen flow.routine.owner plan widths floor)
  leave : tail 0 = exit.seen flow.routine.owner plan widths floor
  epilogue : ∀ q insn, (Outline.epilogue c plan)[q]? = some insn →
    (Form.Passes flow.routine.owner (tail q) insn (tail (q + 1)) ∧
      q + 1 < (Outline.epilogue c plan).length) ∨
      (insn = .plain (.returnValue .ref) ∧ Form.Yields flow.routine.owner (tail q)
        (.topped [] (exit.seen flow.routine.owner plan widths floor).asks [.objectArray]))
  nonempty : 0 < (Outline.epilogue c plan).length

section Wraps

variable {flow : Flow} (hp : flow.Proper) {c : Cut} {start stop floor : Nat} {before exit : Frame}
  (hx : Crossing flow c start stop before exit floor) (hm : Movable flow.routine start stop)
  {x : Routine} {plan : SlotPlan} {spot : Nat → Nat}
  (hextracted : Extracted flow.routine x c start stop plan spot) {widths : SlotMap Nat}
  (hplaces : SlotPlan.Places c widths plan)

include hx in
theorem Crossing.isDefinite_arguments {t : JType} (ht : t ∈ c.arguments) : t.isDefinite := by
  rcases List.mem_append.1 ht with ht | ht
  · exact hx.consumed_isDefinite t ht
  · obtain ⟨e, he, rfl⟩ := List.mem_map.1 ht
    exact (hx.read_eq e.1 e.2 ((SlotMap.mem_entries_iff c.read e.1 e.2).1 he)).2

include hp hx hextracted hplaces in
/-- **The arguments provide what the range starts with.** -/
theorem Crossing.exists_head :
    ∃ head : Nat → Form, (head 0).Fits flow.routine.owner (Flow.entry x) ∧
      (∀ q insn, (Outline.prologue c plan)[q]? = some insn →
        Form.Passes flow.routine.owner (head q) insn (head (q + 1))) ∧
      Form.Yields flow.routine.owner (head (Outline.prologue c plan).length)
        (before.seen flow.routine.owner plan widths floor) := by
  have hdefinite (t : JType) (ht : t ∈ c.arguments) : t.isDefinite := hx.isDefinite_arguments ht
  have hbound {k a : Nat} (ha : (SlotPlan.arrivals 0 c.arguments).1[k]? = some a) {t : JType}
      (ht : c.arguments[k]? = some t) : a < SlotPlan.argumentsEnd c := by
    have hsize := Form.size_of_isDefinite (hdefinite t (List.mem_of_getElem? ht))
    have := (SlotPlan.arrivals_bounds ha ht).2
    unfold SlotPlan.argumentsEnd
    omega
  have happart {a : Nat} (ha : a < SlotPlan.argumentsEnd c) (e : JType × Nat × Nat)
      (he : e ∈ plan.copies) : e.2.2 ≠ a := by
    have := (hplaces.copies e he).1
    omega
  have hruns := @Form.runs_prologue flow.routine.owner []
    (fun j u => u.Suits flow.routine.owner ((Flow.entry x).slot j)) c plan ?_ ?_
  · obtain ⟨head, hfirst, hlast, -, hpasses⟩ := hruns.exists_forms
    refine ⟨head, ?_, hpasses, fun g hg => ?_⟩
    · rw [hfirst]
      refine ⟨?_, fun _ _ h => h⟩
      rw [Flow.stack_entry]
      exact .nil
    · have hfits := hlast g hg
      refine Frame.fits_form_iff.2 ⟨?_, fun slot hslot => ?_⟩
      · rw [hx.take_before hp, ← List.append_nil (cellsOfAll _)]
        exact hfits.stack
      · refine hfits.slots _ _ ?_
        obtain ⟨k, hk⟩ := Option.isSome_iff_exists.1 (hplaces.touched slot hslot)
        have hplace : plan.slot slot = k := by rw [SlotPlan.slot, hk]; rfl
        rw [hplace]
        cases hread : c.read.get? slot with
        | some t =>
          -- a read local is where it arrived, or was copied
          obtain ⟨rfl, -⟩ := hx.read_eq slot t hread
          obtain ⟨n, hn⟩ := List.getElem?_of_mem
            ((SlotMap.mem_entries_iff c.read slot _).2 hread)
          have harg : c.arguments[c.consumed.length + n]? = some (before.slot slot) := by
            rw [c.getElem?_arguments]
            exact congrArg _ hn
          have hlt : c.consumed.length + n < (SlotPlan.arrivals 0 c.arguments).1.length := by
            rw [SlotPlan.length_arrivals]
            exact (List.getElem?_eq_some_iff.1 harg).1
          have ha := List.getElem?_eq_getElem hlt
          obtain ⟨k', hk', hsettles⟩ := hplaces.settles n slot _ _ hn ha
          obtain rfl := Option.some.inj (hk.symm.trans hk')
          rcases hsettles with hsame | hcopy
          · rw [hsame]
            refine (Form.restored_of_notMem ?_ _).2
              (hextracted.suits_argument hdefinite ha harg _)
            intro e he
            obtain ⟨e', he', rfl⟩ := List.mem_map.1 he
            exact fun heq => happart (hbound ha harg) e' he' (Int.ofNat.inj heq)
          · refine (Form.restored_of_mem ?_ (List.mem_map.2 ⟨_, hcopy, rfl⟩) _).2 (.refl _ _)
            rw [List.map_map]
            exact List.pairwise_map.2 ((List.pairwise_map.1 hplaces.nodup).imp fun hne heq =>
              hne (Int.ofNat.inj heq))
        | none =>
          -- any other has a place of its own behind the arguments
          have hend : SlotPlan.argumentsEnd c ≤ k := by
            refine (hplaces.fresh slot k hk).resolve_right ?_
            rintro ⟨n, t, hn, -⟩
            have hget := (SlotMap.mem_entries_iff c.read slot t).1 (List.mem_of_getElem? hn)
            rw [hread] at hget
            cases hget
          refine (Form.restored_of_notMem ?_ _).2 ?_
          · intro e he heq
            obtain ⟨e', he', rfl⟩ := List.mem_map.1 he
            obtain ⟨-, n, s, hn, -, hs⟩ := hplaces.copies e' he'
            have hget := (SlotMap.mem_entries_iff c.read s e'.1).1 (List.mem_of_getElem? hn)
            obtain rfl : e'.2.2 = k := Int.ofNat.inj heq
            obtain rfl := hplaces.place_inj (.inl hslot)
              (.inr (Option.isSome_iff_exists.2 ⟨_, hget⟩)) hk hs
            rw [hget] at hread
            cases hread
          · rw [hextracted.slot_entry_of_le hend hdefinite]
            exact JType.suits_top _ _
  · intro e he
    obtain ⟨-, k, s, hk, ha, -⟩ := hplaces.copies e he
    have harg : c.arguments[c.consumed.length + k]? = some e.1 := by
      rw [c.getElem?_arguments, hk]
      rfl
    exact ⟨hdefinite _ (List.mem_of_getElem? harg), hextracted.suits_argument hdefinite ha harg _,
      happart (hbound ha harg)⟩
  · intro e he
    obtain ⟨k, hk⟩ := List.getElem?_of_mem he
    obtain ⟨ht, ha⟩ := List.getElem?_zip_eq_some.1 hk
    have hlt := (List.getElem?_eq_some_iff.1 ht).1
    have harg : c.arguments[k]? = some e.1 := by
      rw [Cut.arguments, List.getElem?_append_left hlt]
      exact ht
    have harrival : (SlotPlan.arrivals 0 c.arguments).1[k]? = some e.2 := by
      rw [Cut.arguments, SlotPlan.arrivals_append,
        List.getElem?_append_left (by rw [SlotPlan.length_arrivals]; exact hlt)]
      exact ha
    exact ⟨hdefinite _ (List.mem_of_getElem? harg),
      hextracted.suits_argument hdefinite harrival harg _, happart (hbound harrival harg)⟩

include hp hx hm hextracted hplaces in
/-- **The code around the range does what is expected of it.** -/
theorem Crossing.exists_wraps
    (hwritten : ∀ slot, flow.Writes start stop slot → widths.contains slot) :
    ∃ head tail, Wraps flow c plan x widths floor before exit head tail := by
  obtain ⟨head, hentry, hprologue, henter⟩ := hx.exists_head hp hextracted hplaces
  have hexit : Form.topped [] (exit.seen flow.routine.owner plan widths floor).asks
      c.produced.reverse = exit.seen flow.routine.owner plan widths floor := by
    unfold Form.topped Frame.seen Frame.form
    rw [hx.take_exit hp hm, List.append_nil]
  -- the epilogue runs from the exit frame on, whatever its slots outside the plan hold
  obtain ⟨insns, hinsns, hruns⟩ := @Form.runs_epilogue flow.routine.owner []
    (exit.seen flow.routine.owner plan widths floor).asks (fun _ _ => False)
    (fun _ _ h => h.elim) c plan hx.produced_isDefinite fun e he => by
      obtain ⟨heq, hdefinite, hwrites⟩ := hx.written_eq e.1 e.2
        ((SlotMap.mem_entries_iff c.written e.1 e.2).1 he)
      exact ⟨hdefinite, e.1, hwritten e.1 hwrites, rfl, by rw [heq]; exact .refl _ _⟩
  obtain ⟨tail, hfirst, hlast, -, hpasses⟩ := hruns.exists_forms
  refine ⟨head, tail, hentry, hprologue, henter, hfirst.trans hexit, fun q insn hq => ?_, ?_⟩
  -- the last instruction is the return, at which the stack holds the array alone
  · rw [hinsns] at hq ⊢
    rcases Nat.lt_or_ge q insns.length with hlt | hge
    · rw [List.getElem?_append_left hlt] at hq
      exact .inl ⟨hpasses q insn hq, by simp; omega⟩
    · rw [List.getElem?_append_right hge] at hq
      have hlt := (List.getElem?_eq_some_iff.1 hq).1
      rw [List.length_singleton] at hlt
      obtain rfl : q = insns.length := by omega
      rw [Nat.sub_self] at hq
      exact .inr ⟨(Option.some.inj hq).symm, hlast⟩
  · rw [hinsns]
    simp

end Wraps

/-! ### The extracted routine -/

/-- What is expected in the extracted routine: along the range what was expected there before, as
far as the range looks. -/
inductive ExtractedAt (flow : Flow) (c : Cut) (start stop : Nat) (plan : SlotPlan)
    (spot : Nat → Nat) (widths : SlotMap Nat) (floor : Nat) (head tail : Nat → Form) :
    Nat → Form → Prop where
  | head {q : Nat} (lt : q < (Outline.prologue c plan).length) :
    ExtractedAt flow c start stop plan spot widths floor head tail q (head q)
  | range {i j : Nat} {f : Frame} {insn insn' : Instruction} (low : start ≤ i) (high : i < stop)
    (code : flow.routine.code[i]? = some insn) (moves : moved plan insn = some insn')
    (frame : flow.frame? i = some (some f)) (stands : spot i = j) :
    ExtractedAt flow c start stop plan spot widths floor head tail j
      (f.seen flow.routine.owner plan widths floor)
  | tail {q j : Nat} (lt : q < (Outline.epilogue c plan).length) (stands : spot stop + q = j) :
    ExtractedAt flow c start stop plan spot widths floor head tail j (tail q)

section Spots

variable {r x : Routine} {c : Cut} {start stop i j : Nat} {plan : SlotPlan} {spot : Nat → Nat}

/-- Spots are in the order of the instructions. -/
theorem Extracted.spot_le (hx : Extracted r x c start stop plan spot) (hle : stop ≤ r.size)
    (hlow : start ≤ i) (hij : i ≤ j) (hj : j ≤ stop) : spot i ≤ spot j := by
  induction hij with
  | refl => exact Nat.le_refl _
  | @step j hij ih =>
    change spot i ≤ spot (j + 1)
    have hprev := ih (by omega)
    have hlow' : start ≤ j := Nat.le_trans hlow hij
    have hlt : j < r.code.size := by
      unfold Routine.size at hle
      omega
    have hinsn := Array.getElem?_eq_getElem hlt
    cases hmoved : moved plan r.code[j] with
    | none =>
      have := hx.dropped j _ hlow' (by omega) hinsn hmoved
      omega
    | some insn' =>
      have := (hx.code j _ insn' hlow' (by omega) hinsn hmoved).2
      omega

theorem Extracted.spot_lt (hx : Extracted r x c start stop plan spot) (hle : stop ≤ r.size)
    (hlow : start ≤ i) (hij : i < j) (hj : j ≤ stop) {insn insn' : Instruction}
    (hinsn : r.code[i]? = some insn) (hmoves : moved plan insn = some insn') : spot i < spot j := by
  have hsucc := (hx.code i insn insn' hlow (by omega) hinsn hmoves).2
  have hnext := @Extracted.spot_le r x c start stop (i + 1) j plan spot hx hle (by omega) hij hj
  omega

/-- No two instructions have the same spot. -/
theorem Extracted.spot_inj (hx : Extracted r x c start stop plan spot) (hle : stop ≤ r.size)
    {insn insn' insn₁ insn₁' : Instruction} (hi : start ≤ i) (hi' : i < stop) (hj : start ≤ j)
    (hj' : j < stop) (hinsn : r.code[i]? = some insn) (hmoves : moved plan insn = some insn')
    (hinsn₁ : r.code[j]? = some insn₁) (hmoves₁ : moved plan insn₁ = some insn₁')
    (heq : spot i = spot j) : i = j := by
  rcases Nat.lt_trichotomy i j with hij | hij | hij
  · have := hx.spot_lt hle hi hij (Nat.le_of_lt hj') hinsn hmoves
    omega
  · exact hij
  · have := hx.spot_lt hle hj hij (Nat.le_of_lt hi') hinsn₁ hmoves₁
    omega

/-- What is left out of the range is a marker, and the rest has its slots renamed. -/
theorem moved_cases (plan : SlotPlan) (insn : Instruction) :
    (moved plan insn = none ∧ insn.isMarker) ∨ moved plan insn = some (insn.reslot plan.slot) := by
  cases insn with
  | line _ | frame => exact .inl ⟨rfl, rfl⟩
  | _ => exact .inr rfl

theorem targets_reslot (place : Int → Int) (insn : Instruction) :
    (insn.reslot place).targets = insn.targets := by
  cases insn <;> rfl

end Spots

section Extracted

variable {flow : Flow} (hp : flow.Proper) {c : Cut} {start stop floor : Nat} {before exit : Frame}
  (hx : Crossing flow c start stop before exit floor) (hm : Movable flow.routine start stop)
  {x : Routine} {plan : SlotPlan} {spot : Nat → Nat}
  (hextracted : Extracted flow.routine x c start stop plan spot) {widths : SlotMap Nat}
  {head tail : Nat → Form} (hwraps : Wraps flow c plan x widths floor before exit head tail)

include hm hextracted in
theorem ExtractedAt.unique {j : Nat} {v w : Form}
    (hv : ExtractedAt flow c start stop plan spot widths floor head tail j v)
    (hw : ExtractedAt flow c start stop plan spot widths floor head tail j w) : v = w := by
  have hlt := hm.lt
  have hle := hm.le_size
  have hstart := hextracted.spot_start
  have hinside {i : Nat} {insn insn' : Instruction} (hlow : start ≤ i) (hhigh : i < stop)
      (hinsn : flow.routine.code[i]? = some insn) (hmoves : moved plan insn = some insn') :
      (Outline.prologue c plan).length ≤ spot i ∧ spot i < spot stop := by
    rw [← hstart]
    exact ⟨hextracted.spot_le hle (Nat.le_refl _) hlow (Nat.le_of_lt hhigh),
      hextracted.spot_lt hle hlow hhigh (Nat.le_refl _) hinsn hmoves⟩
  have hwhole := hextracted.spot_le hle (Nat.le_refl start) (Nat.le_of_lt hlt) (Nat.le_refl _)
  -- the three parts of the code lie one after the other, and the range is seen once only
  cases hv with
  | head lt =>
    cases hw with
    | head _ => rfl
    | range low high code moves frame stands =>
      have := hinside low high code moves
      omega
    | tail lt' stands => omega
  | range low high code moves frame stands =>
    have hin := hinside low high code moves
    cases hw with
    | head lt => omega
    | range low' high' code' moves' frame' stands' =>
      obtain rfl := hextracted.spot_inj hle low high low' high' code moves code' moves'
        (stands.trans stands'.symm)
      rw [frame] at frame'
      obtain rfl := Option.some.inj (Option.some.inj frame')
      rfl
    | tail lt' stands' => omega
  | @tail q _ lt stands =>
    cases hw with
    | head lt' => omega
    | range low high code moves frame stands' =>
      have := hinside low high code moves
      omega
    | @tail q' _ lt' stands' =>
      obtain rfl : q = q' := by omega
      rfl

include hp hx hm hextracted hwraps

/-- What an instruction of the range leaves is what is expected behind it. -/
theorem ExtractedAt.land_next {i : Nat} (hhigh : i < stop) {f after g : Frame}
    {insn : Instruction} (hf : flow.frame? i = some (some f))
    (hinsn : flow.routine.code[i]? = some insn) (hrest : flow.AtRest i f insn after)
    (hfalls : insn.isMarker ∨ insn.opcode.fallsThrough)
    (hg : (after.seen flow.routine.owner plan widths floor).Fits flow.routine.owner g)
    (hland : ∀ f', i + 1 < stop → flow.frame? (i + 1 : Nat) = some (some f') →
      (f'.seen flow.routine.owner plan widths floor).Fits flow.routine.owner g →
      Flow.Meets flow.routine.owner
        (ExtractedAt flow c start stop plan spot widths floor head tail) (spot (i + 1)) g) :
    Flow.Meets flow.routine.owner
      (ExtractedAt flow c start stop plan spot widths floor head tail) (spot (i + 1)) g := by
  rcases Nat.lt_or_eq_of_le hhigh with hlt | rfl
  · obtain ⟨f', hf', habsorbs⟩ := hrest.next hfalls
    exact hland f' hlt hf' (Frame.Absorbs.fits habsorbs hg)
  · -- at the end of the range
    obtain ⟨f', insn', hf', hinsn', -, hrest'⟩ := hx.exists_last hp hm
    rw [Nat.succ_sub_one] at hf' hinsn' hrest'
    rw [hf] at hf'
    obtain rfl := Option.some.inj (Option.some.inj hf')
    obtain rfl := Option.some.inj (hinsn.symm.trans hinsn')
    obtain rfl := (Prod.mk.inj (hrest.executed.symm.trans hrest'.executed)).1
    exact ⟨tail 0, .tail hwraps.nonempty rfl, by rw [hwraps.leave]; exact hg⟩

/-- Control that comes to an instruction of the range finds what is expected there. -/
theorem ExtractedAt.land {i : Nat} (hlow : start ≤ i) (hhigh : i < stop) {f g : Frame}
    (hf : flow.frame? i = some (some f))
    (hg : (f.seen flow.routine.owner plan widths floor).Fits flow.routine.owner g) :
    Flow.Meets flow.routine.owner
      (ExtractedAt flow c start stop plan spot widths floor head tail) (spot i) g := by
  obtain ⟨n, hn⟩ : ∃ n, n = stop - i := ⟨_, rfl⟩
  induction n generalizing i f with
  | zero => omega
  | succ n ih =>
    obtain ⟨insn, after, hinsn, hrest⟩ := hp.atRest hf
    rcases moved_cases plan insn with ⟨hnone, hmarker⟩ | hmoves
    · -- a line number or frame marker is left out, and what follows it expects no more
      obtain rfl := execute_marker hmarker hrest.executed
      rw [← hextracted.dropped i insn hlow hhigh hinsn hnone]
      exact ExtractedAt.land_next hp hx hm hextracted hwraps hhigh hf hinsn hrest
        (.inl hmarker) hg fun f' hlt hf' hg' => ih (by omega) hlt hf' hg' (by omega)
    · exact ⟨_, .range hlow hhigh hinsn hmoves hf rfl, hg⟩

/-- An instruction of the range passes on what is expected. -/
theorem ExtractedAt.step_range
    (hapart : ∀ slot slot', widths.contains slot → widths.contains slot' →
      plan.slot slot = plan.slot slot' → slot = slot')
    {i : Nat} (hlow : start ≤ i) (hhigh : i < stop) {insn insn' : Instruction}
    (hinsn : flow.routine.code[i]? = some insn) (hmoves : moved plan insn = some insn')
    (htouched : ∀ slot width, insn.slotAccess? = some (slot, width) → widths.contains slot)
    {f g : Frame} (hf : flow.frame? i = some (some f))
    (hg : (f.seen flow.routine.owner plan widths floor).Fits flow.routine.owner g) :
    Flow.Moves flow.routine.owner x
      (ExtractedAt flow c start stop plan spot widths floor head tail) (spot i) g := by
  obtain ⟨insn₁, after, hinsn₁, hrest⟩ := hp.atRest hf
  obtain rfl := Option.some.inj (hinsn.symm.trans hinsn₁)
  obtain ⟨hcode, hsucc⟩ := hextracted.code i insn insn' hlow hhigh hinsn hmoves
  -- a frame marker is not moved, so the instruction only has its slots replaced
  obtain rfl : insn' = insn.reslot plan.slot := by
    rcases moved_cases plan insn with ⟨hnone, -⟩ | hsome
    · rw [hnone] at hmoves
      cases hmoves
    · exact Option.some.inj (hmoves.symm.trans hsome)
  obtain ⟨after', effect', hexec, hafter, -⟩ := hp.outcome hf hinsn hrest.executed
    (hx.floor_le i f hlow hhigh hf) hapart htouched hg (spot i)
  have hmarker : (insn.reslot plan.slot).isMarker = insn.isMarker := by
    rw [Instruction.isMarker, Instruction.opcode_reslot]
    rfl
  refine ⟨_, after', effect', hcode, hexec, ?_, fun hfalls => ?_, fun k hk => ?_,
    fun _ region hregion => ?_⟩
  · rw [Instruction.opcode_reslot]
    exact (hm.plain hp.canonical hinsn hlow hhigh).1
  · rw [Instruction.fallsThrough, Bool.or_eq_true, hmarker, Instruction.opcode_reslot] at hfalls
    rw [← hsucc]
    exact ExtractedAt.land_next hp hx hm hextracted hwraps hhigh hf hinsn hrest hfalls hafter
      fun f' hlt hf' hg' => ExtractedAt.land hp hx hm hextracted hwraps (by omega) hlt hf' hg'
  · obtain ⟨l, hl, hk⟩ := List.mem_filterMap.1 hk
    rw [targets_reslot] at hl
    obtain ⟨k', hk', hlow', hhigh', hspot⟩ := hextracted.targets i insn hlow hhigh hinsn l hl
    obtain ⟨k'', hk'', f', hf', habsorbs⟩ := hrest.target l hl
    obtain rfl := Option.some.inj (hk'.symm.trans hk'')
    obtain rfl := Option.some.inj (hk.symm.trans hspot)
    exact ExtractedAt.land hp hx hm hextracted hwraps hlow' hhigh' hf'
      (Frame.Absorbs.fits habsorbs hafter)
  · rw [hextracted.regions] at hregion
    cases hregion

/-- An instruction in front of the range passes on what is expected. -/
theorem ExtractedAt.step_head {q : Nat} (hq : q < (Outline.prologue c plan).length) {g : Frame}
    (hg : (head q).Fits flow.routine.owner g) :
    Flow.Moves flow.routine.owner x
      (ExtractedAt flow c start stop plan spot widths floor head tail) q g := by
  have hlt := hm.lt
  have hinsn := List.getElem?_eq_getElem hq
  obtain ⟨hgoes, hdoes⟩ := hwraps.prologue q _ hinsn
  obtain ⟨after, effect, hexec, hafter⟩ := hdoes q g hg
  refine ⟨_, after, effect, hextracted.prologue q _ hinsn, hexec, hgoes.plain, fun _ => ?_,
    fun k hk => ?_, fun _ region hregion => ?_⟩
  · by_cases hlast : q + 1 < (Outline.prologue c plan).length
    · exact ⟨_, .head hlast, hafter⟩
    · have hlength : q + 1 = (Outline.prologue c plan).length := by omega
      have hland := ExtractedAt.land hp hx hm hextracted hwraps (Nat.le_refl start) hlt hx.before_eq
        (hwraps.enter after (by rw [← hlength]; exact hafter))
      rwa [hextracted.spot_start, ← hlength] at hland
  · rw [Routine.targetOffsets, hgoes.targets] at hk
    cases hk
  · rw [hextracted.regions] at hregion
    cases hregion

omit hp hx hm in
/-- An instruction behind the range passes on what is expected, and the last one returns. -/
theorem ExtractedAt.step_tail {q : Nat} (hq : q < (Outline.epilogue c plan).length) {g : Frame}
    (hg : (tail q).Fits flow.routine.owner g) :
    Flow.Moves flow.routine.owner x
      (ExtractedAt flow c start stop plan spot widths floor head tail) (spot stop + q) g := by
  have hinsn := List.getElem?_eq_getElem hq
  have hcode := hextracted.epilogue q _ hinsn
  rcases hwraps.epilogue q _ hinsn with ⟨⟨hgoes, hdoes⟩, hlast⟩ | ⟨hreturn, hyields⟩
  · obtain ⟨after, effect, hexec, hafter⟩ := hdoes (spot stop + q) g hg
    refine ⟨_, after, effect, hcode, hexec, hgoes.plain,
      fun _ => ⟨_, .tail hlast (Nat.add_assoc _ _ _).symm, hafter⟩, fun k hk => ?_,
      fun _ region hregion => ?_⟩
    · rw [Routine.targetOffsets, hgoes.targets] at hk
      cases hk
    · rw [hextracted.regions] at hregion
      cases hregion
  · rw [hreturn] at hcode
    obtain ⟨after, effect, hexec⟩ := Form.execute_return (hyields g hg) (spot stop + q : Nat)
    refine ⟨_, after, effect, hcode, hexec, rfl, fun hfalls => ?_, fun k hk => ?_,
      fun _ region hregion => ?_⟩
    · cases hfalls
    · cases hk
    · rw [hextracted.regions] at hregion
      cases hregion

/-- **The extracted routine meets what is expected of it.** -/
theorem Extracted.expects
    (hapart : ∀ slot slot', widths.contains slot → widths.contains slot' →
      plan.slot slot = plan.slot slot' → slot = slot')
    (htouched : ∀ i insn, start ≤ i → i < stop → flow.routine.code[i]? = some insn →
      ∀ slot width, insn.slotAccess? = some (slot, width) → widths.contains slot) :
    Flow.Expects x (ExtractedAt flow c start stop plan spot widths floor head tail) where
  unique := fun j v w hv hw => ExtractedAt.unique hm hextracted hv hw
  entry := by
    have hlt := hm.lt
    rw [hextracted.owner]
    -- with nothing to move around on entry, the range itself is entered
    by_cases hempty : 0 < (Outline.prologue c plan).length
    · exact ⟨_, .head hempty, hwraps.entry⟩
    · have hlength : (Outline.prologue c plan).length = 0 := by omega
      have hland := ExtractedAt.land hp hx hm hextracted hwraps (Nat.le_refl start) hlt hx.before_eq
        (hwraps.enter _ (by rw [hlength]; exact hwraps.entry))
      rwa [hextracted.spot_start, hlength] at hland
  step := fun j v f hv hf => by
    rw [hextracted.owner] at hf ⊢
    cases hv with
    | head lt => exact ExtractedAt.step_head hp hx hm hextracted hwraps lt hf
    | range low high code moves frame stands =>
      subst stands
      exact ExtractedAt.step_range hp hx hm hextracted hwraps hapart low high code moves
        (htouched _ _ low high code) frame hf
    | tail lt stands =>
      subst stands
      exact ExtractedAt.step_tail hextracted hwraps lt hf

end Extracted

end Outliner
