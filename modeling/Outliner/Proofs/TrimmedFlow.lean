import Outliner.Proofs.Acceptance
import Outliner.Proofs.Halves
import Outliner.Proofs.Handover
import Outliner.Proofs.Sparing

/-!
# The trimmed routine can be analyzed

Outside the range that was cut out, what did as well before does as well now: the same instructions
stand there, control goes the same ways, and the frame markers that were dropped had no effect. The
call and the code behind it stand where the range was. What is expected along them (`Fills`) starts
with the frame before the range and ends with one that does as well as the frame after it, because
what the range leaves alone is as it was and the rest is restored from the array of results.

An exception may take control away from the middle of that code. The handler then finds slots that
were restored already next to others that were not; it expects no more of either, since its frame
absorbs all frames of the range.

The main results are `Crossing.exists_fills` and `Trimmed.expects`.
-/

namespace Outliner

open Tracker

/-- **What is expected along the code that takes the place of a range.** -/
structure Fills (flow : Flow) (stop : Nat) (before exit : Frame) (inserted : List Instruction)
    (form : Nat → Form) : Prop where
  first : form 0 = before.whole flow.routine.owner
  last : ∃ f, flow.frame? stop = some (some f) ∧
    Form.Yields flow.routine.owner (form inserted.length) (f.whole flow.routine.owner)
  low : ∀ q k t, t.Eases flow.routine.owner (before.slot k) →
    t.Eases flow.routine.owner (exit.slot k) → (form q).asks k t
  passes : ∀ q insn, inserted[q]? = some insn →
    Form.Passes flow.routine.owner (form q) insn (form (q + 1))
  nonempty : 0 < inserted.length

/-- What is expected in the trimmed routine: outside the range the same as before, in front of the
call what was expected at the start of the range. -/
inductive TrimmedAt (flow : Flow) (start stop : Nat) (seat : Nat → Nat) (entry length : Nat)
    (before : Frame) (form : Nat → Form) : Nat → Form → Prop where
  | kept {i j : Nat} {f : Frame} (keeps : flow.routine.Keeps start stop i)
    (frame : flow.frame? i = some (some f)) (seated : seat i = j) :
    TrimmedAt flow start stop seat entry length before form j (f.whole flow.routine.owner)
  | label {j : Nat} (low : seat start ≤ j) (high : j < entry) :
    TrimmedAt flow start stop seat entry length before form j (before.whole flow.routine.owner)
  | inserted {q j : Nat} (lt : q < length) (stands : entry + q = j) :
    TrimmedAt flow start stop seat entry length before form j (form q)

section Trimmed

variable {r t : Routine} {start stop entry i j : Nat} {inserted : List Instruction}
    {seat : Nat → Nat}

/-- Seats are in the order of the instructions, up to the range and from its end on. -/
theorem Trimmed.seat_le (ht : Trimmed r t start stop inserted seat entry) (hij : i ≤ j)
    (hside : j ≤ start ∨ stop ≤ i) (hj : j ≤ r.size) : seat i ≤ seat j := by
  induction hij with
  | refl => exact Nat.le_refl _
  | @step j hij ih =>
    change seat i ≤ seat (j + 1)
    have hstep : i ≤ j := hij
    have hout : j < start ∨ stop ≤ j := by omega
    have hle := ih (by omega) (by omega)
    have hlt : j < r.code.size := by
      unfold Routine.size at hj
      omega
    have hinsn := Array.getElem?_eq_getElem hlt
    by_cases hframe : r.code[j] = .frame
    · rw [hframe] at hinsn
      have := ht.frame j hout hinsn
      omega
    · have := (ht.code j _ hout hinsn hframe).2
      omega

theorem Trimmed.seat_lt (ht : Trimmed r t start stop inserted seat entry)
    (hkeeps : r.Keeps start stop i) (hij : i < j) (hside : j ≤ start ∨ stop ≤ i) (hj : j ≤ r.size) :
    seat i < seat j := by
  obtain ⟨hout, insn, hinsn, hframe⟩ := hkeeps
  have hsucc := (ht.code i insn hout hinsn hframe).2
  have hle := @Trimmed.seat_le r t start stop entry (i + 1) j inserted seat ht hij (by omega) hj
  omega

/-- Seats are taken once, and not among the inserted instructions. -/
theorem Trimmed.seat_side (ht : Trimmed r t start stop inserted seat entry)
    (hm : Movable r start stop) (hkeeps : r.Keeps start stop i) :
    (i < start ∧ seat i < seat start) ∨ (stop ≤ i ∧ entry + inserted.length ≤ seat i) := by
  have hlt := hm.lt
  have hle := hm.le_size
  obtain ⟨hout, insn, hinsn, -⟩ := id hkeeps
  have hsize : i < r.size := (Array.getElem?_eq_some_iff.1 hinsn).1
  rcases hout with hlow | hhigh
  · exact .inl ⟨hlow, ht.seat_lt hkeeps hlow (.inl (Nat.le_refl _)) (by omega)⟩
  · rw [← ht.seat_stop]
    exact .inr ⟨hhigh, ht.seat_le hhigh (.inr (Nat.le_refl _)) (by omega)⟩

theorem Trimmed.seat_inj (ht : Trimmed r t start stop inserted seat entry)
    (hm : Movable r start stop) (hi : r.Keeps start stop i) (hj : r.Keeps start stop j)
    (heq : seat i = seat j) : i = j := by
  have hsize {i : Nat} (hi : r.Keeps start stop i) : i ≤ r.size := by
    obtain ⟨-, insn, hinsn, -⟩ := hi
    exact Nat.le_of_lt (Array.getElem?_eq_some_iff.1 hinsn).1
  have hlt {i j : Nat} (hi : r.Keeps start stop i) (hj : r.Keeps start stop j) (hij : i < j) :
      seat i < seat j := by
    have hstart := ht.seat_start
    rcases ht.seat_side hm hi with ⟨hlow, _⟩ | ⟨hhigh, _⟩
    · rcases ht.seat_side hm hj with ⟨hlow', _⟩ | ⟨hhigh', _⟩
      · exact ht.seat_lt hi hij (.inl (Nat.le_of_lt hlow')) (hsize hj)
      · omega
    · exact ht.seat_lt hi hij (.inr hhigh) (hsize hj)
  rcases Nat.lt_trichotomy i j with hij | hij | hij
  · have := hlt hi hj hij
    omega
  · exact hij
  · have := hlt hj hi hij
    omega

end Trimmed

section Trimmed

variable {flow : Flow} (hp : flow.Proper) {c : Cut} {start stop floor first entry : Nat}
  {before exit : Frame} (hx : Crossing flow c start stop before exit floor)
  (hm : Movable flow.routine start stop) (hfirst : FirstReal flow.routine start stop first)
  {t : Routine} {inserted : List Instruction} {seat : Nat → Nat}
  (ht : Trimmed flow.routine t start stop inserted seat entry) {form : Nat → Form}
  (hfills : Fills flow stop before exit inserted form)

include ht in
theorem TrimmedAt.unique (hm : Movable flow.routine start stop) {j : Nat} {v w : Form}
    (hv : TrimmedAt flow start stop seat entry inserted.length before form j v)
    (hw : TrimmedAt flow start stop seat entry inserted.length before form j w) : v = w := by
  -- what is kept, the labels and the inserted code have seats apart
  have hstart := ht.seat_start
  cases hv with
  | @kept i _ f keeps frame seated =>
    have hside := ht.seat_side hm keeps
    cases hw with
    | @kept i' _ f' keeps' frame' seated' =>
      obtain rfl := ht.seat_inj hm keeps keeps' (seated.trans seated'.symm)
      rw [frame] at frame'
      obtain rfl := Option.some.inj (Option.some.inj frame')
      rfl
    | label low high => omega
    | inserted lt stands => omega
  | label low high =>
    cases hw with
    | @kept i _ f keeps frame seated =>
      have hside := ht.seat_side hm keeps
      omega
    | label _ _ => rfl
    | inserted lt stands => omega
  | @inserted q _ lt stands =>
    cases hw with
    | @kept i _ f keeps frame seated =>
      have hside := ht.seat_side hm keeps
      omega
    | label low high => omega
    | @inserted q' _ lt' stands' =>
      obtain rfl : q = q' := by omega
      rfl

include ht hfills

/-- A label in front of the call passes on what is expected. -/
theorem TrimmedAt.step_label {j : Nat} (hlow : seat start ≤ j) (hhigh : j < entry) {g : Frame}
    (hg : (before.whole flow.routine.owner).Fits flow.routine.owner g) :
    Flow.Moves flow.routine.owner t
      (TrimmedAt flow start stop seat entry inserted.length before form) j g := by
  obtain ⟨l, hl⟩ := ht.labels j hlow hhigh
  refine ⟨.label l, g, _, hl, rfl, rfl, fun _ => ?_, fun k hk => ?_, fun hreal => ?_⟩
  · rcases Nat.lt_or_eq_of_le hhigh with hlt | heq
    · exact ⟨_, .label (by omega) hlt, hg⟩
    · exact ⟨form 0, .inserted hfills.nonempty heq.symm, by rw [hfills.first]; exact hg⟩
  · cases hk
  · cases hreal

include hp hx hm

/-- Control that comes to an instruction outside the range, or to its start, finds what is
expected there. -/
theorem TrimmedAt.land {i : Nat} (hside : i ≤ start ∨ stop ≤ i) {f g : Frame}
    (hf : flow.frame? i = some (some f))
    (hg : (f.whole flow.routine.owner).Fits flow.routine.owner g) :
    Flow.Meets flow.routine.owner
      (TrimmedAt flow start stop seat entry inserted.length before form) (seat i) g := by
  have hlt := hm.lt
  obtain ⟨n, hn⟩ : ∃ n, n = flow.routine.size - i := ⟨_, rfl⟩
  induction n generalizing i f with
  | zero =>
    obtain ⟨insn, after, hinsn, -⟩ := hp.atRest hf
    have hsize : i < flow.routine.size := (Array.getElem?_eq_some_iff.1 hinsn).1
    omega
  | succ n ih =>
    by_cases hstart : i = start
    · subst hstart
      rw [hx.before_eq] at hf
      obtain rfl := Option.some.inj (Option.some.inj hf)
      rcases Nat.lt_or_eq_of_le ht.seat_start with hlow | heq
      · exact ⟨_, .label (Nat.le_refl _) hlow, hg⟩
      · exact ⟨form 0, .inserted hfills.nonempty heq.symm, by rw [hfills.first]; exact hg⟩
    have hout : i < start ∨ stop ≤ i := by omega
    obtain ⟨insn, after, hinsn, hrest⟩ := hp.atRest hf
    by_cases hframe : insn = .frame
    · -- a frame marker is left out, and what follows it expects no more
      subst hframe
      obtain ⟨f', hf', habsorbs⟩ := hrest.next (.inl rfl)
      obtain rfl := execute_marker rfl hrest.executed
      rw [← ht.frame i hout hinsn]
      exact ih (by omega) hf' (Frame.Absorbs.fits_whole habsorbs hg) (by omega)
    · exact ⟨_, .kept ⟨hout, insn, hinsn, hframe⟩ hf rfl, hg⟩

/-- An instruction outside the range passes on what is expected. -/
theorem TrimmedAt.step_kept (hplain : flow.routine.Subroutineless) {i : Nat}
    (hkeeps : flow.routine.Keeps start stop i) {f g : Frame}
    (hf : flow.frame? i = some (some f))
    (hg : (f.whole flow.routine.owner).Fits flow.routine.owner g) :
    Flow.Moves flow.routine.owner t
      (TrimmedAt flow start stop seat entry inserted.length before form) (seat i) g := by
  obtain ⟨insn, after, hinsn, hrest⟩ := hp.atRest hf
  obtain ⟨hout, insn', hinsn', hframe⟩ := id hkeeps
  obtain rfl := Option.some.inj (hinsn.symm.trans hinsn')
  obtain ⟨hcode, hsucc⟩ := ht.code i insn hout hinsn hframe
  obtain ⟨after', effect', hexec, hafter⟩ := hp.does hf hinsn hrest.executed hg (seat i)
  -- a step leads to the seat of the instruction it led to before, whatever the way
  refine ⟨insn, after', effect', hcode, hexec, (hplain insn (Array.mem_of_getElem? hinsn)).1,
    fun hfalls => ?_, fun k hk => ?_, fun hreal region' hregion' hcontains => ?_⟩
  · rw [Instruction.fallsThrough, Bool.or_eq_true] at hfalls
    obtain ⟨f', hf', habsorbs⟩ := hrest.next hfalls
    rw [← hsucc]
    exact TrimmedAt.land hp hx hm ht hfills (by omega) hf'
      (Frame.Absorbs.fits_whole habsorbs hafter)
  · obtain ⟨l, hl, hk⟩ := List.mem_filterMap.1 hk
    obtain ⟨k', hk', hout', hseat⟩ := ht.targets i insn hout hinsn l hl
    obtain ⟨k'', hk'', f', hf', habsorbs⟩ := hrest.target l hl
    obtain rfl := Option.some.inj (hk'.symm.trans hk'')
    obtain rfl := Option.some.inj (hk.symm.trans hseat)
    exact TrimmedAt.land hp hx hm ht hfills (by omega) hf'
      (Frame.Absorbs.fits_whole habsorbs hafter)
  · obtain ⟨region, hregion, hcorresponds⟩ := ht.exists_region hregion'
    rw [hcorresponds.contains i hkeeps] at hcontains
    obtain ⟨hout', hhandler⟩ := hcorresponds.handler (Region.isEmpty_of_contains hcontains)
    rw [hhandler, hcorresponds.caught_eq, hcorresponds.caught_eq]
    obtain ⟨f', hf', habsorbs⟩ := hrest.before hreal region hregion hcontains
    obtain ⟨f'', hf'', habsorbs'⟩ := hrest.after hreal region hregion hcontains
    exact ⟨TrimmedAt.land hp hx hm ht hfills (by omega) hf' (Frame.Absorbs.fits_whole habsorbs
        (Frame.fits_caught region (Frame.fits_whole_iff.1 hg).2)),
      TrimmedAt.land hp hx hm ht hfills (by omega) hf'' (Frame.Absorbs.fits_whole habsorbs'
        (Frame.fits_caught region (Frame.fits_whole_iff.1 hafter).2))⟩

include hfirst

/-- What is expected along the inserted code is enough for the handlers that protect it. -/
theorem TrimmedAt.land_handler {region region' : Region} (hregion : region ∈ flow.routine.regions)
    (hcorresponds : Region.Corresponds flow.routine start stop seat entry inserted.length region
      region') (hcontains : region.contains start) {q : Nat} {g : Frame}
    (hg : (form q).Fits flow.routine.owner g) :
    Flow.Meets flow.routine.owner
      (TrimmedAt flow start stop seat entry inserted.length before form) region'.handler
      (Flow.caught region' g) := by
  obtain ⟨hout, hhandler⟩ := hcorresponds.handler (Region.isEmpty_of_contains hcontains)
  obtain ⟨f, hf, hbefore, hstack⟩ := hx.handler_eases_before hp hm hfirst hregion hcontains
  have hexit := hx.handler_eases_exit hp hm hfirst hregion hcontains hf
  rw [hhandler, hcorresponds.caught_eq]
  exact TrimmedAt.land hp hx hm ht hfills (by omega) hf (Frame.fits_whole_iff.2 ⟨hstack g,
    fun slot => hg.slots slot _ (hfills.low q slot _ (hbefore slot) (hexit slot))⟩)

/-- An inserted instruction passes on what is expected. -/
theorem TrimmedAt.step_inserted {q : Nat} (hq : q < inserted.length) {g : Frame}
    (hg : (form q).Fits flow.routine.owner g) :
    Flow.Moves flow.routine.owner t
      (TrimmedAt flow start stop seat entry inserted.length before form) (entry + q) g := by
  have hinsn := List.getElem?_eq_getElem hq
  obtain ⟨hgoes, hdoes⟩ := hfills.passes q _ hinsn
  obtain ⟨after, effect, hexec, hafter⟩ := hdoes (entry + q) g hg
  refine ⟨_, after, effect, ht.stands q _ hinsn, hexec, hgoes.plain, fun _ => ?_, fun k hk => ?_,
    fun _ region' hregion' hcontains => ?_⟩
  · by_cases hlast : q + 1 < inserted.length
    · exact ⟨_, .inserted hlast (by omega), hafter⟩
    · obtain ⟨f, hf, hyields⟩ := hfills.last
      have hlength : inserted.length = q + 1 := by omega
      have hland := TrimmedAt.land hp hx hm ht hfills (.inr (Nat.le_refl _)) hf
        (hyields after (by rw [hlength]; exact hafter))
      rwa [ht.seat_stop, show entry + inserted.length = entry + q + 1 by omega] at hland
  · rw [Routine.targetOffsets, hgoes.targets] at hk
    cases hk
  · obtain ⟨region, hregion, hcorresponds⟩ := ht.exists_region hregion'
    rw [hcorresponds.inserted q hq] at hcontains
    exact ⟨TrimmedAt.land_handler hp hx hm hfirst ht hfills hregion hcorresponds hcontains hg,
      TrimmedAt.land_handler hp hx hm hfirst ht hfills hregion hcorresponds hcontains hafter⟩

/-- **The trimmed routine meets what is expected of it.** -/
theorem Trimmed.expects (hplain : flow.routine.Subroutineless) :
    Flow.Expects t (TrimmedAt flow start stop seat entry inserted.length before form) where
  unique := fun j v w hv hw => TrimmedAt.unique ht hm hv hw
  entry := by
    have hlt := hm.lt
    have hle := hm.le_size
    obtain ⟨f, hf, habsorbs⟩ := Flow.covers_entry hp.checked (by omega) hp.analyzed
    have hentry : Flow.entry t = Flow.entry flow.routine := by
      unfold Flow.entry Flow.receiver Routine.isStatic
      rw [ht.access, ht.signature, ht.name, ht.owner]
    have hland := TrimmedAt.land hp hx hm ht hfills (i := 0) (by omega) hf
      (Frame.Absorbs.fits_whole habsorbs (Flow.entry_fits _))
    rwa [ht.seat_zero, ← hentry, ← ht.owner] at hland
  step := fun j v f hv hf => by
    rw [ht.owner] at hf ⊢
    cases hv with
    | kept keeps frame seated =>
      subst seated
      exact TrimmedAt.step_kept hp hx hm ht hfills hplain keeps frame hf
    | label low high => exact TrimmedAt.step_label ht hfills low high hf
    | inserted lt stands =>
      subst stands
      exact TrimmedAt.step_inserted hp hx hm hfirst ht hfills lt hf

end Trimmed

section Fills

variable {flow : Flow} (hp : flow.Proper) {c : Cut} {start stop floor : Nat} {before exit : Frame}
  (hx : Crossing flow c start stop before exit floor) (hm : Movable flow.routine start stop)

include hp hx hm

/-- What a slot holds at the end of the range is what was restored to it. -/
theorem Crossing.exit_suits {g : Frame}
    (hg : ∀ k u, Form.restored flow.routine.owner (before.whole flow.routine.owner).asks
      c.written.toList k u → u.Suits flow.routine.owner (g.slot k)) (slot : Int) :
    (exit.slot slot).Suits flow.routine.owner (g.slot slot) := by
  cases hwritten : c.written.get? slot with
  | some u =>
    obtain ⟨rfl, -, -⟩ := hx.written_eq slot u hwritten
    refine hg slot _ ((Form.restored_of_mem c.written.nodup_keys
      ((SlotMap.mem_entries_iff c.written slot _).2 hwritten) _).2 (.refl _ _))
  | none =>
    by_cases hwrites : flow.Writes start stop slot
    · -- nothing usable was written
      obtain ⟨hinit, hdefinite⟩ := hx.writes slot hwrites
      refine JType.suits_of_holdsReferences ?_
      rw [JType.settled_of_isUninitialized hinit]
      cases hslot : exit.slot slot with
      | prim p => rfl
      | object name => rfl
      | array _ | null =>
        rw [hdefinite (by rw [hslot]; rfl)] at hwritten
        cases hwritten
      | _ => rfl
    · refine hg slot _ ((Form.restored_of_notMem ?_ _).2
        ⟨slot, trivial, rfl, (hx.spared_exit hp hm).slots slot hwrites⟩)
      rintro e he rfl
      rw [(SlotMap.mem_entries_iff c.written e.1 e.2).1 he] at hwritten
      cases hwritten

/-- **The code that takes the place of the range does what is expected of it.** -/
theorem Crossing.exists_fills (x : Routine)
    (hparse : Signature.parse x.descriptor = .ok ⟨c.arguments.map JType.passed, .objectArray⟩) :
    ∃ form, Fills flow stop before exit (c.inserted x) form := by
  -- the consumed values are the upper part of the stack at the start
  have hbefore : Form.topped (before.stack.drop (before.depth - floor))
      (before.whole flow.routine.owner).asks c.consumed.reverse =
      before.whole flow.routine.owner := by
    unfold Form.topped Frame.whole Frame.form
    rw [← hx.take_before hp, List.take_append_drop, Nat.sub_zero, Frame.depth, List.take_length]
  have hmeets (k : Int) (t : JType) (h : t.Eases flow.routine.owner (before.slot k) ∧
      t.Eases flow.routine.owner (exit.slot k)) : (before.whole flow.routine.owner).asks k t :=
    ⟨k, trivial, rfl, h.1⟩
  have hread (e : Int × JType) (he : e ∈ c.read.toList) : e.2.isDefinite ∧
      (before.whole flow.routine.owner).asks e.1 e.2 := by
    obtain ⟨heq, hdefinite⟩ := hx.read_eq e.1 e.2 ((SlotMap.mem_entries_iff c.read e.1 e.2).1 he)
    exact ⟨hdefinite, e.1, trivial, rfl, by rw [heq]; exact .refl _ _⟩
  have hwritten (e : Int × JType) (he : e ∈ c.written.toList) : e.2 = exit.slot e.1 ∧
      e.2.isDefinite := by
    obtain ⟨heq, hdefinite, -⟩ := hx.written_eq e.1 e.2
      ((SlotMap.mem_entries_iff c.written e.1 e.2).1 he)
    exact ⟨heq, hdefinite⟩
  have hruns := (@Form.runs_call flow.routine.owner _
    (before.stack.drop (before.depth - floor)) _ c x hparse hx.consumed_isDefinite hread
    hmeets).append (Form.runs_unpack c hx.produced_isDefinite (fun e he => (hwritten e he).2) hmeets
      fun e he u hu => by rw [(hwritten e he).1]; exact hu.2)
  rw [hbefore] at hruns
  obtain ⟨form, hfirst, hlast, hlow, hpasses⟩ := hruns.exists_forms
  -- the frame after the range is the one the unpacking leaves, up to what is known of the slots
  refine ⟨form, hfirst, ?_, fun q k t h h' => hlow q k t ⟨h, h'⟩, hpasses, ?_⟩
  · obtain ⟨f, insn, -, -, hfalls, hrest⟩ := hx.exists_last hp hm
    rw [Instruction.fallsThrough, Bool.or_eq_true] at hfalls
    obtain ⟨f', hf', habsorbs⟩ := hrest.next hfalls
    have hlt := hm.lt
    rw [show stop - 1 + 1 = stop by omega] at hf'
    refine ⟨f', hf', fun g hg => Frame.Absorbs.fits_whole habsorbs (Frame.fits_whole_iff.2 ⟨?_,
      hx.exit_suits hp hm (hlast g hg).slots⟩)⟩
    refine (hlast g hg).stack.ease ?_
    rw [← List.take_append_drop (exit.depth - floor) exit.stack]
    unfold Form.topped
    rw [hx.take_exit hp hm]
    exact List.rel_append (List.forall₂_same.2 fun t _ => .refl _ t) (hx.spared_exit hp hm).base
  · rw [Cut.inserted, Outline.call, List.length_append, List.length_append, List.length_singleton]
    omega

end Fills

end Outliner
