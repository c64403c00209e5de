import Mathlib.Order.Bounds.Basic
import Outliner.Proofs.Closure

/-!
# The farthest end of a range

`Boundary.fit` shortens a range for one reason after the other until no reason is left. What is left
can be moved (`Boundary.Fixed.movable`). Here it is shown that nothing is lost on the way:
`Boundary.fit` finds the greatest end that a range from the given start can have
(`Boundary.fit_isGreatest`).

`Routine.Extractable` says in terms of the routine when a range can be moved. The argument goes
through `Boundary.Fixed`, which says the same in terms of what a boundary records:

* a range is fixed exactly if it can be moved (`Movable.fixed`, `Boundary.Fixed.movable`);
* no reason ever cuts into a fixed range (`Boundary.le_tighten`). Each reason is judged against
  an end that lies too far, and is still a reason against every end between: a jump that leaves the
  longer range leaves the shorter one, and one that enters the shorter range from outside the longer
  one enters it from outside;
* so no pass does, and neither does the search as a whole (`Boundary.le_fit`).
-/

namespace Outliner

/-- Every operation of the routine has the form of its opcode, and the opcode has a name. -/
def Routine.InForm (r : Routine) : Prop :=
  ∀ insn ∈ r.code, insn.isPosition = false →
    insn.opcode.mnemonic?.isSome ∧ insn.carries insn.opcode.form

theorem Routine.Canonical.inForm {r : Routine} (h : r.Canonical) : r.InForm :=
  fun insn hinsn hpos => Instruction.carries_of_isCanonical (h insn hinsn) hpos

/-- **The instructions from `start` to `stop` can be moved into a routine of their own.** -/
structure Routine.Extractable (r : Routine) (start stop : Nat) : Prop where
  /-- None of them returns, calls a subroutine or comes back from one. -/
  stays : ∀ i insn, start ≤ i → i ≤ stop → r.code[i]? = some insn →
    insn.opcode.isReturn = false ∧ insn.opcode.isSubroutineCall = false ∧ insn.opcode ≠ .ret
  /-- Their jumps land among them, and no other jump does. -/
  jumps : r.ClosedUnderJumps start (stop + 1)
  /-- No handler of a block that is not empty is among them. -/
  handler : ∀ region ∈ r.regions, region.start < region.stop →
    region.handler < start ∨ stop < region.handler
  /-- A block with the first of them has them all. -/
  inside : ∀ region ∈ r.regions, region.start < region.stop → region.contains start →
    ∀ i, start ≤ i → i ≤ stop → region.contains i
  /-- No other block that is not empty starts among them. -/
  starts : ∀ region ∈ r.regions, region.start < region.stop →
    ¬ (start < region.start ∧ region.start ≤ stop)
  /-- Control goes on after the last of them. -/
  falls : ∀ insn, r.code[stop]? = some insn → insn.isPosition ∨ insn.opcode.fallsThrough

/-! ### No reason cuts into a fixed range -/

namespace Boundary

variable {b : Boundary} {start e stop : Int}

theorem le_limitBy {region : Region} (h : limitBy start region e = e) (hle : e ≤ stop) :
    e ≤ limitBy start region stop := by
  unfold limitBy at h ⊢
  grind

theorem le_respectRegions (h : b.Fixed start e) (hle : e ≤ stop) :
    e ≤ b.respectRegions start stop := by
  rw [respectRegions_eq]
  have hregions := h.regions
  clear h
  generalize b.regions = regions at hregions ⊢
  induction regions generalizing stop with
  | nil => exact hle
  | cons region regions ih =>
    exact ih (le_limitBy (hregions region List.mem_cons_self) hle)
      fun region' hmem => hregions region' (List.mem_cons_of_mem _ hmem)

/-- Control that stays in a range stays in a longer one. -/
theorem staysWithin_mono {x : Exit} (h : x.staysWithin start e) (hle : e ≤ stop) :
    x.staysWithin start stop := by
  unfold Exit.staysWithin at h ⊢
  split at h
  · cases h
  · simp only [List.all_eq_true, Bool.and_eq_true, decide_eq_true_eq] at h ⊢
    exact fun t ht => ⟨(h t ht).1, Int.le_trans (h t ht).2 hle⟩

theorem le_containExits (h : b.Fixed start e) (hle : e ≤ stop) : e ≤ b.containExits start stop := by
  unfold containExits
  split
  · next x hx =>
    have hmem := List.mem_of_find?_eq_some hx
    have hleaves := List.find?_some hx
    simp only [Bool.and_eq_true, Bool.not_eq_true', decide_eq_true_eq] at hleaves
    obtain ⟨⟨hlow, -⟩, hleaves⟩ := hleaves
    -- the exit found leaves the longer range, so it cannot be in the fixed one
    refine Int.le_sub_one_of_lt (Int.lt_of_not_ge fun hge => ?_)
    rw [staysWithin_mono (h.exits x hmem hlow hge) hle] at hleaves
    cases hleaves
  · exact hle

theorem le_foldl_min {edges : List Edge} (hle : e ≤ stop) (h : ∀ x ∈ edges, e < x.target) :
    e ≤ edges.foldl (fun last x => min last ((x.target : Int) - 1)) stop := by
  induction edges generalizing stop with
  | nil => exact hle
  | cons x edges ih =>
    have hx := h x List.mem_cons_self
    exact ih (by dsimp only; omega) fun y hy => h y (List.mem_cons_of_mem _ hy)

theorem le_stopAtEntries (h : b.Fixed start e) (hle : e ≤ stop) :
    e ≤ b.stopAtEntries start stop := by
  refine le_foldl_min hle fun x hx => Int.lt_of_not_ge fun hge => ?_
  obtain ⟨hmem, hout⟩ := List.mem_filter.1 hx
  simp only [Bool.and_eq_true, Bool.or_eq_true, decide_eq_true_eq] at hout
  obtain ⟨⟨hlow, -⟩, hout⟩ := hout
  have := h.entries x hmem hlow hge
  omega

theorem le_lastFallThrough (hfalls : (b.code.getD e.toNat .frame).fallsThrough) {count : Nat}
    (hlow : start ≤ e) (hlt : e < start + count) : e ≤ b.lastFallThrough start count := by
  induction count with
  | zero => omega
  | succ count ih =>
    unfold lastFallThrough
    split
    · omega
    · next hnot =>
      have hne : e ≠ start + count := by
        rintro rfl
        exact hnot hfalls
      exact ih (by omega)

theorem le_endOnFallThrough (h : b.Fixed start e) (hlow : start ≤ e) (hle : e ≤ stop) :
    e ≤ b.endOnFallThrough start stop := by
  unfold endOnFallThrough
  rw [if_pos (by omega)]
  exact le_lastFallThrough h.falls hlow (by omega)

theorem le_tighten (h : b.Fixed start e) (hlow : start ≤ e) (hle : e ≤ stop) :
    e ≤ b.tighten start stop :=
  le_endOnFallThrough h hlow (le_stopAtEntries h (le_containExits h (le_respectRegions h hle)))

/-- **Fitting loses no range** that nothing shortens. -/
theorem le_fit (h : b.Fixed start e) (hlow : start ≤ e) (hle : e ≤ stop) :
    e ≤ b.fit start stop := by
  fun_induction fit b start stop with
  | case1 stop hle' next hlt ih => exact ih (le_tighten h hlow hle)
  | case2 stop hle' next hge => exact le_tighten h hlow hle
  | case3 stop hgt => exact hle

/-- **The search ends on a fixed range**, or before the start. -/
theorem fixed_fit (h : start ≤ b.fit start stop) : b.Fixed start (b.fit start stop) :=
  fixed_of_tighten_eq h ((b.fit_spec start stop).2 h)

end Boundary

/-! ### Ranges that are fixed are those that can be moved -/

namespace Opcode

theorem flow_eq_leave_iff {op : Opcode} : op.flow = .leave ↔ op.isReturn := by
  cases op <;> simp [flow, isReturn]

theorem flow_eq_subroutine_iff {op : Opcode} : op.flow = .subroutine ↔ op = .jsr ∨ op = .ret := by
  cases op <;> simp [flow]

end Opcode

/-- Nothing shortens a range that can be moved. -/
theorem Movable.fixed {r : Routine} {start stop : Nat} (h : Movable r start stop) :
    (Boundary.ofRoutine r).Fixed start (stop - 1 : Nat) := by
  have hlt := h.lt
  refine ⟨fun region hregion => ?_, fun x hx hlow hhigh => ?_, fun x hx hlow hhigh => ?_, ?_⟩
  · obtain ⟨hmem, hne⟩ := List.mem_filter.1 hregion
    have hne : region.isEmpty = false := by simpa using hne
    have hhandler := h.handler region hmem hne
    have hinside := h.inside region hmem hne
    have hstart := h.start_le region hmem hne
    simp only [Region.contains, Bool.and_eq_true, decide_eq_true_eq] at hinside
    unfold Boundary.limitBy
    grind
  · -- exits: returns and subroutines do not occur, and jumps stay in the range
    obtain ⟨⟨insn, i⟩, hp, hexit⟩ := List.mem_filterMap.1 hx
    have hi : r.code[i]? = some insn := by
      simpa using List.mem_zipIdx_iff_getElem?.1 hp
    have hoffset := Boundary.exitAt_offset hexit
    dsimp only at hexit hoffset
    rw [hoffset] at hlow hhigh
    unfold Boundary.exitAt at hexit
    split at hexit
    · cases hexit
    next hreal =>
    obtain ⟨hleave, hsub, hstays⟩ :=
      h.stays i insn (by omega) (by omega) hi (Bool.eq_false_iff.2 hreal)
    split at hexit
    · next hbranch =>
      split at hexit
      · next hflow => exact absurd hflow hsub
      · obtain rfl := Option.some.inj hexit
        refine List.all_eq_true.2 fun t ht => ?_
        have := hstays hbranch t ht
        simp only [Bool.and_eq_true, decide_eq_true_eq]
        omega
    · split at hexit
      · next hflow => exact absurd hflow hleave
      · next hflow => exact absurd hflow hsub
      · cases hexit
  · -- edges: what leads into the range comes from inside
    obtain ⟨⟨insn, i⟩, hp, hedge⟩ := List.mem_flatMap.1 hx
    have hi : r.code[i]? = some insn := by
      simpa using List.mem_zipIdx_iff_getElem?.1 hp
    unfold Boundary.edgesAt at hedge
    split at hedge
    · next hjumps =>
      simp only [Bool.and_eq_true, Bool.not_eq_true'] at hjumps
      obtain ⟨t, ht, rfl⟩ := List.mem_map.1 hedge
      refine Decidable.byContradiction fun hout => ?_
      have := h.enters i insn (by dsimp only at hout; omega) hi hjumps.1 hjumps.2 t ht
      dsimp only at hlow hhigh
      omega
    · cases hedge
  · have hlast : stop - 1 < r.code.size := by
      have := h.le_size
      unfold Routine.size at this
      omega
    have hfalls := h.falls _ (Array.getElem?_eq_getElem hlast)
    change (r.code.getD (stop - 1) .frame).fallsThrough = true
    rwa [Array.getD_eq_getD_getElem?, Array.getElem?_eq_getElem hlast]

namespace Routine

variable {r : Routine} {start stop : Nat}

/-- An operation in the form of its opcode is no marker. -/
theorem InForm.isMarker_eq_false (h : r.InForm) {insn : Instruction} (hinsn : insn ∈ r.code)
    (hpos : insn.isPosition = false) : insn.isMarker = false := by
  have hnamed := (h insn hinsn hpos).1
  unfold Instruction.isMarker
  split
  · next hmarker =>
    rw [hmarker] at hnamed
    cases hnamed
  · rfl

theorem InForm.jumpsByName (h : r.InForm) : r.JumpsByName := fun _ _ hmem =>
  (Instruction.isBranch_of_carries (h _ hmem rfl).2 (List.mem_singleton.2 rfl)).2

/-- What can be moved in terms of the routine can be moved in terms of its opcodes. -/
theorem Extractable.movable (h : r.Extractable start stop) (hle : start ≤ stop)
    (hlt : stop < r.size) : Movable r start (stop + 1) where
  lt := Nat.lt_succ_of_le hle
  le_size := hlt
  handler region hmem hne := by
    have := h.handler region hmem (by simpa [Region.isEmpty] using hne)
    omega
  inside region hmem hne hin := by
    have := h.inside region hmem (by simpa [Region.isEmpty] using hne) hin stop hle (Nat.le_refl _)
    simp only [Region.contains, Bool.and_eq_true, decide_eq_true_eq] at this
    omega
  start_le region hmem hne := by
    have := h.starts region hmem (by simpa [Region.isEmpty] using hne)
    omega
  stays i insn hlow hhigh hi hmarker := by
    obtain ⟨hreturn, hcall, hret⟩ := h.stays i insn hlow (Nat.le_of_lt_succ hhigh) hi
    -- in canonical code, what leaves a routine or calls a subroutine is told by its opcode
    refine ⟨fun hleave => ?_, fun hsub => ?_, fun _ t ht => ?_⟩
    · rw [Opcode.flow_eq_leave_iff.1 hleave] at hreturn
      cases hreturn
    · rcases Opcode.flow_eq_subroutine_iff.1 hsub with hjsr | hret'
      · rw [hjsr] at hcall
        cases hcall
      · exact hret hret'
    · obtain ⟨l, hl, hoffset⟩ := List.mem_filterMap.1 ht
      obtain ⟨k, hk, hbounds⟩ := h.jumps.inside i insn hlow hhigh hi l hl
      rw [hoffset] at hk
      rwa [Option.some.inj hk]
  enters i insn hside hi _ _ t ht := by
    obtain ⟨l, hl, hoffset⟩ := List.mem_filterMap.1 ht
    obtain ⟨k, hk, hbounds⟩ := h.jumps.outside i insn hside hi l hl
    rw [hoffset] at hk
    rwa [Option.some.inj hk]
  falls insn hi := by
    unfold Instruction.fallsThrough
    rcases h.falls insn hi with hpos | hfalls
    · cases insn <;> first | rfl | cases hpos
    · rw [hfalls, Bool.or_true]

/-- What can be moved in terms of its opcodes can be moved in terms of the routine. -/
theorem extractable_of_movable (hchecked : r.Checked) (hform : r.InForm)
    (h : Movable r start (stop + 1)) : r.Extractable start stop where
  stays i insn hlow hhigh hi := by
    cases hpos : insn.isPosition with
    | true => cases insn <;> first | exact ⟨rfl, rfl, nofun⟩ | cases hpos
    | false =>
      have hmem := Array.mem_of_getElem? hi
      obtain ⟨hleave, hsub, -⟩ := h.stays i insn hlow (Nat.lt_succ_of_le hhigh) hi
        (hform.isMarker_eq_false hmem hpos)
      refine ⟨Bool.eq_false_iff.2 fun hreturn => hleave (Opcode.flow_eq_leave_iff.2 hreturn), ?_,
        fun hret => hsub (Opcode.flow_eq_subroutine_iff.2 (.inr hret))⟩
      refine Bool.eq_false_iff.2 fun hcall => ?_
      -- the wide call has no name, and the other one is known as such
      have hnamed := (hform insn hmem hpos).1
      unfold Opcode.isSubroutineCall at hcall
      split at hcall
      · next hjsr => exact hsub (Opcode.flow_eq_subroutine_iff.2 (.inl hjsr))
      · next hwide =>
        rw [hwide] at hnamed
        cases hnamed
      · cases hcall
  jumps := h.closedUnderJumps hchecked hform.jumpsByName
  handler region hmem hne := by
    have := h.handler region hmem (by simpa [Region.isEmpty] using hne)
    omega
  inside region hmem hne hin i hlow hhigh := by
    have := h.inside region hmem (by simpa [Region.isEmpty] using hne) hin
    simp only [Region.contains, Bool.and_eq_true, decide_eq_true_eq] at hin ⊢
    omega
  starts region hmem hne := by
    have := h.start_le region hmem (by simpa [Region.isEmpty] using hne)
    omega
  falls insn hi := by
    cases hpos : insn.isPosition with
    | true => exact .inl rfl
    | false =>
      have hfalls := h.falls insn hi
      unfold Instruction.fallsThrough at hfalls
      rw [hform.isMarker_eq_false (Array.mem_of_getElem? hi) hpos, Bool.false_or] at hfalls
      exact .inr hfalls

end Routine

/-- **The search finds the greatest end of a range that can be moved.** If a range from `start` on
can be moved that ends at `stop` or before, the search from `stop` on gives the greatest end of such
a range, and otherwise it ends before the start. -/
theorem Boundary.fit_isGreatest {r : Routine} (hmade : r.Made) (hform : r.InForm) {start stop : Nat}
    (hlt : stop < r.size) :
    ((∃ e, start ≤ e ∧ e ≤ stop ∧ r.Extractable start e) →
      ∃ e : Nat, (ofRoutine r).fit start stop = e ∧
        IsGreatest {e | start ≤ e ∧ e ≤ stop ∧ r.Extractable start e} e) ∧
    ((¬ ∃ e, start ≤ e ∧ e ≤ stop ∧ r.Extractable start e) →
      (ofRoutine r).fit start stop < start) := by
  have hchecked := hmade.checked
  -- soundness: where the search ends is an end
  have hsound : ∀ e : Nat, (ofRoutine r).fit start stop = e → start ≤ e →
      e ≤ stop ∧ r.Extractable start e := by
    intro e he hstart
    have hend : e ≤ stop := by
      have := ((ofRoutine r).fit_spec start stop).1
      omega
    have hfixed : (ofRoutine r).Fixed start ((ofRoutine r).fit start stop) :=
      fixed_fit (by omega)
    rw [he] at hfixed
    have hmovable : Movable r start (e + 1) := hfixed.movable (by omega) (by omega)
    exact ⟨hend, Routine.extractable_of_movable hchecked hform hmovable⟩
  -- maximality: no end lies beyond it
  have hmax : ∀ e : Nat, start ≤ e → e ≤ stop → r.Extractable start e →
      (e : Int) ≤ (ofRoutine r).fit start stop := by
    intro e hstart hend h
    exact le_fit (h.movable hstart (by omega)).fixed (by omega) (by omega)
  constructor
  · rintro ⟨e, hstart, hend, h⟩
    have hfar := hmax e hstart hend h
    obtain ⟨k, hk⟩ : ∃ k : Nat, (ofRoutine r).fit start stop = k :=
      ⟨((ofRoutine r).fit start stop).toNat, by omega⟩
    obtain ⟨hkend, hkext⟩ := hsound k hk (by omega)
    refine ⟨k, hk, ⟨by omega, hkend, hkext⟩, ?_⟩
    rintro e' ⟨hstart', hend', h'⟩
    have := hmax e' hstart' hend' h'
    omega
  · intro hnone
    by_contra hstart
    obtain ⟨k, hk⟩ : ∃ k : Nat, (ofRoutine r).fit start stop = k :=
      ⟨((ofRoutine r).fit start stop).toNat, by omega⟩
    obtain ⟨hkend, hkext⟩ := hsound k hk (by omega)
    exact hnone ⟨k, by omega, hkend, hkext⟩

/-- In `Flow.countdown`, a range from the decrement on ends before the jump back to the head of the
loop, and the return at the end cannot be moved at all. -/
theorem Boundary.fit_isGreatest_countdown :
    ∃ r, Routine.make Flow.countdown = .ok r ∧
      IsGreatest {e | 1 ≤ e ∧ e ≤ 8 ∧ r.Extractable 1 e} 2 ∧
      ¬ ∃ e, 8 ≤ e ∧ e ≤ 8 ∧ r.Extractable 8 e := by
  have hrun : (Routine.make Flow.countdown).toOption.any fun r =>
      r.code.all Instruction.isCanonical && decide (8 < r.size) &&
        decide ((ofRoutine r).fit (1 : Nat) (8 : Nat) = (2 : Nat)) &&
        decide ((ofRoutine r).fit (8 : Nat) (8 : Nat) < (8 : Nat)) := by
    decide +kernel
  obtain ⟨r, hr, hrun⟩ := exists_ok_of_any hrun
  rw [Bool.and_eq_true, Bool.and_eq_true, Bool.and_eq_true, decide_eq_true_iff, decide_eq_true_iff,
    decide_eq_true_iff, Array.all_eq_true'] at hrun
  obtain ⟨⟨⟨hcanonical, hlt⟩, hloop⟩, hend⟩ := hrun
  have hform := Routine.Canonical.inForm hcanonical
  obtain ⟨hfound, hmissing⟩ := @Boundary.fit_isGreatest r ⟨_, hr⟩ hform 1 8 hlt
  refine ⟨r, hr, ?_, fun hex => ?_⟩
  · have hex : ∃ e, 1 ≤ e ∧ e ≤ 8 ∧ r.Extractable 1 e := by
      by_contra hnone
      have := hmissing hnone
      omega
    obtain ⟨e, he, hgreatest⟩ := hfound hex
    rwa [Int.ofNat_inj.1 (hloop.symm.trans he)]
  · obtain ⟨e, he, ⟨hstart, -⟩, -⟩ :=
      (@Boundary.fit_isGreatest r ⟨_, hr⟩ hform 8 8 hlt).1 hex
    omega

end Outliner
