import Outliner.Proofs.Rework
import Outliner.Proofs.Sparing

/-!
# Where objects that are not initialized come from

The type of an object whose constructor has not been run names the instruction that created it. This
module follows such types through a data flow, to say which constructors a movable range can run.

A frame that comes before the range has been entered names no instruction of the range, and so the
frame at its start names none (`Crossing.clean_before`). Inside, what lies above the floor is made
in the range, because the range is not given such objects (`Crossing.homemade`). Hence a constructor
that is run inside the range does not change what came in.
-/

namespace Outliner

/-- The type of an object created by an instruction of a range and not initialized yet. -/
def JType.MadeIn (start stop : Nat) (t : JType) : Prop :=
  ∃ name site, t = .uninitialized name site ∧ (start : Int) ≤ site ∧ site < stop

theorem JType.MadeIn.isUninitialized {start stop : Nat} {t : JType} (h : t.MadeIn start stop) :
    t.isUninitialized := by
  obtain ⟨name, site, rfl, -⟩ := h
  rfl

/-- Nothing but the type itself absorbs the type of an object that is not initialized, unless it is
unusable. -/
theorem JType.eq_of_absorbs {t u : JType} (h : t.Absorbs .flat u) (ht : t.isUninitialized) :
    t = u := by
  rcases JType.absorbs_flat_iff.1 h with h | rfl | ⟨rfl, -⟩ | ⟨hmergeable, -⟩
  · exact h
  · cases ht
  · cases ht
  · cases t <;> first | cases ht; done | cases hmergeable

/-- A cell of a value that holds an object which is not initialized is the whole value. -/
theorem Frame.eq_of_mem_cellsOf {t u : JType} (ht : t ∈ cellsOf u) (hu : t.isUninitialized) :
    t = u := by
  unfold cellsOf at ht
  split at ht
  · rcases List.mem_cons.1 ht with rfl | ht
    · cases hu
    · exact List.mem_singleton.1 ht
  · exact List.mem_singleton.1 ht

theorem Signature.isUninitialized_args {text : String} {s : Signature}
    (h : Signature.parse text = .ok s) {t : JType} (ht : t ∈ s.args) :
    t.isUninitialized = false := by
  obtain ⟨m, -, rfl⟩ := Signature.parse_eq_ok.1 h
  obtain ⟨field, -, rfl⟩ := List.mem_map.1 ht
  cases field <;> rfl

namespace Tracker

variable {owner : String} {offset : Int} {insn : Instruction} {f after : Frame} {e : Effect}

/-- Where a slot gets the type of an object that is not initialized: it had it, or it comes from one
of the cells taken off. -/
theorem Does.slot (h : Does owner offset insn f after e) {slot : Int}
    (hu : (after.slot slot).isUninitialized) :
    (after.slot slot = f.slot slot ∧ (after.slot slot).isUninitialized) ∨
      after.slot slot ∈ f.stack.take e.pops := by
  cases h with
  | @stack s' _ _ reads writes le pops reworks =>
    rcases reworks.slot slot with hslot | ⟨name, site, -, -, hslot⟩
    · exact .inl ⟨hslot, hu⟩
    · rw [hslot, initialized, JType.isUninitialized_ofClassName] at hu
      cases hu
  | load insn_eq holds pops reads writes => exact .inl ⟨rfl, hu⟩
  | @store kind index t ts _ insn_eq holds stack pops reads writes =>
    -- the stored value comes from the top of the stack, and a cleared slot holds no object
    rcases Frame.slot_setSlot_or ⟨ts, f.locals⟩ index t slot with hslot | hslot
    · rw [hslot] at hu ⊢
      split at hu
      · rw [if_pos ‹_›]
        right
        have hlength := SlotKind.length_cellsOf holds
        rw [stack, pops, ← hlength, List.take_left]
        unfold Frame.cellsOf
        split <;> simp
      · rw [if_neg ‹_›]
        exact .inl ⟨rfl, hu⟩
    · rw [hslot] at hu
      cases hu
  | @increment index amount _ insn_eq holds pops reads writes =>
    rcases Frame.slot_setSlot_or f index .int slot with hslot | hslot
    · rw [hslot] at hu ⊢
      split at hu
      · cases hu
      · rw [if_neg ‹_›]
        exact .inl ⟨rfl, hu⟩
    · rw [hslot] at hu
      cases hu
  | ret insn_eq pops reads writes => exact .inl ⟨rfl, hu⟩

/-- Where a cell above a floor gets the type of an object that is not initialized: from a cell that
was above it, from the instruction, or from a slot that is read. -/
theorem Does.cell (h : Does owner offset insn f after e) {floor : Nat}
    (hfloor : floor ≤ f.depth - e.pops) (hle : floor ≤ f.depth) {t : JType}
    (ht : t ∈ after.stack.take (after.depth - floor)) (hu : t.isUninitialized) :
    t ∈ f.stack.take (f.depth - floor) ∨ (∃ name, t = .uninitialized name offset) ∨
      ∃ a ∈ e.reads, t = f.slot a.slot := by
  cases h with
  | @stack s' _ _ reads writes le pops reworks =>
    exact (reworks.known (by omega) ht hu).imp_right .inl
  | @load kind index _ insn_eq holds pops reads writes =>
    have hdepth : Frame.depth ⟨Frame.cellsOf (f.slot index) ++ f.stack, f.locals⟩ - floor =
        (Frame.cellsOf (f.slot index)).length + (f.depth - floor) := by
      simp only [Frame.depth, List.length_append] at hle ⊢
      omega
    rw [hdepth, List.take_length_add_append] at ht
    -- what is loaded has been read from its slot, all else lay on the stack before
    rcases List.mem_append.1 ht with ht | ht
    · exact .inr (.inr ⟨⟨index, kind.size⟩, by rw [reads]; exact List.mem_singleton_self _,
        Frame.eq_of_mem_cellsOf ht hu⟩)
    · exact .inl ht
  | @store kind index u ts _ insn_eq holds stack pops reads writes =>
    left
    have hdepth : f.depth - floor = (Frame.cellsOf u).length + (ts.length - floor) := by
      have hlength := SlotKind.length_cellsOf holds
      rw [Frame.depth, stack, List.length_append] at hfloor ⊢
      omega
    rw [hdepth, stack, List.take_length_add_append]
    exact List.mem_append_right _ ht
  | increment insn_eq holds pops reads writes => exact .inl ht
  | ret insn_eq pops reads writes => exact .inl ht

end Tracker

/-- What the tracker does at an instruction of a verified data flow. -/
theorem Flow.Proper.tracks {flow : Flow} (hp : flow.Proper) {i : Nat} {f after : Frame}
    {insn : Instruction} (hf : flow.frame? i = some (some f))
    (hinsn : flow.routine.code[i]? = some insn) (hrest : flow.AtRest i f insn after) :
    Tracker.Does flow.routine.owner i insn f after (flow.effect i) :=
  Tracker.does_of_execute (hp.canonical insn (Array.mem_of_getElem? hinsn))
    (hp.verified i f insn hf hinsn).1 hrest.executed

/-- What a handler finds on the stack is initialized. -/
theorem Flow.isUninitialized_caught (region : Region) (f : Frame) {t : JType}
    (ht : t ∈ (caught region f).stack) : t.isUninitialized = false := by
  have hstack : (caught region f).stack =
      Frame.cellsOf (if region.type.isEmpty then .throwable else .ofClassName region.type) ++ [] :=
    rfl
  have hsize :
      (if region.type.isEmpty then JType.throwable else .ofClassName region.type).size ≠ 2 := by
    split
    · decide
    · rw [JType.size_of_isReference (JType.isReference_ofClassName _)]
      decide
  rw [hstack, List.append_nil, Frame.cellsOf, if_neg hsize] at ht
  obtain rfl := List.mem_singleton.1 ht
  split
  · rfl
  · exact JType.isUninitialized_ofClassName _

/-- What an argument slot of a routine holds on entry. -/
theorem Flow.slot_setArguments_or (f : Frame) (n : Nat) (params : List JType) (slot : Int) :
    (setArguments f n params).slot slot = f.slot slot ∨
      (setArguments f n params).slot slot = .top ∨
      ∃ t ∈ params, (setArguments f n params).slot slot = t.computational := by
  induction params generalizing f n with
  | nil => exact .inl rfl
  | cons t params ih =>
    rcases ih (f.setSlot n t.computational) (n + t.size) with hslot | hslot | ⟨u, hu, hslot⟩
    · rcases Frame.slot_setSlot_or f n t.computational slot with hset | hset
      · split at hset
        · exact .inr (.inr ⟨t, List.mem_cons_self, hslot.trans hset⟩)
        · exact .inl (hslot.trans hset)
      · exact .inr (.inl (hslot.trans hset))
    · exact .inr (.inl hslot)
    · exact .inr (.inr ⟨u, List.mem_cons_of_mem _ hu, hslot⟩)

/-- On entry only the receiver of a constructor is not initialized. -/
theorem Flow.not_made_entry {r : Routine} (hr : r.Checked) (start stop : Nat) (slot : Int) :
    ¬ ((entry r).slot slot).MadeIn start stop := by
  rintro ⟨name, site, hslot, hlow, -⟩
  rw [entry_eq] at hslot
  rcases slot_setArguments_or .empty 0 r.parameters slot with h | h | ⟨t, ht, h⟩
  · cases h.symm.trans hslot
  · cases h.symm.trans hslot
  · have heq := h.symm.trans hslot
    rcases List.mem_append.1 ht with ht | ht
    · split at ht
      · cases ht
      · obtain rfl := List.mem_singleton.1 ht
        rw [JType.computational_of_isReference (receiver_isReference r)] at heq
        unfold receiver at heq
        split at heq
        · cases heq
          omega
        · have := JType.isUninitialized_ofClassName r.owner
          rw [heq] at this
          cases this
    · have := JType.isUninitialized_computational (Signature.isUninitialized_args hr.signature ht)
      rw [heq] at this
      cases this

/-! ### Frames -/

/-- A frame names no instruction of a range. -/
structure Frame.Clean (start stop : Nat) (f : Frame) : Prop where
  stack : ∀ t ∈ f.stack, ¬ t.MadeIn start stop
  slots : ∀ slot, ¬ (f.slot slot).MadeIn start stop

namespace Frame.Clean

variable {start stop : Nat} {f g : Frame}

theorem absorbed (h : g.Clean start stop) (habsorbs : f.Absorbs .flat g) : f.Clean start stop := by
  obtain ⟨hstack, hslots⟩ := Frame.absorbs_iff.1 habsorbs
  refine ⟨fun t ht hmade => ?_, fun slot hmade => ?_⟩
  · obtain ⟨k, hk⟩ := List.getElem?_of_mem ht
    obtain ⟨hlt, rfl⟩ := List.getElem?_eq_some_iff.1 hk
    have hlt' : k < g.stack.length := hstack.length_eq ▸ hlt
    have := JType.eq_of_absorbs (hstack.get hlt hlt') hmade.isUninitialized
    rw [List.get_eq_getElem, List.get_eq_getElem] at this
    exact h.stack _ (List.getElem_mem hlt') (this ▸ hmade)
  · have := JType.eq_of_absorbs (habsorbs.slot slot) hmade.isUninitialized
    exact h.slots slot (this ▸ hmade)

end Frame.Clean

section Range

variable {flow : Flow} (hp : flow.Proper) {c : Cut} {start stop floor : Nat} {before exit : Frame}
  (hx : Crossing flow c start stop before exit floor) (hm : Movable flow.routine start stop)

include hp

/-- An instruction outside the range names none of the range. -/
theorem Frame.Clean.delivered {i j : Nat} (hout : i < start ∨ stop ≤ i) {f after g : Frame}
    {insn : Instruction} (h : f.Clean start stop) (hf : flow.frame? i = some (some f))
    (hinsn : flow.routine.code[i]? = some insn) (hrest : flow.AtRest i f insn after)
    (hd : Flow.Delivers flow.routine i insn f after j g) : g.Clean start stop := by
  have hdoes := hp.tracks hf hinsn hrest
  -- an instruction outside creates its objects outside
  have hafter : after.Clean start stop := by
    refine ⟨fun t ht hmade => ?_, fun slot hmade => ?_⟩
    · rcases hdoes.cell (Nat.zero_le _) (Nat.zero_le _) (t := t)
        (by rw [Nat.sub_zero, Frame.depth, List.take_length]; exact ht) hmade.isUninitialized with
        ht | ⟨name, rfl⟩ | ⟨a, -, rfl⟩
      · exact h.stack t (List.mem_of_mem_take ht) hmade
      · obtain ⟨name', site, hsite, hlow, hhigh⟩ := hmade
        obtain ⟨-, rfl⟩ := JType.uninitialized.inj hsite
        omega
      · exact h.slots _ hmade
    · rcases hdoes.slot hmade.isUninitialized with ⟨hslot, -⟩ | hmem
      · exact h.slots slot (hslot ▸ hmade)
      · exact h.stack _ (List.mem_of_mem_take hmem) hmade
  cases hd with
  | next falls => exact hafter
  | target mem => exact hafter
  | @handler region mem contains real =>
    refine ⟨fun t ht hmade => ?_, fun slot => h.slots slot⟩
    have hu := hmade.isUninitialized
    rw [Flow.isUninitialized_caught region f ht] at hu
    cases hu
  | resume calls lt => exact h

include hx hm

/-- **The frame at the start of the range names no instruction of the range.** A path that comes to
the start for the first time has not been in the range. -/
theorem Crossing.clean_before : before.Clean start stop := by
  have hstart {f : Frame} (hf : flow.frame? start = some (some f)) : f = before := by
    rw [hx.before_eq] at hf
    exact (Option.some.inj (Option.some.inj hf)).symm
  have hlt := hm.lt
  -- The induction is over the steps of the pass. A frame of the range does not help, since objects
  -- may be created there; but the range is only entered at its start, so what matters is whether
  -- the start was clean when it was first reached.
  refine (Flow.frames_induction hp.checked hp.analyzed
    (P := fun i f => flow.frame? i = some (some f) →
      (start ≤ i ∧ i < stop → before.Clean start stop) ∧
      (f.Clean start stop ∨ before.Clean start stop))
    (fun f habsorbs hf => ?_) (fun i j f f' after g insn hf hinsn hrest ih hd hf' habsorbs _ => ?_)
    start before hx.before_eq hx.before_eq).1 ⟨Nat.le_refl _, hlt⟩
  · have hclean : f.Clean start stop := by
      refine Frame.Clean.absorbed ⟨fun t ht => ?_, Flow.not_made_entry hp.checked start stop⟩
        habsorbs
      rw [Flow.stack_entry] at ht
      cases ht
    refine ⟨fun hin => ?_, .inl hclean⟩
    obtain rfl : start = 0 := by omega
    exact hstart hf ▸ hclean
  · by_cases hin : start ≤ i ∧ i < stop
    · have hbefore := (ih hf).1 hin
      exact ⟨fun _ => hbefore, .inr hbefore⟩
    rcases (ih hf).2 with hclean | hbefore
    · have hclean' : f'.Clean start stop :=
        (Frame.Clean.delivered hp (by omega) hclean hf hinsn hrest hd).absorbed habsorbs
      refine ⟨fun ⟨hlow, hhigh⟩ => ?_, .inl hclean'⟩
      rcases Nat.eq_or_lt_of_le hlow with rfl | hlow
      · exact hstart hf' ▸ hclean'
      · exact absurd (hm.source_mem hp.canonical hinsn hd hlow hhigh) hin
    · exact ⟨fun _ => hbefore, .inr hbefore⟩

/-- What is not initialized in a frame of the range was made in the range, or has been in its slot
from the start. -/
structure Frame.Homemade (start stop floor : Nat) (f before : Frame) : Prop where
  cells : ∀ t ∈ f.stack.take (f.depth - floor), t.isUninitialized → t.MadeIn start stop
  slots : ∀ slot, (f.slot slot).isUninitialized →
    (f.slot slot).MadeIn start stop ∨ f.slot slot = before.slot slot

omit hp hx hm in
theorem Frame.Homemade.absorbed {f g : Frame} (h : g.Homemade start stop floor before)
    (habsorbs : f.Absorbs .flat g) : f.Homemade start stop floor before := by
  have hdepth : f.depth = g.depth := habsorbs.depth_eq
  refine ⟨fun t ht hu => ?_, fun slot hu => ?_⟩
  · obtain ⟨k, hk⟩ := List.getElem?_of_mem ht
    have hall := List.forall₂_take (f.depth - floor) (Frame.absorbs_iff.1 habsorbs).1
    obtain ⟨hlt, rfl⟩ := List.getElem?_eq_some_iff.1 hk
    have hlt' : k < (g.stack.take (f.depth - floor)).length := hall.length_eq ▸ hlt
    have heq := JType.eq_of_absorbs (hall.get hlt hlt') hu
    rw [List.get_eq_getElem, List.get_eq_getElem] at heq
    rw [heq] at hu ⊢
    exact h.cells _ (hdepth ▸ List.getElem_mem hlt') hu
  · have heq := JType.eq_of_absorbs (habsorbs.slot slot) hu
    rw [heq] at hu ⊢
    exact h.slots slot hu

omit hm in
theorem Crossing.homemade_before : before.Homemade start stop floor before := by
  refine ⟨fun t ht hu => ?_, fun _ _ => .inr rfl⟩
  -- the range consumes nothing that is not initialized
  rw [hx.take_before hp] at ht
  obtain ⟨u, hmem, ht⟩ := List.mem_flatMap.1 ht
  have hdefinite := hx.consumed_isDefinite u (List.mem_reverse.1 hmem)
  obtain rfl := Frame.eq_of_mem_cellsOf ht hu
  cases t <;> first | cases hu; done | cases hdefinite

/-- An instruction of the range that finds only such objects leaves only such objects. -/
theorem Crossing.homemade_step {i : Nat} (hlow : start ≤ i) (hhigh : i < stop) {f after : Frame}
    {insn : Instruction} (hf : flow.frame? i = some (some f))
    (hinsn : flow.routine.code[i]? = some insn) (hrest : flow.AtRest i f insn after)
    (hmade : f.Homemade start stop floor before) : after.Homemade start stop floor before := by
  have hfloor := hx.floor_le i f hlow hhigh hf
  have hdepth := (hx.spared hp hm hlow hhigh hf).floor_le
  have hdoes := hp.tracks hf hinsn hrest
  refine ⟨fun t ht hu => ?_, fun slot hu => ?_⟩
  · rcases hdoes.cell hfloor hdepth ht hu with ht | ⟨name, rfl⟩ | ⟨a, ha, rfl⟩
    · exact hmade.cells t ht hu
    · exact ⟨name, i, rfl, by omega, by omega⟩
    · rcases hmade.slots a.slot hu with hmade | hsame
      · exact hmade
      · -- the range reads no slot that still holds such an object
        have := (hx.reads i hlow hhigh (Flow.reachable_iff.2 ⟨f, hf⟩) a ha).1
        rw [← hsame, hu] at this
        cases this
  · rcases hdoes.slot hu with ⟨hsame, -⟩ | hmem
    · rw [hsame] at hu ⊢
      exact hmade.slots slot hu
    · refine .inl (hmade.cells _ ?_ hu)
      by_cases hpops : (flow.effect i).pops ≤ f.depth
      · exact List.take_subset_take_left f.stack (by omega) hmem
      · rw [show f.depth - floor = f.stack.length by unfold Frame.depth at *; omega,
          List.take_length]
        exact List.mem_of_mem_take hmem

/-- **Above the floor the range finds only objects that it made itself**, if they are not
initialized. -/
theorem Crossing.homemade {i : Nat} (hlow : start ≤ i) (hhigh : i < stop) {f : Frame}
    (hf : flow.frame? i = some (some f)) : f.Homemade start stop floor before :=
  hx.frames_induction hp hm (P := fun f => f.Homemade start stop floor before)
    (hx.homemade_before hp)
    (fun _ _ _ _ hlow hhigh hf hinsn hrest hmade =>
      hx.homemade_step hp hm hlow hhigh hf hinsn hrest hmade)
    (fun _ _ hg habsorbs => hg.absorbed habsorbs) hlow hhigh hf

end Range

end Outliner
