import Outliner.Proofs.Ranges
import Outliner.Proofs.Rest
import Outliner.Proofs.Slots

/-!
# What crosses the boundary of a range

A cut is read off the footprint of a range, which is a tally over its instructions. This module says
what the tally has seen when it is complete (`Footprint.Tally.Notes`) and with that what the cut of
a chosen range lists (`Crossing`): the depth of the stack that no instruction of the range goes
below, the slots whose incoming values are needed and the slots that are left with a new value.

Only instructions that a path reaches are tallied.
-/

namespace Outliner

namespace SlotMap

variable {α : Type}

/-- A map made from a list has every slot of the list. -/
theorem contains_ofList {l : List (Int × α)} {e : Int × α} (h : e ∈ l) :
    (ofList l).contains e.1 := by
  suffices hfold : ∀ m : SlotMap α, m.contains e.1 ∨ e ∈ l →
      (l.foldl (fun m e => m.insert e.1 e.2) m).contains e.1 from hfold empty (.inr h)
  clear h
  induction l with
  | nil => exact fun m h => h.resolve_right (by simp)
  | cons first rest ih =>
    intro m h
    refine ih _ ?_
    rcases h with h | h
    · left
      simp only [contains, get?_insert] at h ⊢
      split
      · rfl
      · exact h
    · rcases List.mem_cons.1 h with rfl | h
      · exact .inl (by simp [contains])
      · exact .inr h

/-- What a map made from a list holds, when the list has one value for each slot. -/
theorem get?_ofList {l : List (Int × α)} (f : Int → α) (hl : ∀ e ∈ l, e.2 = f e.1) (slot : Int)
    (a : α) : (ofList l).get? slot = some a ↔ (slot, a) ∈ l := by
  constructor
  · exact fun h => mem_of_mem_ofList ((mem_entries_iff _ slot a).2 h)
  · intro h
    obtain ⟨b, hb⟩ := Option.isSome_iff_exists.1 (contains_ofList h)
    have hmem := mem_of_mem_ofList ((mem_entries_iff _ slot b).2 hb)
    rw [hb]
    exact congrArg some ((hl _ hmem).trans (hl _ h).symm)

end SlotMap

namespace Footprint.Tally

variable {flow : Flow} {startFrame exitFrame : Frame}

/-- **What a tally has seen** once the given offsets are noted. -/
structure Notes (flow : Flow) (startFrame exitFrame : Frame) (offsets : List Nat) (t : Tally) :
    Prop where
  minDepth_le : t.minDepth ≤ startFrame.depth
  minDepth : ∀ i ∈ offsets, ∀ f, flow.frame? i = some (some f) →
    t.minDepth ≤ f.depth - (flow.effect i).pops
  read_eq : ∀ s u, t.read.get? s = some u → u = startFrame.slot s
  read : ∀ i ∈ offsets, flow.reachable i → ∀ a ∈ (flow.effect i).reads, t.read.contains a.slot
  written_eq : ∀ s u, t.written.get? s = some u → u = exitFrame.slot s ∧
    ∃ i ∈ offsets, flow.reachable i ∧ ∃ a ∈ (flow.effect i).writes, a.slot = s
  written : ∀ i ∈ offsets, flow.reachable i → ∀ a ∈ (flow.effect i).writes,
    t.written.contains a.slot
  branches : t.branches = false → ∀ i ∈ offsets, ∀ insn, flow.routine.code[i]? = some insn →
    insn.targets = []

/-- A map after accesses are entered, each with the type of its slot. -/
def entered (f : Frame) (accesses : List SlotAccess) (m : SlotMap JType) : SlotMap JType :=
  accesses.foldl (fun m a => m.insert a.slot (f.slot a.slot)) m

theorem get?_entered (f : Frame) (accesses : List SlotAccess) (m : SlotMap JType) (s : Int) :
    (entered f accesses m).get? s =
      if ∃ a ∈ accesses, a.slot = s then some (f.slot s) else m.get? s := by
  induction accesses generalizing m with
  | nil => simp [entered]
  | cons a rest ih =>
    refine (ih _).trans ?_
    by_cases hrest : ∃ b ∈ rest, b.slot = s
    · rw [if_pos hrest, if_pos]
      obtain ⟨b, hb, hslot⟩ := hrest
      exact ⟨b, List.mem_cons_of_mem _ hb, hslot⟩
    · by_cases ha : a.slot = s
      · rw [if_neg hrest, if_pos ⟨a, List.mem_cons_self, ha⟩, SlotMap.get?_insert, if_pos ha, ha]
      · rw [if_neg hrest, if_neg, SlotMap.get?_insert, if_neg ha]
        rintro ⟨b, hb, hslot⟩
        rcases List.mem_cons.1 hb with rfl | hb
        · exact ha hslot
        · exact hrest ⟨b, hb, hslot⟩

theorem foldl_noteRead (reads : List SlotAccess) (t : Tally) :
    ∃ widths, reads.foldl (noteRead startFrame) t =
      ⟨t.minDepth, entered startFrame reads t.read, t.written, widths, t.branches⟩ := by
  induction reads generalizing t with
  | nil => exact ⟨t.widths, rfl⟩
  | cons a rest ih =>
    obtain ⟨widths, h⟩ := ih (noteRead startFrame t a)
    refine ⟨widths, h.trans ?_⟩
    unfold noteRead widen
    split <;> rfl

theorem foldl_noteWrite (writes : List SlotAccess) (t : Tally) :
    ∃ widths, writes.foldl (noteWrite exitFrame) t =
      ⟨t.minDepth, t.read, entered exitFrame writes t.written, widths, t.branches⟩ := by
  induction writes generalizing t with
  | nil => exact ⟨t.widths, rfl⟩
  | cons a rest ih =>
    obtain ⟨widths, h⟩ := ih (noteWrite exitFrame t a)
    refine ⟨widths, h.trans ?_⟩
    unfold noteWrite widen
    split <;> rfl

/-- Whether the instruction at an offset has targets. -/
def jumpsAt (flow : Flow) (offset : Nat) : Bool :=
  flow.routine.code[offset]?.any fun insn => !insn.targets.isEmpty

/-- What noting an offset adds, apart from what it does to the frame before it. -/
theorem note_eq (t : Tally) (i : Nat) :
    note flow startFrame exitFrame t i =
      (flow.frames[i]?.join).elim { t with branches := t.branches || jumpsAt flow i } fun f =>
        (flow.effect i).writes.foldl (noteWrite exitFrame)
          ((flow.effect i).reads.foldl (noteRead startFrame)
            { t with
              branches := t.branches || jumpsAt flow i
              minDepth := min t.minDepth (f.depth - (flow.effect i).pops) }) := by
  unfold note jumpsAt
  cases flow.routine.code[i]? <;> cases flow.frames[i]?.join <;> rfl

/-- What noting an offset that a path reaches adds. -/
theorem note_of_frame (t : Tally) {i : Nat} {f : Frame} (hf : flow.frame? i = some (some f)) :
    ∃ widths, note flow startFrame exitFrame t i =
      ⟨min t.minDepth (f.depth - (flow.effect i).pops),
        entered startFrame (flow.effect i).reads t.read,
        entered exitFrame (flow.effect i).writes t.written, widths,
        t.branches || jumpsAt flow i⟩ := by
  rw [Flow.frame?_natCast] at hf
  obtain ⟨widths, hread⟩ := @foldl_noteRead startFrame (flow.effect i).reads
    { t with
      branches := t.branches || jumpsAt flow i
      minDepth := min t.minDepth (f.depth - (flow.effect i).pops) }
  obtain ⟨widths', hwrite⟩ := @foldl_noteWrite exitFrame (flow.effect i).writes
    ⟨min t.minDepth (f.depth - (flow.effect i).pops),
      entered startFrame (flow.effect i).reads t.read, t.written, widths,
      t.branches || jumpsAt flow i⟩
  exact ⟨widths', by rw [note_eq, hf, Option.join_some, Option.elim_some, hread, hwrite]⟩

theorem targets_of_jumpsAt {i : Nat} (h : jumpsAt flow i = false) {insn : Instruction}
    (hinsn : flow.routine.code[i]? = some insn) : insn.targets = [] := by
  unfold jumpsAt at h
  rw [hinsn] at h
  simpa using h

theorem Notes.note {offsets : List Nat} {t : Tally} (h : Notes flow startFrame exitFrame offsets t)
    (i : Nat) : Notes flow startFrame exitFrame (offsets ++ [i])
      (t.note flow startFrame exitFrame i) := by
  -- a jump anywhere in the range is noted, whether it is reached or not
  have hbranches (b : Bool) (hb : b = (t.branches || jumpsAt flow i)) (hfalse : b = false) :
      ∀ j ∈ offsets ++ [i], ∀ insn, flow.routine.code[j]? = some insn → insn.targets = [] := by
    rw [hb, Bool.or_eq_false_iff] at hfalse
    intro j hj insn hinsn
    rcases List.mem_append.1 hj with hj | hj
    · exact h.branches hfalse.1 j hj insn hinsn
    · obtain rfl := List.mem_singleton.1 hj
      exact targets_of_jumpsAt hfalse.2 hinsn
  cases hf : flow.frames[i]?.join with
  | none =>
    -- nothing is noted about an instruction that is not reached
    have hunreachable : ¬ flow.reachable i := by simp [Flow.reachable, hf]
    have hsplit {P : Nat → Prop} (hP : ∀ j ∈ offsets, P j) (j : Nat) (hj : j ∈ offsets ++ [i])
        (hreach : flow.reachable j) : P j := by
      rcases List.mem_append.1 hj with hj | hj
      · exact hP j hj
      · obtain rfl := List.mem_singleton.1 hj
        exact absurd hreach hunreachable
    rw [note_eq, hf]
    refine ⟨h.minDepth_le, fun j hj f hjf => ?_, h.read_eq, fun j hj hreach => ?_,
      fun s u hu => ?_, fun j hj hreach => ?_, hbranches _ rfl⟩
    · exact hsplit (fun j hj => h.minDepth j hj) j hj (Flow.reachable_iff.2 ⟨f, hjf⟩) f hjf
    · exact hsplit (fun j hj => h.read j hj) j hj hreach hreach
    · obtain ⟨hu, j, hj, hrest⟩ := h.written_eq s u hu
      exact ⟨hu, j, List.mem_append_left _ hj, hrest⟩
    · exact hsplit (fun j hj => h.written j hj) j hj hreach hreach
  | some f =>
    have hframe : flow.frame? i = some (some f) := by
      rw [Flow.frame?_natCast]
      exact Option.join_eq_some_iff.1 hf
    obtain ⟨widths, heq⟩ := @note_of_frame flow startFrame exitFrame t i f hframe
    rw [heq]
    have hmin := h.minDepth_le
    refine ⟨by dsimp only; omega, fun j hj g hg => ?_, fun s u hu => ?_, fun j hj hreach a ha => ?_,
      fun s u hu => ?_, fun j hj hreach a ha => ?_, hbranches _ rfl⟩
    · rcases List.mem_append.1 hj with hj | hj
      · have := h.minDepth j hj g hg
        dsimp only
        omega
      · obtain rfl := List.mem_singleton.1 hj
        obtain rfl : f = g := by simpa [hframe] using hg
        exact Nat.min_le_right _ _
    · -- a slot that is read is noted with its type at the start
      rw [get?_entered] at hu
      split at hu
      · exact (Option.some.inj hu).symm
      · exact h.read_eq s u hu
    · rw [SlotMap.contains, get?_entered]
      split
      · rfl
      · next hnone =>
        rcases List.mem_append.1 hj with hj | hj
        · exact h.read j hj hreach a ha
        · obtain rfl := List.mem_singleton.1 hj
          exact absurd ⟨a, ha, rfl⟩ hnone
    · -- a slot that is written is noted with its type at the exit
      rw [get?_entered] at hu
      split at hu
      · next hsome =>
        exact ⟨(Option.some.inj hu).symm, i, by simp, Flow.reachable_iff.2 ⟨f, hframe⟩, hsome⟩
      · obtain ⟨hu, j, hj, hrest⟩ := h.written_eq s u hu
        exact ⟨hu, j, List.mem_append_left _ hj, hrest⟩
    · rw [SlotMap.contains, get?_entered]
      split
      · rfl
      · next hnone =>
        rcases List.mem_append.1 hj with hj | hj
        · exact h.written j hj hreach a ha
        · obtain rfl := List.mem_singleton.1 hj
          exact absurd ⟨a, ha, rfl⟩ hnone

theorem Notes.foldl {offsets : List Nat} {t : Tally}
    (h : Notes flow startFrame exitFrame offsets t) (rest : List Nat) :
    Notes flow startFrame exitFrame (offsets ++ rest)
      (rest.foldl (Tally.note flow startFrame exitFrame) t) := by
  induction rest generalizing offsets t with
  | nil => simpa using h
  | cons i rest ih => simpa using ih (h.note i)

end Footprint.Tally

/-- The tally of a range has noted all of its instructions. -/
theorem Footprint.notes_tally (flow : Flow) (start stop : Int) (before after : Frame) :
    Tally.Notes flow before after (offsets start stop) (tally flow start stop before after) := by
  have hnone : Tally.Notes flow before after [] { minDepth := before.depth } :=
    ⟨Nat.le_refl _, by simp, by simp, by simp, by simp, by simp, by simp⟩
  have hall := hnone.foldl (offsets start stop)
  rwa [List.nil_append] at hall

/-! ### The cut of a chosen range -/

/-- A reachable instruction of the range writes the slot. -/
def Flow.Writes (flow : Flow) (start stop : Nat) (slot : Int) : Prop :=
  ∃ i, start ≤ i ∧ i < stop ∧ flow.reachable i ∧ ∃ a ∈ (flow.effect i).writes, a.slot = slot

/-- **What crosses the boundary of a chosen range**, with `before` the frame it starts in, `after`
the frame it ends in, and `floor` the depth of the stack below which it does not reach. -/
structure Crossing (flow : Flow) (c : Cut) (start stop : Nat) (before after : Frame)
    (floor : Nat) : Prop where
  before_eq : flow.frame? start = some (some before)
  after_eq : flow.frameAfter ((stop : Int) - 1) = .ok after
  floor_le_before : floor ≤ before.depth
  floor_le_after : floor ≤ after.depth
  floor_le : ∀ (i : Nat) (f : Frame), start ≤ i → i < stop → flow.frame? i = some (some f) →
    floor ≤ f.depth - (flow.effect i).pops
  consumed : c.consumed = Frame.collapse (before.stack.reverse.drop floor)
  consumed_isDefinite : ∀ t ∈ c.consumed, t.isDefinite
  produced : c.produced = Frame.collapse (after.stack.reverse.drop floor)
  produced_isDefinite : ∀ t ∈ c.produced, t.isDefinite
  read_eq : ∀ s t, c.read.get? s = some t → t = before.slot s ∧ t.isDefinite
  reads : ∀ i, start ≤ i → i < stop → flow.reachable i → ∀ a ∈ (flow.effect i).reads,
    (before.slot a.slot).isUninitialized = false ∧
      ((before.slot a.slot).isDefinite → c.read.get? a.slot = some (before.slot a.slot))
  written_eq : ∀ s t, c.written.get? s = some t →
    t = after.slot s ∧ t.isDefinite ∧ flow.Writes start stop s
  writes : ∀ s, flow.Writes start stop s → (after.slot s).isUninitialized = false ∧
    ((after.slot s).isDefinite → c.written.get? s = some (after.slot s))
  /-- Without jumps each instruction of the range is executed; with jumps the incoming values of the
  slots it writes are needed. -/
  straight : (∀ (i : Nat) (insn : Instruction), start ≤ i → i < stop →
      flow.routine.code[i]? = some insn → insn.targets = []) ∨
    ∀ s, flow.Writes start stop s → (before.slot s).isDefinite →
      c.read.get? s = some (before.slot s)

theorem Footprint.wholeDepth_le (f : Frame) (depth : Nat) : wholeDepth f depth ≤ depth := by
  unfold wholeDepth
  split
  · split
    · split <;> omega
    · exact Nat.le_refl _
  · exact Nat.le_refl _

theorem Frame.cells?_eq_some {f : Frame} {start : Nat} {cells : List JType}
    (h : f.cells? start = some cells) : start ≤ f.depth ∧ cells = f.stack.reverse.drop start := by
  unfold Frame.cells? at h
  split at h
  · next hle =>
    simp only [Bool.and_eq_true, decide_eq_true_eq] at hle
    exact ⟨by omega, by simpa using (Option.some.inj h).symm⟩
  · cases h

theorem Cut.get?_usable {m : SlotMap JType} {s : Int} {t : JType} :
    (usable m).get? s = some t ↔ m.get? s = some t ∧ t.isDefinite := by
  have hl (e : Int × JType) (he : e ∈ m.toList.filter (·.2.isDefinite)) :
      e.2 = (m.get? e.1).getD .top := by
    rw [(SlotMap.mem_entries_iff m e.1 e.2).1 (List.mem_filter.1 he).1]
    rfl
  rw [usable, SlotMap.get?_ofList (fun s => (m.get? s).getD .top) hl, List.mem_filter]
  exact and_congr_left fun _ => SlotMap.mem_entries_iff m s t

theorem Cut.get?_needed {f : Footprint}
    (hread : ∀ s u, f.read.get? s = some u → u = f.startFrame.slot s) {s : Int} {t : JType} :
    (needed f).get? s = some t ↔ t = f.startFrame.slot s ∧ t.isDefinite ∧
      (f.read.contains s ∨ (f.branches ∧ f.written.contains s)) := by
  -- the entries: what is read, and, where the range branches, what is written too
  have hentry (e : Int × JType) : e ∈ f.read.toList ++
      (if f.branches then f.written.slots.map fun slot => (slot, f.startFrame.slot slot) else []) ↔
      e.2 = f.startFrame.slot e.1 ∧
        (f.read.contains e.1 ∨ (f.branches ∧ f.written.contains e.1)) := by
    rw [List.mem_append]
    constructor
    · rintro (he | he)
      · have hget := (SlotMap.mem_entries_iff f.read e.1 e.2).1 he
        exact ⟨hread _ _ hget, .inl (by simp [SlotMap.contains, hget])⟩
      · split at he
        · next hbranches =>
          obtain ⟨slot, hslot, rfl⟩ := List.mem_map.1 he
          obtain ⟨w, hw, rfl⟩ := List.mem_map.1 hslot
          have hget := (SlotMap.mem_entries_iff f.written w.1 w.2).1 hw
          exact ⟨rfl, .inr ⟨hbranches, by simp [SlotMap.contains, hget]⟩⟩
        · cases he
    · rintro ⟨heq, hcontains | ⟨hbranches, hcontains⟩⟩
      · obtain ⟨u, hu⟩ := Option.isSome_iff_exists.1 hcontains
        refine .inl ((SlotMap.mem_entries_iff f.read e.1 e.2).2 ?_)
        rw [heq, ← hread _ _ hu, hu]
      · obtain ⟨u, hu⟩ := Option.isSome_iff_exists.1 hcontains
        rw [if_pos hbranches]
        exact .inr (List.mem_map.2 ⟨e.1, List.mem_map.2 ⟨(e.1, u),
          (SlotMap.mem_entries_iff f.written e.1 u).2 hu, rfl⟩, by rw [← heq]⟩)
  have hl (e : Int × JType) (he : e ∈ (f.read.toList ++
      if f.branches then f.written.slots.map fun slot => (slot, f.startFrame.slot slot)
      else []).filter (·.2.isDefinite)) : e.2 = f.startFrame.slot e.1 :=
    ((hentry e).1 (List.mem_filter.1 he).1).1
  rw [needed, SlotMap.get?_ofList f.startFrame.slot hl, List.mem_filter, hentry]
  tauto

/-- The cut of a chosen range lists what crosses its boundary according to the footprint. -/
theorem Chosen.exists_footprint {flow : Flow} {c : Cut} {start stop : Nat}
    (h : Chosen flow c start stop) :
    ∃ fp, flow.footprint start ((stop : Int) - 1) = .ok fp ∧
      Crossing flow c start stop fp.startFrame fp.exitFrame fp.minDepth := by
  obtain ⟨fp, hfp, hcut⟩ := h.footprint
  obtain ⟨before, after, consumed, produced, hbefore, hafter, hconsumed, hproduced, hfields⟩ :=
    Flow.footprint_eq_ok hfp
  obtain ⟨⟨hdef, hdef', hread, hwritten⟩, rfl⟩ := Cut.ofFootprint_eq_ok hcut
  have hlt := h.movable.lt
  have hoffsets : Footprint.offsets start ((stop : Int) - 1) =
      List.range' start (stop - start) := by
    unfold Footprint.offsets
    congr 1
    omega
  have hmem (i : Nat) : i ∈ List.range' start (stop - start) ↔ start ≤ i ∧ i < stop := by
    rw [List.mem_range'_1]
    omega
  have hnotes := Footprint.notes_tally flow start ((stop : Int) - 1) before after
  rw [hoffsets] at hnotes
  obtain ⟨hfloor, rfl⟩ := Frame.cells?_eq_some hconsumed
  obtain ⟨hfloor', rfl⟩ := Frame.cells?_eq_some hproduced
  have hwhole : Footprint.floor flow start ((stop : Int) - 1) before after ≤ _ :=
    Footprint.wholeDepth_le _ _
  subst hfields
  dsimp only at hdef hdef' hread hwritten
  -- from here on it only matters what has been noted, not how
  generalize Footprint.floor flow start ((stop : Int) - 1) before after = floor at *
  generalize Footprint.tally flow start ((stop : Int) - 1) before after = tally at *
  have hneeded (s : Int) (t : JType) := @Cut.get?_needed ⟨start, (stop : Int) - 1, before, after,
    floor, Frame.collapse (before.stack.reverse.drop floor),
    Frame.collapse (after.stack.reverse.drop floor), tally.read, tally.written, tally.widths,
    tally.branches⟩ hnotes.read_eq s t
  have hwrites {s : Int} (hs : flow.Writes start stop s) : tally.written.contains s := by
    obtain ⟨i, hlow, hhigh, hreach, a, ha, rfl⟩ := hs
    exact hnotes.written i ((hmem i).2 ⟨hlow, hhigh⟩) hreach a ha
  refine ⟨_, hfp, hbefore, hafter, hfloor, hfloor', fun i f hlow hhigh hf => ?_, rfl,
    hdef, rfl, hdef', fun s t ht => ?_, fun i hlow hhigh hreach a ha => ?_, fun s t ht => ?_,
    fun s hs => ?_, ?_⟩
  · exact Nat.le_trans hwhole (hnotes.minDepth i ((hmem i).2 ⟨hlow, hhigh⟩) f hf)
  · obtain ⟨h1, h2, -⟩ := (hneeded s t).1 ht
    exact ⟨h1, h2⟩
  · have hcontains := hnotes.read i ((hmem i).2 ⟨hlow, hhigh⟩) hreach a ha
    obtain ⟨u, hu⟩ := Option.isSome_iff_exists.1 hcontains
    obtain rfl := hnotes.read_eq _ _ hu
    exact ⟨hread _ ((SlotMap.mem_entries_iff tally.read _ _).2 hu),
      fun hdefinite => (hneeded _ _).2 ⟨rfl, hdefinite, .inl hcontains⟩⟩
  · obtain ⟨hget, hdefinite⟩ := Cut.get?_usable.1 ht
    obtain ⟨heq, i, hi, hreach, hwrite⟩ := hnotes.written_eq s t hget
    obtain ⟨hlow, hhigh⟩ := (hmem i).1 hi
    exact ⟨heq, hdefinite, i, hlow, hhigh, hreach, hwrite⟩
  · obtain ⟨u, hu⟩ := Option.isSome_iff_exists.1 (hwrites hs)
    obtain rfl := (hnotes.written_eq _ _ hu).1
    exact ⟨hwritten _ ((SlotMap.mem_entries_iff tally.written _ _).2 hu),
      fun hdefinite => Cut.get?_usable.2 ⟨hu, hdefinite⟩⟩
  · -- with a branch in the range every written slot is handed in, as it may be left unwritten
    by_cases hbranches : tally.branches = true
    · exact .inr fun s hs hdefinite =>
        (hneeded s _).2 ⟨rfl, hdefinite, .inr ⟨hbranches, hwrites hs⟩⟩
    · exact .inl fun i insn hlow hhigh hinsn =>
        hnotes.branches (Bool.not_eq_true _ ▸ hbranches) i ((hmem i).2 ⟨hlow, hhigh⟩) insn hinsn

theorem Chosen.crossing {flow : Flow} {c : Cut} {start stop : Nat} (h : Chosen flow c start stop) :
    ∃ before after floor, Crossing flow c start stop before after floor := by
  obtain ⟨fp, -, hx⟩ := h.exists_footprint
  exact ⟨_, _, _, hx⟩

end Outliner
