import Mathlib.Logic.Relation
import Mathlib.Order.Bounds.Basic
import Outliner.Proofs.Trimming

/-!
# Slots that handlers read

A range that is moved into a routine of its own writes its locals there, out of sight of the
handlers that protect it. So it must not write a slot that one of them may read.

`Flow.Live` says which slots may be read once control is at an offset: control can go on from there
(`Flow.GoesOn`, any number of times) to an instruction that reads the slot. Two definitions of the
library have to do with it. `Flow.readsFrom` finds the slots by a search, and it finds exactly those
that are live (`Flow.has_readsFrom_iff`). `Watch.firstWrite?` finds the first instruction of a range
that writes such a slot (`Watch.first_write_observed`), so that no cut has one
(`Chosen.not_writesObserved`).

The search marks offsets and puts each of them in line once. It is complete because a marked offset
that is no longer in line has all its successors marked (`Flow.Search`), and it does not end early
because the offsets in line and those not marked yet are together no more than the rounds left.

What a handler reads does not depend on the query, so it can be remembered from one query to the
next (`Watch.Recall`) without changing an answer.
-/

namespace Outliner

/-- The slots of an access, both halves of a wide one. An access that would run past the largest
slot number has none. -/
def SlotAccess.Covers (a : SlotAccess) (slot : Int) : Prop :=
  a.slot ≤ slot ∧ slot < a.slot + a.size ∧ a.slot + a.size ≤ Word.max

theorem SlotAccess.mem_covered_iff {a : SlotAccess} {slot : Int} :
    slot ∈ a.covered ↔ a.Covers slot := by
  unfold covered Covers
  split
  · next hbound =>
    rw [List.mem_map]
    constructor
    · rintro ⟨k, hk, rfl⟩
      have := List.mem_range.1 hk
      omega
    · rintro ⟨hlow, hhigh, -⟩
      exact ⟨(slot - a.slot).toNat, List.mem_range.2 (by omega), by omega⟩
  · next hbound => exact ⟨fun h => absurd h (by simp), fun h => absurd h.2.2 hbound⟩

namespace Flow

variable {flow : Flow}

/-! ### Where control goes, and what it reads -/

/-- **Control can go on from one instruction to another**: to the next one, to one it jumps to, to
the one after a subroutine call, and to the handler of a block that protects it. Blocks that are
empty protect nothing. -/
inductive GoesOn (flow : Flow) (offset : Nat) : Nat → Prop where
  | next {insn : Instruction} (code : flow.routine.code[offset]? = some insn)
    (falls : insn.fallsThrough) : GoesOn flow offset (offset + 1)
  | resume {insn : Instruction} (code : flow.routine.code[offset]? = some insn)
    (calls : insn.opcode.isSubroutineCall) : GoesOn flow offset (offset + 1)
  | target {insn : Instruction} {t : Nat} (code : flow.routine.code[offset]? = some insn)
    (mem : t ∈ flow.routine.targetOffsets insn) : GoesOn flow offset t
  | handler {insn : Instruction} {region : Region}
    (code : flow.routine.code[offset]? = some insn) (real : insn.isMarker = false)
    (mem : region ∈ flow.routine.regions) (contains : region.contains offset) :
    GoesOn flow offset region.handler

/-- Control can get from one offset to another. -/
def Leads (flow : Flow) : Nat → Nat → Prop := Relation.ReflTransGen flow.GoesOn

/-- An instruction may read a slot. What comes after the end of a subroutine is unknown, so that may
read every slot. -/
def ReadsSlot (flow : Flow) (offset : Nat) (slot : Int) : Prop :=
  ∃ insn, flow.routine.code[offset]? = some insn ∧
    (insn.opcode = .ret ∨ ∃ a ∈ (flow.effect offset).reads, a.Covers slot)

/-- An instruction writes a slot. -/
def WritesSlot (flow : Flow) (offset : Nat) (slot : Int) : Prop :=
  ∃ a ∈ (flow.effect offset).writes, a.Covers slot

/-- **A slot may be read once control is at an offset.** -/
def Live (flow : Flow) (offset : Nat) (slot : Int) : Prop :=
  ∃ reader, flow.Leads offset reader ∧ flow.ReadsSlot reader slot

/-- A handler that protects an offset may read a slot. -/
def Observed (flow : Flow) (start : Nat) (slot : Int) : Prop :=
  ∃ region ∈ flow.routine.regions, region.contains start ∧ flow.Live region.handler slot

/-- An instruction writes a slot that a handler protecting `start` may read. -/
def WritesObserved (flow : Flow) (start offset : Nat) : Prop :=
  ∃ slot, flow.WritesSlot offset slot ∧ flow.Observed start slot

theorem GoesOn.lt_size {offset next : Nat} (h : flow.GoesOn offset next) :
    offset < flow.routine.size := by
  cases h with
  | next code | resume code | target code | handler code =>
    exact (Array.getElem?_eq_some_iff.1 code).1

/-- The blocks of a routine that protect something. -/
abbrev regions (flow : Flow) : List Region := (Boundary.ofRoutine flow.routine).regions

theorem mem_regions_iff {region : Region} {offset : Nat} :
    region ∈ flow.regions ∧ region.contains offset ↔
      region ∈ flow.routine.regions ∧ region.contains offset := by
  refine and_congr_left fun hcontains => ?_
  have hnonempty : region.isEmpty = false := by
    simp only [Region.contains, Region.isEmpty, Bool.and_eq_true, decide_eq_true_eq,
      decide_eq_false_iff_not] at hcontains ⊢
    omega
  change region ∈ flow.routine.regions.filter (!·.isEmpty) ↔ _
  rw [List.mem_filter, hnonempty]
  exact and_iff_left rfl

theorem mem_successors_iff {offset next : Nat} :
    next ∈ flow.successors flow.regions offset ↔ flow.GoesOn offset next := by
  unfold successors
  cases hcode : flow.routine.code[offset]? with
  | none =>
    -- there is nothing behind the end
    refine ⟨fun h => absurd h List.not_mem_nil, fun h => ?_⟩
    have := h.lt_size
    rw [Array.getElem?_eq_none_iff] at hcode
    exact absurd this (Nat.not_lt.2 hcode)
  | some insn =>
    dsimp only
    rw [List.mem_append, List.mem_append]
    constructor
    -- each of the three lists has its kind of step
    · rintro ((h | h) | h)
      · split at h
        · next hgoes =>
          rw [List.mem_singleton] at h
          subst h
          rcases Bool.or_eq_true_iff.1 hgoes with hfalls | hcalls
          · exact .next hcode hfalls
          · exact .resume hcode hcalls
        · cases h
      · exact .target hcode h
      · split at h
        · cases h
        · next hreal =>
          obtain ⟨region, hmem, rfl⟩ := List.mem_map.1 h
          obtain ⟨hregion, hcontains⟩ := mem_regions_iff.1 (List.mem_filter.1 hmem)
          exact .handler hcode (Bool.eq_false_iff.2 hreal) hregion hcontains
    · intro h
      cases h with
      | next code falls =>
        obtain rfl := Option.some.inj (hcode.symm.trans code)
        exact .inl (.inl (by simp [falls]))
      | resume code calls =>
        obtain rfl := Option.some.inj (hcode.symm.trans code)
        exact .inl (.inl (by simp [calls]))
      | target code mem =>
        obtain rfl := Option.some.inj (hcode.symm.trans code)
        exact .inl (.inr mem)
      | handler code real mem contains =>
        obtain rfl := Option.some.inj (hcode.symm.trans code)
        rw [real]
        exact .inr (List.mem_map.2
          ⟨_, List.mem_filter.2 (mem_regions_iff.2 ⟨mem, contains⟩), rfl⟩)

/-! ### The search -/

section Search

variable {seen seen' : Array Bool} {work work' : List Nat}

/-- An offset has been marked. -/
def Marked (seen : Array Bool) (offset : Nat) : Prop := seen[offset]? = some true

theorem getD_eq_true_iff {offset : Nat} : seen.getD offset false = true ↔ Marked seen offset := by
  rw [Array.getD_eq_getD_getElem?, Marked]
  cases seen[offset]? <;> simp

theorem marked_setIfInBounds {offset : Nat} (hlt : offset < seen.size) (i : Nat) :
    Marked (seen.setIfInBounds offset true) i ↔ i = offset ∨ Marked seen i := by
  unfold Marked
  rw [Array.getElem?_setIfInBounds]
  split
  · next heq => simp [heq]
  · next hne => simp [Ne.symm hne]

theorem count_mark {offset : Nat} (h : seen[offset]? = some false) :
    (seen.setIfInBounds offset true).count false + 1 = seen.count false := by
  obtain ⟨hlt, hfalse⟩ := Array.getElem?_eq_some_iff.1 h
  have hpos : 0 < seen.count false :=
    Array.count_pos_iff.2 (Array.mem_iff_getElem.2 ⟨offset, hlt, hfalse⟩)
  rw [Array.setIfInBounds_def, dif_pos hlt, Array.count_set]
  rw [hfalse, if_pos (by decide), if_neg (by decide)]
  omega

/-- What marking some offsets does: those that are new are put in line, and nothing is lost. -/
structure Discovers (seen : Array Bool) (work offsets : List Nat) (seen' : Array Bool)
    (work' : List Nat) : Prop where
  size_eq : seen'.size = seen.size
  mono : ∀ i, Marked seen i → Marked seen' i
  found : ∀ i ∈ offsets, i < seen.size → Marked seen' i
  waits : ∀ i ∈ work, i ∈ work'
  fresh : ∀ i, Marked seen' i → Marked seen i ∨ i ∈ work'
  asked : ∀ i ∈ work', i ∈ work ∨ i ∈ offsets
  count : work'.length + seen'.count false = work.length + seen.count false

theorem discovers_discover (seen : Array Bool) (work offsets : List Nat) :
    Discovers seen work offsets (discover seen work offsets).1 (discover seen work offsets).2 := by
  induction offsets generalizing seen work with
  | nil =>
    exact ⟨rfl, fun _ h => h, by simp, fun _ h => h, fun _ h => .inl h, fun _ h => .inl h, rfl⟩
  | cons offset rest ih =>
    unfold discover
    split
    · -- marked before: nothing changes
      next hseen =>
      obtain ⟨size_eq, mono, found, waits, fresh, asked, count⟩ := ih seen work
      refine ⟨size_eq, mono, fun i hi hlt => ?_, waits, fresh,
        fun i hi => (asked i hi).imp_right (List.mem_cons_of_mem _), count⟩
      rcases List.mem_cons.1 hi with rfl | hi
      · rw [Array.getD_eq_getD_getElem?, Array.getElem?_eq_getElem hlt] at hseen
        exact mono i (Array.getElem?_eq_some_iff.2 ⟨hlt, hseen⟩)
      · exact found i hi hlt
    · -- found for the first time: marked and put to work
      next hseen =>
      obtain ⟨size_eq, mono, found, waits, fresh, asked, count⟩ :=
        ih (seen.setIfInBounds offset true) (offset :: work)
      have hfalse : seen[offset]? = some false := by
        rw [Array.getD_eq_getD_getElem?] at hseen
        cases h : seen[offset]? with
        | none => rw [h] at hseen; exact absurd rfl hseen
        | some b => rw [h] at hseen; simpa using hseen
      have hmark := marked_setIfInBounds (Array.getElem?_eq_some_iff.1 hfalse).1
      refine ⟨by simpa using size_eq, fun i hi => mono i ((hmark i).2 (.inr hi)),
        fun i hi hilt => ?_, fun i hi => waits i (List.mem_cons_of_mem _ hi), fun i hi => ?_,
        fun i hi => ?_, ?_⟩
      · rcases List.mem_cons.1 hi with rfl | hi
        · exact mono _ ((hmark _).2 (.inl rfl))
        · exact found i hi (by simpa using hilt)
      · rcases fresh i hi with hi | hi
        · rcases (hmark i).1 hi with rfl | hi
          · exact .inr (waits _ List.mem_cons_self)
          · exact .inl hi
        · exact .inr hi
      · rcases asked i hi with hi | hi
        · rcases List.mem_cons.1 hi with rfl | hi
          · exact .inr List.mem_cons_self
          · exact .inl hi
        · exact .inr (List.mem_cons_of_mem _ hi)
      -- one more is waiting, and one fewer is unmarked
      · have := count_mark hfalse
        rw [List.length_cons] at count
        omega

/-- **What holds between two rounds of the search from `origin`**: what is marked or waits in line
can be reached, and a marked offset waits in line or has its successors marked. -/
structure Search (flow : Flow) (origin : Nat) (seen : Array Bool) (work : List Nat) : Prop where
  size_eq : seen.size = flow.routine.size
  begun : origin < flow.routine.size → Marked seen origin
  line : ∀ i ∈ work, flow.Leads origin i
  sound : ∀ i, Marked seen i → flow.Leads origin i
  closed : ∀ i, Marked seen i → i ∈ work ∨
    ∀ j, flow.GoesOn i j → j < flow.routine.size → Marked seen j

/-- A round of the search follows the first offset in line. -/
theorem Search.round {origin offset : Nat} {rest : List Nat}
    (h : Search flow origin seen (offset :: rest)) :
    Search flow origin (discover seen rest (flow.successors flow.regions offset)).1
      (discover seen rest (flow.successors flow.regions offset)).2 := by
  have hd := discovers_discover seen rest (flow.successors flow.regions offset)
  have hline : ∀ i ∈ (discover seen rest (flow.successors flow.regions offset)).2,
      flow.Leads origin i := by
    intro i hi
    rcases hd.asked i hi with hi | hi
    · exact h.line i (List.mem_cons_of_mem _ hi)
    · exact (h.line offset List.mem_cons_self).tail (mem_successors_iff.1 hi)
  refine ⟨hd.size_eq.trans h.size_eq, fun hlt => hd.mono _ (h.begun hlt), hline, fun i hi => ?_,
    fun i hi => ?_⟩
  · exact (hd.fresh i hi).elim (h.sound i) (hline i)
  · -- marked now, or marked before and then waiting, just followed, or followed earlier
    rcases hd.fresh i hi with hi | hi
    · rcases h.closed i hi with hi | hi
      · rcases List.mem_cons.1 hi with rfl | hi
        · exact .inr fun j hj hlt => hd.found j (mem_successors_iff.2 hj) (h.size_eq ▸ hlt)
        · exact .inl (hd.waits i hi)
      · exact .inr fun j hj hlt => hd.mono j (hi j hj hlt)
    · exact .inl hi

/-- With a round for each offset in line or not yet marked, nothing is left in line. -/
theorem Search.explore {origin : Nat} (fuel : Nat) (h : Search flow origin seen work)
    (hfuel : work.length + seen.count false ≤ fuel) :
    Search flow origin (flow.explore flow.regions fuel seen work) [] := by
  induction fuel generalizing seen work with
  | zero =>
    obtain rfl : work = [] := List.eq_nil_of_length_eq_zero (by omega)
    exact h
  | succ fuel ih =>
    cases work with
    | nil => exact h
    | cons offset rest =>
      have hcount := (discovers_discover seen rest (flow.successors flow.regions offset)).count
      rw [List.length_cons] at hfuel
      exact ih h.round (by omega)

theorem search_reachableFrom (flow : Flow) (origin : Nat) :
    Search flow origin (flow.reachableFrom flow.regions origin) [] := by
  have hd := discovers_discover (Array.replicate flow.routine.size false) [] [origin]
  have hcount := hd.count
  rw [Array.count_replicate_self, List.length_nil, Nat.zero_add] at hcount
  have hnone (i : Nat) : ¬ Marked (Array.replicate flow.routine.size false) i := by
    unfold Marked
    rw [Array.getElem?_replicate]
    split <;> simp
  have hline : ∀ i ∈ (discover (Array.replicate flow.routine.size false) [] [origin]).2,
      flow.Leads origin i := by
    intro i hi
    rcases hd.asked i hi with hi | hi
    · cases hi
    · rw [List.mem_singleton] at hi
      exact hi ▸ .refl
  refine Search.explore flow.routine.size ⟨hd.size_eq.trans Array.size_replicate, fun hlt => ?_,
    hline, fun i hi => ?_, fun i hi => ?_⟩ (Nat.le_of_eq hcount)
  · exact hd.found origin List.mem_cons_self (by rwa [Array.size_replicate])
  · exact hline i ((hd.fresh i hi).resolve_left (hnone i))
  · exact .inl ((hd.fresh i hi).resolve_left (hnone i))

/-- **The search finds exactly the offsets that control can get to.** -/
theorem marked_reachableFrom_iff {origin reader : Nat} (hlt : reader < flow.routine.size) :
    Marked (flow.reachableFrom flow.regions origin) reader ↔ flow.Leads origin reader := by
  have hs := search_reachableFrom flow origin
  refine ⟨hs.sound reader, fun hleads => ?_⟩
  induction hleads with
  | refl => exact hs.begun hlt
  | tail _ hnext ih =>
    -- nothing follows an offset outside the routine
    have hmarked := ih hnext.lt_size
    exact (hs.closed _ hmarked).resolve_left List.not_mem_nil _ hnext hlt

end Search

end Flow

/-! ### The slots found -/

theorem Watched.has_add_iff {s : Watched} {slots : List Int} {slot : Int} :
    (s.add slots).has slot ↔ s.has slot ∨ slot ∈ slots := by
  cases s with
  | all => exact ⟨fun _ => .inl rfl, fun _ => rfl⟩
  | only known =>
    simp only [add, has, SlotMap.contains]
    induction slots generalizing known with
    | nil => simp
    | cons first rest ih =>
      rw [List.foldl_cons, ih (known.insert first ()), SlotMap.get?_insert, List.mem_cons]
      split
      · next heq => simp [heq]
      · next hne => simp [Ne.symm hne]

namespace Flow

variable {flow : Flow} {offset : Nat} {slot : Int}

theorem has_readsAt_iff {s : Watched} (hlt : offset < flow.routine.size) :
    (flow.readsAt offset s).has slot ↔ s.has slot ∨ flow.ReadsSlot offset slot := by
  have hcode : flow.routine.code[offset]? = some flow.routine.code[offset] :=
    Array.getElem?_eq_getElem hlt
  have hreads : flow.ReadsSlot offset slot ↔ flow.routine.code[offset].opcode = .ret ∨
      ∃ a ∈ (flow.effect offset).reads, a.Covers slot := by
    refine ⟨?_, fun h => ⟨_, hcode, h⟩⟩
    rintro ⟨insn, hinsn, h⟩
    obtain rfl := Option.some.inj (hcode.symm.trans hinsn)
    exact h
  rw [hreads]
  unfold readsAt
  rw [hcode]
  dsimp only
  split
  · next hret => exact ⟨fun _ => .inr (.inl hret), fun _ => rfl⟩
  · next hret =>
    rw [Watched.has_add_iff, List.mem_flatMap]
    simp only [SlotAccess.mem_covered_iff, hret, false_or]

/-- **The search reports exactly the slots that are live.** -/
theorem has_readsFrom_iff :
    (flow.readsFrom flow.regions offset).has slot ↔ flow.Live offset slot := by
  -- whatever part of the routine has been gone through, the slots read there are reported
  have hfold : ∀ (l : List Nat) (s : Watched), (∀ i ∈ l, i < flow.routine.size) →
      ((l.foldl (fun s i => if (flow.reachableFrom flow.regions offset).getD i false then
        flow.readsAt i s else s) s).has slot ↔
        s.has slot ∨ ∃ i ∈ l, flow.Leads offset i ∧ flow.ReadsSlot i slot) := by
    intro l
    induction l with
    | nil => simp
    | cons i rest ih =>
      intro s hl
      have hlt := hl i List.mem_cons_self
      rw [List.foldl_cons, ih _ fun j hj => hl j (List.mem_cons_of_mem _ hj)]
      simp only [List.mem_cons, exists_eq_or_imp, ← or_assoc]
      refine or_congr_left ?_
      split
      · next hseen =>
        have hleads := (marked_reachableFrom_iff hlt).1 (getD_eq_true_iff.1 hseen)
        rw [has_readsAt_iff hlt, and_iff_right hleads]
      · next hseen =>
        have hleads : ¬ flow.Leads offset i := fun h =>
          hseen (getD_eq_true_iff.2 ((marked_reachableFrom_iff hlt).2 h))
        exact (or_iff_left fun h => hleads h.1).symm
  unfold readsFrom
  dsimp only
  rw [hfold _ _ fun i hi => List.mem_range.1 hi]
  constructor
  · rintro (h | ⟨reader, -, h⟩)
    · cases h
    · exact ⟨reader, h⟩
  · rintro ⟨reader, hleads, insn, hinsn, hreads⟩
    have hlt := (Array.getElem?_eq_some_iff.1 hinsn).1
    exact .inr ⟨reader, List.mem_range.2 hlt, hleads, insn, hinsn, hreads⟩

end Flow

/-! ### The first write -/

namespace Watch

variable {flow : Flow}

/-- Some handler protecting an offset may read a slot exactly if one of the sets has it. -/
theorem any_protecting_iff {start : Nat} {slot : Int} :
    (((ofFlow flow flow.regions).protecting start).any (·.has slot)) = true ↔
      flow.Observed start slot := by
  simp only [protecting, ofFlow, List.any_map, List.any_filter, List.any_eq_true,
    Function.comp_apply, Bool.and_eq_true, Flow.has_readsFrom_iff]
  constructor
  · rintro ⟨region, hregion, hcontains, hlive⟩
    have hmem := Flow.mem_regions_iff.1 ⟨hregion, show region.contains start by
      simpa [Region.contains] using hcontains⟩
    exact ⟨region, hmem.1, hmem.2, hlive⟩
  · rintro ⟨region, hregion, hcontains, hlive⟩
    have hmem := Flow.mem_regions_iff.2 ⟨hregion, hcontains⟩
    exact ⟨region, hmem.1, by simpa [Region.contains] using hcontains, hlive⟩

theorem writesWatched_iff {start offset : Nat} :
    writesWatched flow ((ofFlow flow flow.regions).protecting start) offset = true ↔
      flow.WritesObserved start offset := by
  unfold writesWatched
  simp only [List.any_eq_true (l := (flow.effect offset).writes),
    List.any_eq_true (l := SlotAccess.covered _), any_protecting_iff, SlotAccess.mem_covered_iff]
  constructor
  · rintro ⟨a, ha, slot, hcovers, hobserved⟩
    exact ⟨slot, ⟨a, ha, hcovers⟩, hobserved⟩
  · rintro ⟨slot, ⟨a, ha, hcovers⟩, hobserved⟩
    exact ⟨a, ha, slot, hcovers, hobserved⟩

theorem firstWrite?_eq_some_iff {start stop i : Nat} :
    (ofFlow flow flow.regions).firstWrite? flow start stop = some i ↔
      IsLeast {i | start ≤ i ∧ i ≤ stop ∧ flow.WritesObserved start i} i := by
  rw [firstWrite?_eq_find?, List.find?_range'_eq_some, List.mem_range'_1]
  simp only [writesWatched_iff, Bool.not_eq_true', ← Bool.not_eq_true, Int.toNat_natCast]
  constructor
  · rintro ⟨hwrites, hrange, hfirst⟩
    refine ⟨⟨hrange.1, by omega, hwrites⟩, fun j hj => ?_⟩
    by_contra hlt
    exact hfirst j hj.1 (Nat.lt_of_not_le hlt) hj.2.2
  · rintro ⟨⟨hlow, hhigh, hwrites⟩, hleast⟩
    refine ⟨hwrites, ⟨hlow, by omega⟩, fun j hj hlt hwrites' => ?_⟩
    exact absurd (hleast ⟨hj, by omega, hwrites'⟩) (Nat.not_le.2 hlt)

theorem firstWrite?_eq_none_iff {start stop : Nat} :
    (ofFlow flow flow.regions).firstWrite? flow start stop = none ↔
      ∀ i, start ≤ i → i ≤ stop → ¬ flow.WritesObserved start i := by
  rw [firstWrite?_eq_find?, List.find?_range'_eq_none]
  simp only [Bool.not_eq_true', ← Bool.not_eq_true, writesWatched_iff, Int.toNat_natCast]
  exact ⟨fun h i hlow hhigh => h i hlow (by omega), fun h i hlow hhigh => h i hlow (by omega)⟩

end Watch

/-- **No instruction of a chosen range writes a slot that a handler protecting it may read.** -/
theorem Chosen.not_writesObserved {flow : Flow} {c : Cut} {start stop offset : Nat}
    (hc : Chosen flow c start stop) (hlow : start ≤ offset) (hhigh : offset < stop) :
    ¬ flow.WritesObserved start offset := by
  rw [← Watch.writesWatched_iff, Bool.not_eq_true]
  exact hc.unwatched offset hlow hhigh

/-! ### Remembering what handlers read -/

namespace Watch

/-- What is known so far of the slots that handlers read, by the offsets of the handlers. -/
structure Recall where
  sets : List (Nat × Watched) := []

namespace Recall

variable {flow : Flow} {m : Recall}

/-- The slots a handler reads, found only if they are not known. -/
def reads (flow : Flow) (m : Recall) (handler : Nat) : Watched × Recall :=
  match m.sets.lookup handler with
  | some known => (known, m)
  | none =>
    let found := flow.readsFrom flow.regions handler
    (found, ⟨(handler, found) :: m.sets⟩)

/-- The slots that the handlers of some blocks read. -/
def readsAll (flow : Flow) (m : Recall) : List Region → List (Region × Watched) × Recall
  | [] => ([], m)
  | region :: rest =>
    let (found, m) := m.reads flow region.handler
    let (others, m) := readsAll flow m rest
    ((region, found) :: others, m)

/-- The first write of a watched slot in a range, where only the handlers that protect its start are
looked at. -/
def firstWrite? (flow : Flow) (m : Recall) (start stop : Nat) : Option Nat × Recall :=
  let (entries, m) := m.readsAll flow (flow.regions.filter (·.contains start))
  ((⟨entries⟩ : Watch).firstWrite? flow start stop, m)

/-- What is known after some queries. -/
def after (flow : Flow) (queries : List (Nat × Nat)) : Recall :=
  queries.foldl (fun m q => (m.firstWrite? flow q.1 q.2).2) {}

/-- Whatever is known is what a search would find. -/
def Right (flow : Flow) (m : Recall) : Prop :=
  ∀ handler known, m.sets.lookup handler = some known →
    known = flow.readsFrom flow.regions handler

theorem Right.reads (h : m.Right flow) (handler : Nat) :
    (m.reads flow handler).1 = flow.readsFrom flow.regions handler ∧
      (m.reads flow handler).2.Right flow := by
  unfold Recall.reads
  cases hknown : m.sets.lookup handler with
  | some known => exact ⟨h handler known hknown, h⟩
  | none =>
    refine ⟨rfl, fun other known hother => ?_⟩
    rw [List.lookup_cons] at hother
    split at hother
    · next heq =>
      rw [← Option.some.inj hother, eq_of_beq heq]
    · exact h other known hother

theorem Right.readsAll (h : m.Right flow) (regions : List Region) :
    (m.readsAll flow regions).1 =
        regions.map (fun region => (region, flow.readsFrom flow.regions region.handler)) ∧
      (m.readsAll flow regions).2.Right flow := by
  induction regions generalizing m with
  | nil => exact ⟨rfl, h⟩
  | cons region rest ih =>
    obtain ⟨hfound, hright⟩ := h.reads region.handler
    obtain ⟨hothers, hright'⟩ := ih hright
    refine ⟨?_, hright'⟩
    change (region, (m.reads flow region.handler).1) ::
      ((m.reads flow region.handler).2.readsAll flow rest).1 = _
    rw [hfound, hothers, List.map_cons]

/-- **A query answered from what is known has the answer that a search gives.** -/
theorem Right.firstWrite? (h : m.Right flow) (start stop : Nat) :
    (m.firstWrite? flow start stop).1 =
        (ofFlow flow flow.regions).firstWrite? flow start stop ∧
      (m.firstWrite? flow start stop).2.Right flow := by
  obtain ⟨hentries, hright⟩ := h.readsAll (flow.regions.filter (·.contains start))
  refine ⟨?_, hright⟩
  have hprotecting : (⟨(m.readsAll flow (flow.regions.filter (·.contains start))).1⟩ :
      Watch).protecting start = (ofFlow flow flow.regions).protecting start := by
    rw [hentries]
    simp only [protecting, ofFlow, List.filter_map, List.map_map, List.filter_filter,
      Function.comp_def, Region.contains, Int.ofNat_le, Int.ofNat_lt, Bool.and_self]
  change (⟨(m.readsAll flow (flow.regions.filter (·.contains start))).1⟩ :
    Watch).firstWrite? flow start stop = _
  rw [firstWrite?_eq_find?, firstWrite?_eq_find?, hprotecting]

theorem right_after (flow : Flow) (queries : List (Nat × Nat)) :
    (after flow queries).Right flow := by
  have hempty : Right flow {} := fun _ _ h => by cases h
  unfold after
  generalize ({} : Recall) = m at hempty ⊢
  induction queries generalizing m with
  | nil => exact hempty
  | cons q rest ih => exact ih _ (hempty.firstWrite? q.1 q.2).2

end Recall

/-- **The first write that a handler would miss.** Whatever was asked before, a survey finds the
first instruction of a range that writes a slot which a handler protecting the start of the range
may read, and none if there is none. So no cut has such an instruction in its range. -/
theorem first_write_observed (flow : Flow) (minSize maxSize : Int) (earlier : List (Nat × Nat)) :
    (∀ start stop : Nat,
      ((Recall.after flow earlier).firstWrite? flow start stop).1 =
          (Survey.make flow minSize maxSize).watch.firstWrite? flow start stop ∧
        (∀ i, (Survey.make flow minSize maxSize).watch.firstWrite? flow start stop = some i ↔
          IsLeast {i | start ≤ i ∧ i ≤ stop ∧ flow.WritesObserved start i} i) ∧
        ((Survey.make flow minSize maxSize).watch.firstWrite? flow start stop = none ↔
          ∀ i, start ≤ i → i ≤ stop → ¬ flow.WritesObserved start i)) ∧
      ((flow.routine.size : Int) ≤ Word.max → ∀ c, (Survey.make flow minSize maxSize).Yields c →
        ∃ start stop : Nat, c.start = start ∧ c.stop = stop ∧
          ∀ offset, start ≤ offset → offset < stop → ¬ flow.WritesObserved start offset) := by
  refine ⟨fun start stop => ⟨?_, fun i => firstWrite?_eq_some_iff, firstWrite?_eq_none_iff⟩,
    fun hsize c hc => ?_⟩
  · exact ((Recall.right_after flow earlier).firstWrite? start stop).1
  · obtain ⟨start, stop, h⟩ := Survey.chosen_of_yields hsize hc
    exact ⟨start, stop, h.start_eq, h.stop_eq hsize, fun offset => h.not_writesObserved⟩

/-- A protected block that writes a slot which its handler reads. -/
def overwriting (slot : Int) : RoutineParts where
  owner := "T"
  name := "f"
  descriptor := "()V"
  access := .static
  code := #[some (.int .bipush 0), some (.slot (.store .int) slot), some (.label ⟨0, "a"⟩),
    some (.int .bipush 1), some (.slot (.store .int) slot), some (.label ⟨1, "b"⟩),
    some (.plain .returnVoid), some (.label ⟨2, "h"⟩), some (.plain .pop),
    some (.slot (.load .int) slot), some (.plain .pop), some (.plain .returnVoid)]
  blocks := [⟨⟨0, "a"⟩, ⟨1, "b"⟩, ⟨2, "h"⟩, ""⟩]
  maxLocals := 0
  maxStack := 1

/-- The block of `overwriting` writes the slot at offset 4. What the handler reads has been asked
for before, and the cut that starts the block ends ahead of the write. -/
theorem first_write_observed_overwriting :
    ∃ r flow c, Routine.make (overwriting 5) = .ok r ∧ Flow.analyze .flat r = .ok flow ∧
      flow.WritesObserved 2 4 ∧
      ((Recall.after flow [(0, 3), (3, 3)]).firstWrite? flow 2 5).1 = some 4 ∧
      (Survey.make flow 2 2).Yields c ∧ c.start = 2 ∧
      ∀ offset : Nat, 2 ≤ offset → offset < c.stop → ¬ flow.WritesObserved 2 offset := by
  have hrun : (Routine.make (overwriting 5)).toOption.any fun r =>
      (Flow.analyze .flat r).toOption.any fun flow =>
        decide (flow.routine.size = 12) &&
        decide ((Survey.make flow 2 2).watch.firstWrite? flow (2 : Nat) (5 : Nat) = some 4) &&
        ((Survey.make flow 2 2).attemptAt 2 : Answer Empty Attempt).toOption.any fun a =>
          a.cut?.any fun c => decide (c.start = 2) := by
    decide +kernel
  obtain ⟨r, hr, hrun⟩ := exists_ok_of_any hrun
  obtain ⟨flow, hflow, hrun⟩ := exists_ok_of_any hrun
  rw [Bool.and_eq_true, Bool.and_eq_true, decide_eq_true_iff, decide_eq_true_iff] at hrun
  obtain ⟨⟨hsize, hfirst⟩, hrun⟩ := hrun
  obtain ⟨a, ha, hrun⟩ := exists_ok_of_any hrun
  obtain ⟨c, hc, hstart⟩ := (Option.any_eq_true _ _).1 hrun
  -- the candidate is one that a survey finds
  have hyields : (Survey.make flow 2 2).Yields c :=
    ⟨2, by change 2 ≤ flow.routine.size; omega, Attempt.cut?_eq_some hc ▸ ha⟩
  obtain ⟨hquery, hcuts⟩ := first_write_observed flow 2 2 [(0, 3), (3, 3)]
  obtain ⟨hrecall, hsome, -⟩ := hquery 2 5
  obtain ⟨start, stop, hcstart, hcstop, hno⟩ := hcuts (by rw [hsize]; decide) c hyields
  have hstart' : c.start = 2 := of_decide_eq_true hstart
  obtain rfl : start = 2 := by omega
  refine ⟨r, flow, c, hr, hflow, ((hsome 4).1 hfirst).1.2.2, hrecall.trans hfirst, hyields, hstart',
    fun offset hlow hhigh => hno offset hlow (by omega)⟩

/-- In `overwriting`, the largest slot number is written by the block and read by the handler, but
the write is not found, and there is a cut with it. -/
theorem write_missed_largest_slot :
    ∃ r flow c region, Routine.make (overwriting Word.max) = .ok r ∧
      Flow.analyze .flat r = .ok flow ∧ region ∈ flow.routine.regions ∧ region.contains 3 ∧
      flow.Leads region.handler 9 ∧ (flow.effect 9).reads = [⟨Word.max, 1⟩] ∧
      (flow.effect 4).writes = [⟨Word.max, 1⟩] ∧
      (Survey.make flow 2 2).watch.firstWrite? flow 3 4 = none ∧
      (Survey.make flow 2 2).Yields c ∧ c.start = 3 ∧ c.stop = 5 := by
  have hrun : (Routine.make (overwriting Word.max)).toOption.any fun r =>
      (Flow.analyze .flat r).toOption.any fun flow =>
        decide (flow.routine.size = 12) &&
        (flow.routine.regions.any fun region => region.contains 3 &&
          decide ((flow.reachableFrom flow.regions region.handler)[9]? = some true)) &&
        decide ((flow.effect 9).reads = [⟨Word.max, 1⟩]) &&
        decide ((flow.effect 4).writes = [⟨Word.max, 1⟩]) &&
        decide ((Survey.make flow 2 2).watch.firstWrite? flow 3 4 = none) &&
        ((Survey.make flow 2 2).attemptAt 3 : Answer Empty Attempt).toOption.any fun a =>
          a.cut?.any fun c => decide (c.start = 3 ∧ c.stop = 5) := by
    decide +kernel
  obtain ⟨r, hr, hrun⟩ := exists_ok_of_any hrun
  obtain ⟨flow, hflow, hrun⟩ := exists_ok_of_any hrun
  simp only [Bool.and_eq_true, decide_eq_true_iff, List.any_eq_true] at hrun
  obtain ⟨⟨⟨⟨⟨hsize, region, hregion, hcontains, hmarked⟩, hreads⟩, hwrites⟩, hnone⟩, hrun⟩ := hrun
  obtain ⟨a, ha, hrun⟩ := exists_ok_of_any hrun
  obtain ⟨c, hc, hrange⟩ := (Option.any_eq_true _ _).1 hrun
  obtain ⟨hstart, hstop⟩ := of_decide_eq_true hrange
  -- the marks of the watch are those of the offsets the handler leads to
  have hleads : flow.Leads region.handler 9 :=
    (Flow.marked_reachableFrom_iff (by omega)).1 hmarked
  exact ⟨r, flow, c, region, hr, hflow, hregion, hcontains, hleads, hreads, hwrites, hnone,
    ⟨3, by change 3 ≤ flow.routine.size; omega, Attempt.cut?_eq_some hc ▸ ha⟩, hstart, hstop⟩

end Watch

end Outliner
