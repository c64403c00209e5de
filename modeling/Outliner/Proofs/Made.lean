import Mathlib.Data.List.Forall2
import Outliner.Routine

/-!
# What checking a routine establishes

A routine comes from `Routine.make`, which records where each label stands and which instruction
ranges the protected blocks cover. `Routine.Made` says that a routine came from there, and the
lemmas here say what its tables hold:

* `Routine.Checked.offset?_eq_some_iff` — a label is resolved to the one place where it stands;
* `Routine.Checked.targets` — every label an instruction jumps to is resolved;
* `Routine.Checked.regions` — every block is resolved by its three labels, in order.

`Routine.exists_make` is the converse: parts whose labels stand once each, whose targets and bounds
are all placed, and whose blocks do not end before they start, make a routine.
-/

namespace Outliner

/-- A computation whose outcome passes a test has an outcome. -/
theorem exists_ok_of_any {ε α : Type} {x : Except ε α} {test : α → Bool}
    (h : x.toOption.any test = true) : ∃ a, x = .ok a ∧ test a = true := by
  cases x with
  | ok a => exact ⟨a, rfl, h⟩
  | error e => cases h

namespace Routine

/-- The routine was made from parts. -/
def Made (r : Routine) : Prop := ∃ parts, make parts = .ok r

/-- The identities of the labels that instructions place, in order. -/
def placedIds (code : List Instruction) : List Nat :=
  code.filterMap fun insn => insn.placed?.map Label.id

/-- Where the label with an identity is placed, counting from an offset. -/
def placeOf (offset : Nat) (code : List Instruction) (id : Nat) : Option Nat :=
  (code.findIdx? fun insn => insn.placed?.any (·.id = id)).map (offset + ·)

theorem placeOf_nil (offset id : Nat) : placeOf offset [] id = none := rfl

theorem placeOf_cons (offset id : Nat) (insn : Instruction) (code : List Instruction) :
    placeOf offset (insn :: code) id =
      if insn.placed?.any (·.id = id) then some offset else placeOf (offset + 1) code id := by
  unfold placeOf
  rw [List.findIdx?_cons]
  split
  · simp
  · cases List.findIdx? _ code <;> simp [Nat.add_comm, Nat.add_left_comm]

theorem any_placed_iff {insn : Instruction} {id : Nat} :
    insn.placed?.any (·.id = id) = true ↔ ∃ l, insn = .label l ∧ l.id = id := by
  cases insn <;> simp [Instruction.placed?]

theorem mem_placedIds {code : List Instruction} {id : Nat} :
    id ∈ placedIds code ↔ ∃ l, .label l ∈ code ∧ l.id = id := by
  unfold placedIds
  rw [List.mem_filterMap]
  constructor
  · rintro ⟨insn, hmem, hid⟩
    obtain ⟨l, hl, rfl⟩ := Option.map_eq_some_iff.1 hid
    cases insn <;> simp [Instruction.placed?] at hl
    subst hl
    exact ⟨_, hmem, rfl⟩
  · rintro ⟨l, hmem, rfl⟩
    exact ⟨.label l, hmem, rfl⟩

theorem placedIds_append (code code' : List Instruction) :
    placedIds (code ++ code') = placedIds code ++ placedIds code' :=
  List.filterMap_append

theorem placedIds_cons_label (l : Label) (code : List Instruction) :
    placedIds (.label l :: code) = l.id :: placedIds code := rfl

theorem placedIds_cons_of_placed?_eq_none {insn : Instruction} (h : insn.placed? = none)
    (code : List Instruction) : placedIds (insn :: code) = placedIds code := by
  simp [placedIds, h]

theorem placeOf_eq_none_iff {code : List Instruction} {offset id : Nat} :
    placeOf offset code id = none ↔ id ∉ placedIds code := by
  unfold placeOf
  rw [Option.map_eq_none_iff, List.findIdx?_eq_none_iff, mem_placedIds]
  constructor
  · rintro h ⟨l, hmem, rfl⟩
    exact absurd (h _ hmem) (by simp [Instruction.placed?])
  · intro h insn hmem
    rw [Bool.eq_false_iff]
    intro hany
    obtain ⟨l, rfl, rfl⟩ := any_placed_iff.1 hany
    exact h ⟨l, hmem, rfl⟩

/-- A label that stands somewhere in code whose labels are all different is placed there. -/
theorem placeOf_of_getElem? {code : List Instruction} (nodup : (placedIds code).Nodup)
    (offset : Nat) {j : Nat} {l : Label} (h : code[j]? = some (.label l)) :
    placeOf offset code l.id = some (offset + j) := by
  induction code generalizing offset j with
  | nil => simp at h
  | cons insn code ih =>
    rw [placeOf_cons]
    cases j with
    | zero =>
      obtain rfl : insn = .label l := by simpa using h
      simp [Instruction.placed?]
    | succ j =>
      have hmem : l.id ∈ placedIds code :=
        mem_placedIds.2 ⟨l, List.mem_of_getElem? (by simpa using h), rfl⟩
      have hnot : ¬ insn.placed?.any (·.id = l.id) = true := by
        intro hany
        obtain ⟨l', rfl, hid⟩ := any_placed_iff.1 hany
        rw [placedIds_cons_label, hid] at nodup
        exact (List.nodup_cons.1 nodup).1 hmem
      have nodup' : (placedIds code).Nodup := nodup.sublist (by
        cases hp : insn.placed? <;> simp [placedIds, hp])
      rw [if_neg hnot, ih nodup' (offset + 1) (by simpa using h)]
      congr 1
      omega

theorem placeOf_zero_of_getElem? {code : List Instruction} (nodup : (placedIds code).Nodup)
    {j : Nat} {l : Label} (h : code[j]? = some (.label l)) : placeOf 0 code l.id = some j := by
  have := placeOf_of_getElem? nodup 0 h
  rwa [Nat.zero_add] at this

theorem exists_of_placeOf {code : List Instruction} {offset id k : Nat}
    (h : placeOf offset code id = some k) :
    ∃ j l, k = offset + j ∧ code[j]? = some (.label l) ∧ l.id = id := by
  unfold placeOf at h
  obtain ⟨j, hj, rfl⟩ := Option.map_eq_some_iff.1 h
  obtain ⟨hlt, hany, -⟩ := List.findIdx?_eq_some_iff_getElem.1 hj
  obtain ⟨l, hl, rfl⟩ := any_placed_iff.1 hany
  exact ⟨j, l, rfl, by rw [List.getElem?_eq_getElem hlt, hl], rfl⟩

/-! ### The label table -/

theorem placeLabels_cons_of_placed?_eq_none {key : String} {insn : Instruction}
    (h : insn.placed? = none) (offset : Nat) (rest : List (Option Instruction))
    (table : LabelTable) :
    placeLabels key offset (some insn :: rest) table = placeLabels key (offset + 1) rest table := by
  cases insn <;> first | rfl | simp [Instruction.placed?] at h

/-- **What the label table holds**: the labels recorded before, and each label of the code at its
place. None of the latter was known before or stands twice, and no place is empty. -/
theorem placeLabels_ok {key : String} {places : List (Option Instruction)} {offset : Nat}
    {known table : LabelTable} (h : placeLabels key offset places known = .ok table) :
    ∃ code : List Instruction, places = code.map some ∧ (placedIds code).Nodup ∧
      (∀ id ∈ placedIds code, known[id]? = none) ∧
      ∀ id, table[id]? = (known[id]?).or (placeOf offset code id) := by
  induction places generalizing offset known with
  | nil =>
    simp only [placeLabels, Except.ok.injEq] at h
    subst h
    exact ⟨[], rfl, List.nodup_nil, by simp [placedIds], fun id => by simp [placeOf_nil]⟩
  | cons place rest ih =>
    cases place with
    | none => simp [placeLabels] at h
    | some insn =>
      -- only a label changes the table
      cases hp : insn.placed? with
      | none =>
        rw [placeLabels_cons_of_placed?_eq_none hp] at h
        obtain ⟨code, rfl, hnodup, hnew, htable⟩ := ih h
        refine ⟨insn :: code, rfl, ?_, ?_, fun id => ?_⟩
        · rwa [placedIds_cons_of_placed?_eq_none hp]
        · rwa [placedIds_cons_of_placed?_eq_none hp]
        · rw [htable, placeOf_cons, hp]
          rfl
      | some l =>
        obtain rfl : insn = .label l := by cases insn <;> simp_all [Instruction.placed?]
        unfold placeLabels at h
        split at h
        · cases h
        · next hnone =>
          obtain ⟨code, rfl, hnodup, hnew, htable⟩ := ih h
          -- a label that is placed again further on would be refused there
          have hfresh : l.id ∉ placedIds code := fun hmem => by
            simpa using hnew _ hmem
          rw [Std.TreeMap.get?_eq_getElem?] at hnone
          refine ⟨.label l :: code, rfl, ?_, ?_, fun id => ?_⟩
          · rw [placedIds_cons_label]
            exact List.nodup_cons.2 ⟨hfresh, hnodup⟩
          · rw [placedIds_cons_label]
            intro id hid
            rcases List.mem_cons.1 hid with rfl | hid
            · exact hnone
            · have hne : l.id ≠ id := fun he => hfresh (he ▸ hid)
              simpa [Std.TreeMap.getElem?_insert, hne] using hnew id hid
          · rw [htable, placeOf_cons, Std.TreeMap.getElem?_insert]
            by_cases he : l.id = id
            · subst he
              simp [Instruction.placed?, hnone]
            · simp [Instruction.placed?, he]

/-- Labels that stand once each, and were not known before, can all be placed. -/
theorem exists_placeLabels (key : String) {code : List Instruction} {offset : Nat}
    {known : LabelTable} (nodup : (placedIds code).Nodup)
    (fresh : ∀ id ∈ placedIds code, known[id]? = none) :
    ∃ table, placeLabels key offset (code.map some) known = .ok table := by
  induction code generalizing offset known with
  | nil => exact ⟨known, rfl⟩
  | cons insn code ih =>
    cases hp : insn.placed? with
    | none =>
      rw [placedIds_cons_of_placed?_eq_none hp] at nodup fresh
      rw [List.map_cons, placeLabels_cons_of_placed?_eq_none hp]
      exact ih nodup fresh
    | some l =>
      obtain rfl : insn = .label l := by cases insn <;> simp_all [Instruction.placed?]
      rw [placedIds_cons_label] at nodup fresh
      obtain ⟨hnot, nodup⟩ := List.nodup_cons.1 nodup
      have hnone : known.get? l.id = none := fresh _ List.mem_cons_self
      rw [List.map_cons, placeLabels, hnone]
      refine ih nodup fun id hid => ?_
      have hne : l.id ≠ id := fun he => hnot (he ▸ hid)
      simpa [Std.TreeMap.getElem?_insert, hne] using fresh id (List.mem_cons_of_mem _ hid)

/-! ### Targets and blocks -/

theorem checkTargets_ok_iff {key : String} {table : LabelTable} {offset : Nat}
    {code : List Instruction} :
    checkTargets key table offset code = .ok () ↔
      ∀ insn ∈ code, ∀ l ∈ insn.targets, ∃ k, table[l.id]? = some k := by
  induction code generalizing offset with
  | nil => simp [checkTargets]
  | cons insn code ih =>
    unfold checkTargets
    cases hf : insn.targets.find? fun l => !table.contains l.id with
    | some l =>
      have hl := List.find?_some hf
      have hmem := List.mem_of_find?_eq_some hf
      rw [Std.TreeMap.contains_eq_isSome_getElem?] at hl
      refine ⟨fun h => (nomatch h), fun h => ?_⟩
      obtain ⟨k, hk⟩ := h insn List.mem_cons_self l hmem
      simp [hk] at hl
    | none =>
      rw [ih, List.forall_mem_cons]
      refine (and_iff_right fun l hl => ?_).symm
      have hc := List.find?_eq_none.1 hf l hl
      rw [Std.TreeMap.contains_eq_isSome_getElem?] at hc
      exact Option.isSome_iff_exists.1 (by simpa using hc)

/-- The offsets of a region are those of the labels of a block, under a given resolution. -/
structure Resolves (place : Nat → Option Nat) (b : TryCatch) (region : Region) : Prop where
  start : place b.start.id = some region.start
  stop : place b.stop.id = some region.stop
  handler : place b.handler.id = some region.handler
  type : region.type = b.type
  ordered : region.start ≤ region.stop

theorem resolveBlocks_ok {key : String} {table : LabelTable} {index : Nat}
    {blocks : List TryCatch} {regions : List Region}
    (h : resolveBlocks key table index blocks = .ok regions) :
    List.Forall₂ (Resolves fun id => table[id]?) blocks regions := by
  induction blocks generalizing index regions with
  | nil =>
    simp only [resolveBlocks, Except.ok.injEq] at h
    subst h
    exact .nil
  | cons b rest ih =>
    unfold resolveBlocks at h
    split at h
    · next start stop handler hstart hstop hhandler =>
      split at h
      · cases h
      · next hle =>
        split at h
        · next regions' hrest =>
          obtain rfl := Except.ok.inj h
          exact .cons ⟨hstart, hstop, hhandler, rfl, by simpa using hle⟩ (ih hrest)
        · cases h
    · cases h

/-- Blocks whose bounds are placed, and which do not end before they start, are all resolved. -/
theorem exists_resolveBlocks (key : String) {table : LabelTable} {blocks : List TryCatch}
    (h : ∀ b ∈ blocks, ∃ region, Resolves (fun id => table[id]?) b region) (index : Nat) :
    ∃ regions, resolveBlocks key table index blocks = .ok regions := by
  induction blocks generalizing index with
  | nil => exact ⟨[], rfl⟩
  | cons b rest ih =>
    obtain ⟨region, hb⟩ := h b List.mem_cons_self
    obtain ⟨regions, hrest⟩ := ih (fun b hb => h b (List.mem_cons_of_mem _ hb)) (index + 1)
    refine ⟨⟨region.start, region.stop, region.handler, b.type⟩ :: regions, ?_⟩
    have hstart : table.get? b.start.id = some region.start := hb.start
    have hstop : table.get? b.stop.id = some region.stop := hb.stop
    have hhandler : table.get? b.handler.id = some region.handler := hb.handler
    have hle : ¬ region.stop < region.start := Nat.not_lt.2 hb.ordered
    simp only [resolveBlocks, hstart, hstop, hhandler, hle, if_false, hrest]

/-! ### Routines -/

/-- **What the tables of a made routine hold.** -/
structure Checked (r : Routine) : Prop where
  signature : Signature.parse r.descriptor = .ok r.signature
  nodup : (placedIds r.code.toList).Nodup
  offset?_eq : ∀ l, r.offset? l = placeOf 0 r.code.toList l.id
  targets : ∀ insn ∈ r.code, ∀ l ∈ insn.targets, ∃ k, r.offset? l = some k
  regions : List.Forall₂ (Resolves fun id => placeOf 0 r.code.toList id) r.blocks r.regions
  argumentsSize_le : (r.argumentsSize : Int) ≤ r.maxLocals

theorem filterMap_id_of_toList {places : Array (Option Instruction)} {code : List Instruction}
    (h : places.toList = code.map some) : (places.filterMap id).toList = code := by
  rw [Array.toList_filterMap, h, List.filterMap_map]
  simp

/-- What making a routine keeps of its parts. -/
theorem make_ok {p : RoutineParts} {r : Routine} (h : make p = .ok r) :
    r.Checked ∧ p.code.toList = r.code.toList.map some ∧ r.owner = p.owner ∧ r.name = p.name ∧
      r.descriptor = p.descriptor ∧ r.access = p.access ∧ r.blocks = p.blocks ∧
      r.maxLocals = max p.maxLocals r.argumentsSize ∧ r.maxStack = p.maxStack := by
  unfold make at h
  split at h
  · cases h
  next signature hsig =>
  split at h
  · cases h
  next labels hlabels =>
  dsimp only at h
  split at h
  · cases h
  next htargets =>
  split at h
  · cases h
  next regions hregions =>
  obtain rfl := Except.ok.inj h
  obtain ⟨code, hcode, hnodup, -, htable⟩ := placeLabels_ok hlabels
  have hlist := filterMap_id_of_toList hcode
  -- the table starts out empty, so it holds the placed labels and nothing else
  have htable : ∀ id, labels[id]? = placeOf 0 code id := fun id => by
    rw [htable]
    simp
  have hargs : ((Signature.argumentsSize signature + if p.access.has .static then 0 else 1 : Nat)
      : Int) = (Signature.argumentsSize signature : Int) +
        ((if p.access.has .static then 0 else 1 : Nat) : Int) := by
    push_cast
    rfl
  refine ⟨⟨hsig, ?_, ?_, ?_, ?_, ?_⟩, ?_, rfl, rfl, rfl, rfl, rfl, ?_, rfl⟩
  · rwa [hlist]
  · intro l
    rw [hlist]
    exact htable l.id
  · intro insn hinsn l hl
    rw [← Array.mem_toList_iff] at hinsn
    exact checkTargets_ok_iff.1 htargets insn hinsn l hl
  · rw [hlist]
    exact (resolveBlocks_ok hregions).imp fun b region hb => by
      simpa only [htable] using hb
  · exact hargs ▸ Int.le_max_right _ _
  · rw [hlist]
    exact hcode
  · change max p.maxLocals _ = max p.maxLocals _
    rw [← hargs]
    rfl

theorem Made.checked {r : Routine} (h : r.Made) : r.Checked := by
  obtain ⟨p, hp⟩ := h
  exact (make_ok hp).1

/-- **Parts that make a routine**: the descriptor can be read, labels stand once each, and targets
and blocks are placed. -/
theorem exists_make {p : RoutineParts} {signature : Signature} {code : List Instruction}
    (hsig : Signature.parse p.descriptor = .ok signature) (hcode : p.code.toList = code.map some)
    (nodup : (placedIds code).Nodup)
    (targets : ∀ insn ∈ code, ∀ l ∈ insn.targets, l.id ∈ placedIds code)
    (blocks : ∀ b ∈ p.blocks, ∃ region, Resolves (placeOf 0 code) b region) :
    ∃ r, make p = .ok r := by
  obtain ⟨table, htable⟩ : ∃ table, placeLabels p.key 0 (code.map some) ∅ = .ok table :=
    exists_placeLabels p.key nodup (by simp)
  obtain ⟨code', hcode', -, -, hget⟩ := placeLabels_ok htable
  obtain rfl : code' = code := List.map_injective_iff.2 (fun _ _ => Option.some.inj) hcode'.symm
  -- every check is about the table, which holds exactly the labels of the code
  have hget : ∀ id, table[id]? = placeOf 0 code' id := fun id => by
    rw [hget]
    simp
  have hlist := filterMap_id_of_toList hcode
  have hcheck : checkTargets p.key table 0 (p.code.filterMap id).toList = .ok () := by
    rw [checkTargets_ok_iff, hlist]
    intro insn hinsn l hl
    rw [hget]
    cases hplace : placeOf 0 code' l.id with
    | some k => exact ⟨k, rfl⟩
    | none => exact absurd (targets insn hinsn l hl) (placeOf_eq_none_iff.1 hplace)
  have hbounds : ∀ b ∈ p.blocks, ∃ region, Resolves (fun id => table[id]?) b region :=
    fun b hb => by simpa only [hget] using blocks b hb
  obtain ⟨regions, hregions⟩ := exists_resolveBlocks p.key hbounds 0
  rw [← hcode] at htable
  simp only [make, hsig, htable, hcheck, hregions]
  exact ⟨_, rfl⟩

namespace Checked

variable {r : Routine}

theorem offset?_eq_some_iff (h : r.Checked) {l : Label} {k : Nat} :
    r.offset? l = some k ↔ ∃ l', r.code[k]? = some (.label l') ∧ l'.id = l.id := by
  rw [h.offset?_eq]
  constructor
  · intro hk
    obtain ⟨j, l', rfl, hj, hid⟩ := exists_of_placeOf hk
    exact ⟨l', by simpa using hj, hid⟩
  · rintro ⟨l', hk, hid⟩
    rw [← hid]
    exact placeOf_zero_of_getElem? h.nodup (by simpa using hk)

theorem offset?_lt (h : r.Checked) {l : Label} {k : Nat} (hk : r.offset? l = some k) :
    k < r.size := by
  obtain ⟨l', hl', -⟩ := h.offset?_eq_some_iff.1 hk
  exact (Array.getElem?_eq_some_iff.1 hl').1

theorem mem_targetOffsets (h : r.Checked) {insn : Instruction} {k : Nat}
    (hk : k ∈ r.targetOffsets insn) : k < r.size := by
  obtain ⟨l, -, hl⟩ := List.mem_filterMap.1 hk
  exact h.offset?_lt hl

/-- Every region comes from a block. -/
theorem exists_block (h : r.Checked) {region : Region} (hr : region ∈ r.regions) :
    ∃ b ∈ r.blocks, Resolves (fun id => placeOf 0 r.code.toList id) b region := by
  obtain ⟨hlen, hget⟩ := List.forall₂_iff_get.1 h.regions
  obtain ⟨i, hi, rfl⟩ := List.mem_iff_getElem.1 hr
  exact ⟨_, List.getElem_mem (hlen ▸ hi), hget i (hlen ▸ hi) hi⟩

/-- The handler of a region is the offset of a label. -/
theorem handler_lt (h : r.Checked) {region : Region} (hr : region ∈ r.regions) :
    region.handler < r.size := by
  obtain ⟨b, -, hb⟩ := h.exists_block hr
  obtain ⟨j, l', hj, hl', -⟩ := exists_of_placeOf hb.handler
  obtain ⟨hlt, -⟩ := List.getElem?_eq_some_iff.1 hl'
  rw [hj, Nat.zero_add]
  simpa [Routine.size] using hlt

/-- The end of a region is the offset of a label that does not stand before its start. -/
theorem stop_lt (h : r.Checked) {region : Region} (hr : region ∈ r.regions) :
    region.start ≤ region.stop ∧ region.stop < r.size := by
  obtain ⟨b, -, hb⟩ := h.exists_block hr
  obtain ⟨j, l', hj, hl', -⟩ := exists_of_placeOf hb.stop
  obtain ⟨hlt, -⟩ := List.getElem?_eq_some_iff.1 hl'
  refine ⟨hb.ordered, ?_⟩
  rw [hj, Nat.zero_add]
  simpa [Routine.size] using hlt

end Checked

end Routine

end Outliner
