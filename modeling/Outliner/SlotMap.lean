/-!
# Maps from local slots

A `SlotMap` gives a value to finitely many local slots. Its entries are kept in ascending order of
slot, which is the order in which every listing of such a map appears.

* `SlotMap.get?_insert` — inserting changes the value at one slot only.
* `SlotMap.ext_entries` — a map is its list of entries.
-/

namespace Outliner

/-- A finite map from local slots, in ascending order of slot. -/
structure SlotMap (α : Type) where
  /-- The slots with their values. -/
  entries : List (Int × α)
  /-- Slots ascend strictly, so each slot has one value. -/
  ascending : entries.Pairwise fun a b => a.1 < b.1

namespace SlotMap

variable {α β : Type}

theorem ext_entries {m m' : SlotMap α} (h : m.entries = m'.entries) : m = m' := by
  cases m; cases m'; cases h; rfl

instance [DecidableEq α] : DecidableEq (SlotMap α) := fun m m' =>
  if h : m.entries = m'.entries then isTrue (ext_entries h)
  else isFalse fun e => h (congrArg entries e)

instance [Repr α] : Repr (SlotMap α) where
  reprPrec m := reprPrec m.entries

/-- The map without any slot. -/
def empty : SlotMap α := ⟨[], .nil⟩

instance : Inhabited (SlotMap α) := ⟨empty⟩

/-- The value of the first entry for the slot. -/
def lookupIn (slot : Int) : List (Int × α) → Option α
  | [] => none
  | (s, a) :: rest => if s = slot then some a else lookupIn slot rest

/-- The value at a slot, if it has one. -/
def get? (m : SlotMap α) (slot : Int) : Option α :=
  lookupIn slot m.entries

/-- Whether the slot has a value. -/
def contains (m : SlotMap α) (slot : Int) : Bool :=
  (m.get? slot).isSome

/-- Ordered insertion into a list of entries. -/
def insertIn (slot : Int) (a : α) : List (Int × α) → List (Int × α)
  | [] => [(slot, a)]
  | (s, b) :: rest =>
    if slot < s then (slot, a) :: (s, b) :: rest
    else if s = slot then (slot, a) :: rest
    else (s, b) :: insertIn slot a rest

theorem mem_insertIn {slot : Int} {a : α} {l : List (Int × α)} {e : Int × α}
    (h : e ∈ insertIn slot a l) : e = (slot, a) ∨ e ∈ l := by
  induction l with
  | nil => simpa [insertIn] using h
  | cons b rest ih =>
    obtain ⟨s, b⟩ := b
    unfold insertIn at h
    split at h
    · simpa using h
    · split at h
      · rcases List.mem_cons.1 h with h | h
        · exact .inl h
        · exact .inr (List.mem_cons_of_mem _ h)
      · rcases List.mem_cons.1 h with h | h
        · exact .inr (h ▸ List.mem_cons_self)
        · rcases ih h with h | h
          · exact .inl h
          · exact .inr (List.mem_cons_of_mem _ h)

theorem pairwise_insertIn {slot : Int} {a : α} {l : List (Int × α)}
    (h : l.Pairwise fun a b => a.1 < b.1) :
    (insertIn slot a l).Pairwise fun a b => a.1 < b.1 := by
  induction l with
  | nil => simp [insertIn]
  | cons b rest ih =>
    obtain ⟨s, b⟩ := b
    have hrest := List.pairwise_cons.1 h
    unfold insertIn
    split
    · rename_i hlt
      refine List.pairwise_cons.2 ⟨fun e he => ?_, h⟩
      rcases List.mem_cons.1 he with rfl | he
      · exact hlt
      · exact Int.lt_trans hlt (hrest.1 e he)
    · split
      · rename_i heq
        subst heq
        exact List.pairwise_cons.2 ⟨fun e he => hrest.1 e he, hrest.2⟩
      · rename_i hnlt hne
        refine List.pairwise_cons.2 ⟨fun e he => ?_, ih hrest.2⟩
        rcases mem_insertIn he with rfl | he
        · show s < slot
          omega
        · exact hrest.1 e he

/-- The map with the slot holding `a`. -/
def insert (m : SlotMap α) (slot : Int) (a : α) : SlotMap α :=
  ⟨insertIn slot a m.entries, pairwise_insertIn m.ascending⟩

/-- The slots that have a value, in ascending order. -/
def slots (m : SlotMap α) : List Int :=
  m.entries.map (·.1)

/-- The slots with their values, in ascending order of slot. -/
def toList (m : SlotMap α) : List (Int × α) :=
  m.entries

/-- The number of slots that have a value. -/
def size (m : SlotMap α) : Nat :=
  m.entries.length

/-- Changes every value, given its slot. -/
def mapWithSlot (f : Int → α → β) (m : SlotMap α) : SlotMap β where
  entries := m.entries.map fun e => (e.1, f e.1 e.2)
  ascending := List.pairwise_map.2 m.ascending

/-- Inserts the given entries one after the other. -/
def ofList (l : List (Int × α)) : SlotMap α :=
  l.foldl (fun m e => m.insert e.1 e.2) empty

theorem lookupIn_insertIn (slot slot' : Int) (a : α) (l : List (Int × α))
    (h : l.Pairwise fun a b => a.1 < b.1) :
    lookupIn slot' (insertIn slot a l) = if slot = slot' then some a else lookupIn slot' l := by
  induction l with
  | nil => simp [insertIn, lookupIn]
  | cons b rest ih =>
    obtain ⟨s, b⟩ := b
    have hrest := List.pairwise_cons.1 h
    unfold insertIn
    split
    · simp [lookupIn]
    · split
      · rename_i heq
        subst heq
        by_cases hs : s = slot' <;> simp [lookupIn, hs]
      · rename_i hnlt hne
        simp only [lookupIn, ih hrest.2]
        by_cases hs : s = slot'
        · subst hs
          simp [Ne.symm hne]
        · simp [hs]

/-- Inserting changes the value at one slot and no other. -/
@[simp] theorem get?_insert (m : SlotMap α) (slot slot' : Int) (a : α) :
    (m.insert slot a).get? slot' = if slot = slot' then some a else m.get? slot' :=
  lookupIn_insertIn slot slot' a m.entries m.ascending

@[simp] theorem get?_empty (slot : Int) : (empty : SlotMap α).get? slot = none := rfl

theorem lookupIn_map (f : Int → α → β) (slot : Int) (l : List (Int × α)) :
    lookupIn slot (l.map fun e => (e.1, f e.1 e.2)) = (lookupIn slot l).map (f slot) := by
  induction l with
  | nil => rfl
  | cons b rest ih =>
    obtain ⟨s, b⟩ := b
    simp only [List.map_cons, lookupIn, ih]
    by_cases h : s = slot
    · subst h; simp
    · simp [h]

/-- Changing the values changes what each slot holds. -/
@[simp] theorem get?_mapWithSlot (f : Int → α → β) (m : SlotMap α) (slot : Int) :
    (m.mapWithSlot f).get? slot = (m.get? slot).map (f slot) :=
  lookupIn_map f slot m.entries

end SlotMap

end Outliner
