import Mathlib.Data.List.Basic
import Outliner.SlotMap

/-!
# Reading slot maps

A `SlotMap` is a sorted list of entries, and nothing outside its own module unfolds it. The facts
here say what its entries, its slots and the map made from a list of entries hold, in terms of
`SlotMap.get?` alone.
-/

namespace Outliner.SlotMap

variable {α : Type}

/-- The entries of a map are the slots that have a value, each with its value. -/
theorem mem_entries_iff (m : SlotMap α) (index : Int) (a : α) :
    (index, a) ∈ m.entries ↔ m.get? index = some a := by
  obtain ⟨l, hl⟩ := m
  unfold get?
  induction l with
  | nil => simp [lookupIn]
  | cons e rest ih =>
    obtain ⟨s, b⟩ := e
    obtain ⟨hhead, hrest⟩ := List.pairwise_cons.1 hl
    simp only [List.mem_cons, Prod.mk.injEq, lookupIn, ih hrest]
    by_cases hs : s = index
    · subst hs
      -- no later entry has the slot of the first one
      have hnone : lookupIn s rest ≠ some a := fun hsome =>
        absurd (hhead _ ((ih hrest).2 hsome)) (by simp)
      simp [hnone, eq_comm]
    · simp [hs, Ne.symm hs]

/-- No slot is listed twice. -/
theorem nodup_keys (m : SlotMap α) : (m.toList.map (·.1)).Nodup :=
  List.pairwise_map.2 (m.ascending.imp fun h => Int.ne_of_lt h)

/-- A map made from a list holds entries of the list only. -/
theorem mem_of_mem_ofList {l : List (Int × α)} {e : Int × α} (h : e ∈ (ofList l).entries) :
    e ∈ l := by
  suffices hfold : ∀ m : SlotMap α, e ∈ (l.foldl (fun m e => m.insert e.1 e.2) m).entries →
      e ∈ m.entries ∨ e ∈ l by
    rcases hfold empty h with hempty | hl
    · cases hempty
    · exact hl
  clear h
  induction l with
  | nil => exact fun m h => .inl h
  | cons first rest ih =>
    intro m h
    rcases ih _ h with hm | hrest
    · rcases mem_insertIn hm with rfl | hm
      · exact .inr List.mem_cons_self
      · exact .inl hm
    · exact .inr (List.mem_cons_of_mem _ hrest)

end Outliner.SlotMap
