import Outliner.Outline
import Outliner.Proofs.Made

/-!
# Splicing code

A splice replaces the instructions from `start` up to `stop` by others and leaves the frame markers
of the rest out. What is left of the rest keeps its order, so it is enough to count: an instruction
that stays goes to the number of instructions that stay before it, plus the length of what was put
in when it comes after the range.

Labels move with their instruction. Those of the range that are `kept` stand in front of what is
`inserted`. `Splice.Lands` says where a label that is still there has gone, and what follows for the
offsets in between is arithmetic: `Lands.le_relocate_iff` and `Lands.le_entry_add_iff`.
-/

namespace Outliner

open Outline

/-! ### Counting what stays -/

/-- The number of instructions that stay among the first `i`. -/
def rank (code : List Instruction) (i : Nat) : Nat :=
  (staying (code.take i)).length

section Rank

variable {code : List Instruction} {i j : Nat} {insn : Instruction}

/-- An instruction that stays is found at its rank. -/
theorem getElem?_staying (h : code[i]? = some insn) (hne : insn ≠ .frame) :
    (staying code)[rank code i]? = some insn := by
  obtain ⟨hlt, rfl⟩ := List.getElem?_eq_some_iff.1 h
  have hsplit : staying code = staying (code.take i) ++ staying (code.drop i) := by
    unfold staying
    rw [← List.filter_append, List.take_append_drop]
  rw [hsplit, rank, List.getElem?_append_right (Nat.le_refl _), Nat.sub_self,
    List.drop_eq_getElem_cons hlt, staying, List.filter_cons_of_pos (by simpa using hne)]
  rfl

theorem rank_mono (code : List Instruction) (h : i ≤ j) : rank code i ≤ rank code j := by
  have : (code.take i).Sublist (code.take j) := List.take_sublist_take_left h
  exact (this.filter _).length_le

theorem rank_succ (h : code[i]? = some insn) (hne : insn ≠ .frame) :
    rank code (i + 1) = rank code i + 1 := by
  obtain ⟨hi, rfl⟩ := List.getElem?_eq_some_iff.1 h
  unfold rank staying
  rw [List.take_succ_eq_append_getElem hi, List.filter_append, List.length_append,
    List.filter_cons_of_pos (by simpa using hne)]
  rfl

theorem rank_succ_of_frame (h : code[i]? = some .frame) : rank code (i + 1) = rank code i := by
  obtain ⟨hi, hframe⟩ := List.getElem?_eq_some_iff.1 h
  unfold rank staying
  rw [List.take_succ_eq_append_getElem hi, List.filter_append, hframe]
  simp

theorem rank_lt_rank (h : code[i]? = some insn) (hne : insn ≠ .frame) (hlt : i < j) :
    rank code i < rank code j := by
  have hstep := rank_succ h hne
  have := rank_mono code (show i + 1 ≤ j from hlt)
  omega

theorem rank_take (h : i ≤ j) : rank (code.take j) i = rank code i := by
  unfold rank
  rw [List.take_take, Nat.min_eq_left h]

/-- Whatever stays has its rank. -/
theorem exists_rank (code : List Instruction) {k : Nat} (h : k < (staying code).length) :
    ∃ i insn, code[i]? = some insn ∧ insn ≠ .frame ∧ rank code i = k := by
  induction code generalizing k with
  | nil => simp [staying] at h
  | cons first rest ih =>
    by_cases hf : first = .frame
    · obtain ⟨i, insn, hi, hne, hk⟩ := ih (k := k) (by simpa [staying, hf] using h)
      exact ⟨i + 1, insn, hi, hne, by simpa [rank, staying, hf] using hk⟩
    · cases k with
      | zero => exact ⟨0, first, rfl, hf, rfl⟩
      | succ k =>
        obtain ⟨i, insn, hi, hne, hk⟩ := ih (k := k) (by simpa [staying, hf] using h)
        exact ⟨i + 1, insn, hi, hne, by simpa [rank, staying, hf] using hk⟩

end Rank

/-! ### Splices -/

/-- Code with a range of it replaced. -/
structure Splice where
  code : List Instruction
  /-- The first instruction replaced. -/
  start : Nat
  /-- The first instruction after those replaced. -/
  stop : Nat
  /-- The labels of the range that stay. -/
  kept : List Instruction
  /-- What takes the place of the range. -/
  inserted : List Instruction

namespace Splice

variable (s : Splice)

/-- The code after the replacement. -/
def result : List Instruction :=
  staying (s.code.take s.start) ++ s.kept ++ s.inserted ++ staying (s.code.drop s.stop)

/-- Whether the instruction at an offset stays: it is outside the range and no frame marker. -/
def Stays (i : Nat) : Prop :=
  (i < s.start ∨ s.stop ≤ i) ∧ ∃ insn, s.code[i]? = some insn ∧ insn ≠ .frame

/-- Where the inserted instructions begin. -/
def entry : Nat := rank s.code s.start + s.kept.length

/-- Where an instruction that stays goes. -/
def relocate (i : Nat) : Nat :=
  if i < s.start then rank s.code i
  else s.entry + s.inserted.length + rank (s.code.drop s.stop) (i - s.stop)

variable {s} {i j k : Nat} {insn : Instruction}

theorem length_staying_take : (staying (s.code.take s.start)).length = rank s.code s.start := rfl

theorem relocate_lt (h : s.Stays i) (hlt : i < s.start) : s.relocate i < rank s.code s.start := by
  obtain ⟨-, insn, hi, hne⟩ := h
  rw [relocate, if_pos hlt]
  exact rank_lt_rank hi hne hlt

theorem le_relocate (hle : s.start ≤ i) : s.entry + s.inserted.length ≤ s.relocate i := by
  rw [relocate, if_neg (by omega)]
  omega

/-- An instruction that stays is found where it goes. -/
theorem getElem?_relocate (h : s.Stays i) (hi : s.code[i]? = some insn) :
    s.result[s.relocate i]? = some insn := by
  obtain ⟨hside, insn', hi', hne⟩ := h
  obtain rfl : insn' = insn := Option.some.inj (hi'.symm.trans hi)
  unfold result relocate entry
  by_cases hlt : i < s.start
  · have hget : (s.code.take s.start)[i]? = some insn' := by
      rw [List.getElem?_take_of_lt hlt, hi]
    have := getElem?_staying hget hne
    rw [rank_take (by omega)] at this
    obtain ⟨hbound, -⟩ := List.getElem?_eq_some_iff.1 this
    rw [if_pos hlt, List.append_assoc, List.append_assoc, List.getElem?_append_left hbound, this]
  · have hget : (s.code.drop s.stop)[i - s.stop]? = some insn' := by
      rw [List.getElem?_drop, ← hi]
      congr 1
      omega
    rw [if_neg hlt, List.getElem?_append_right (by simp [length_staying_take]; omega)]
    simp only [List.length_append, length_staying_take, Nat.add_sub_cancel_left]
    exact getElem?_staying hget hne

/-- What stays keeps its order. -/
theorem relocate_lt_relocate (hi : s.Stays i) (h : i < j) : s.relocate i < s.relocate j := by
  by_cases hjs : j < s.start
  · obtain ⟨-, insn, hget, hne⟩ := hi
    rw [relocate, relocate, if_pos (by omega), if_pos hjs]
    exact rank_lt_rank hget hne h
  · by_cases his : i < s.start
    · have := relocate_lt hi his
      have := le_relocate (s := s) (i := j) (by omega)
      unfold entry at this
      omega
    · obtain ⟨hside, insn, hget, hne⟩ := hi
      have hget : (s.code.drop s.stop)[i - s.stop]? = some insn := by
        rw [List.getElem?_drop, ← hget]
        congr 1
        omega
      have := rank_lt_rank (j := j - s.stop) hget hne (by omega)
      rw [relocate, relocate, if_neg his, if_neg hjs]
      omega

theorem relocate_le_relocate_iff (hi : s.Stays i) (hj : s.Stays j) :
    s.relocate j ≤ s.relocate i ↔ j ≤ i := by
  constructor
  · intro h
    by_cases hlt : i < j
    · have := relocate_lt_relocate hi hlt
      omega
    · omega
  · intro h
    rcases Nat.lt_or_eq_of_le h with hlt | rfl
    · exact Nat.le_of_lt (relocate_lt_relocate hj hlt)
    · exact Nat.le_refl _

/-- The inserted instructions stand one after the other. -/
theorem getElem?_entry_add (h : s.inserted[k]? = some insn) :
    s.result[s.entry + k]? = some insn := by
  obtain ⟨hlt, -⟩ := List.getElem?_eq_some_iff.1 h
  unfold result entry
  rw [List.getElem?_append_left (by simp [length_staying_take]; omega),
    List.getElem?_append_right (by simp [length_staying_take])]
  simpa [length_staying_take, Nat.add_assoc, Nat.add_sub_add_left] using h

theorem getElem?_kept (h : s.kept[k]? = some insn) :
    s.result[rank s.code s.start + k]? = some insn := by
  obtain ⟨hlt, -⟩ := List.getElem?_eq_some_iff.1 h
  unfold result
  rw [List.getElem?_append_left (by simp [length_staying_take]; omega),
    List.getElem?_append_left (by simp [length_staying_take]; omega),
    List.getElem?_append_right (by simp [length_staying_take])]
  simpa [length_staying_take] using h

/-- Nothing else is there. -/
theorem cases_of_lt (hle : s.start ≤ s.stop) (h : k < s.result.length) :
    (∃ i, s.Stays i ∧ s.relocate i = k) ∨ (∃ insn ∈ s.kept, s.result[k]? = some insn) ∨
      (s.entry ≤ k ∧ k < s.entry + s.inserted.length) := by
  have hlen : s.result.length =
      s.entry + s.inserted.length + (staying (s.code.drop s.stop)).length := by
    simp [result, entry, length_staying_take, Nat.add_assoc]
  -- the four parts of the result lie one after the other
  by_cases hpre : k < rank s.code s.start
  · obtain ⟨i, insn, hi, hne, rfl⟩ := exists_rank (s.code.take s.start) hpre
    obtain ⟨hlt, -⟩ := List.getElem?_eq_some_iff.1 hi
    have hlt : i < s.start := by
      rw [List.length_take] at hlt
      omega
    rw [List.getElem?_take_of_lt hlt] at hi
    exact .inl ⟨i, ⟨.inl hlt, insn, hi, hne⟩, by rw [relocate, if_pos hlt, rank_take (by omega)]⟩
  · by_cases hkept : k < s.entry
    · have hlt : k - rank s.code s.start < s.kept.length := by
        unfold entry at hkept
        omega
      have := getElem?_kept (List.getElem?_eq_getElem hlt)
      rw [show rank s.code s.start + (k - rank s.code s.start) = k by omega] at this
      exact .inr (.inl ⟨_, List.getElem_mem hlt, this⟩)
    · by_cases hins : k < s.entry + s.inserted.length
      · exact .inr (.inr ⟨by omega, hins⟩)
      · obtain ⟨i, insn, hi, hne, hrank⟩ := exists_rank (s.code.drop s.stop)
          (k := k - (s.entry + s.inserted.length)) (by omega)
        rw [List.getElem?_drop] at hi
        refine .inl ⟨s.stop + i, ⟨.inr (by omega), insn, hi, hne⟩, ?_⟩
        rw [relocate, if_neg (by omega), Nat.add_sub_cancel_left, hrank]
        omega

/-! ### Where labels go -/

variable (s) in
/-- **Where a label that stood at `j` stands now**: where its instruction went, or among the labels
kept in front of what was inserted. -/
def Lands (j k : Nat) : Prop :=
  s.Stays j ∧ k = s.relocate j ∨
    (s.start ≤ j ∧ j < s.stop) ∧ rank s.code s.start ≤ k ∧ k < s.entry

/-- A label stands before the same instructions that stay. -/
theorem Lands.le_relocate_iff (hle : s.start ≤ s.stop) (h : s.Lands j k) (hi : s.Stays i) :
    k ≤ s.relocate i ↔ j ≤ i := by
  rcases h with ⟨hj, rfl⟩ | ⟨hrange, hlow, hhigh⟩
  · exact relocate_le_relocate_iff hi hj
  · rcases hi.1 with hlt | hge
    · have := relocate_lt hi hlt
      omega
    · have := le_relocate (Nat.le_trans hle hge)
      omega

/-- A label stands before what was inserted just when it stood at or before the start of the range,
unless it stood inside. -/
theorem Lands.le_entry_add_iff (h : s.Lands j k) (hj : j ≤ s.start ∨ s.stop ≤ j)
    {q : Nat} (hq : q < s.inserted.length) (hlt : s.start < s.stop) :
    k ≤ s.entry + q ↔ j ≤ s.start := by
  rcases h with ⟨hstays, rfl⟩ | ⟨hrange, hlow, hhigh⟩
  · rcases hstays.1 with hbefore | hafter
    · have := relocate_lt hstays hbefore
      have : rank s.code s.start ≤ s.entry := Nat.le_add_right _ _
      omega
    · have := le_relocate (s := s) (i := j) (by omega)
      omega
  · omega

/-- Labels keep their order, unless both stood in the range. -/
theorem Lands.le (hle : s.start ≤ s.stop) {j' k' : Nat} (h : s.Lands j k) (h' : s.Lands j' k')
    (hlt : j < j') (hout : s.Stays j ∨ s.Stays j') : k ≤ k' := by
  rcases hout with hj | hj'
  · obtain rfl : k = s.relocate j := by
      rcases h with ⟨-, rfl⟩ | ⟨hrange, -⟩
      · rfl
      · have := hj.1
        omega
    have := (h'.le_relocate_iff hle hj).not.2 (by omega)
    omega
  · obtain rfl : k' = s.relocate j' := by
      rcases h' with ⟨-, rfl⟩ | ⟨hrange, -⟩
      · rfl
      · have := hj'.1
        omega
    exact (h.le_relocate_iff hle hj').2 (by omega)

end Splice

end Outliner
