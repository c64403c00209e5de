import Mathlib.Data.List.Forall2
import Outliner.Frame
import Outliner.Proofs.Slots

/-!
# Merging without change

A pass over a routine comes to rest when every frame that control brings to an instruction merges
into the frame known there without changing it. `JType.Absorbs` and `Frame.Absorbs` name that
relation on types and on frames. A frame absorbs another one exactly when it does so cell by cell
and slot by slot (`Frame.absorbs_iff`), where a slot without an entry counts as unusable.

Under the flat hierarchy merging is a join, so two facts hold that the pass depends on:

* `Frame.absorbs_merged` — a merged frame absorbs the frame that was merged into it;
* `Frame.Absorbs.merged` — what a frame absorbed before a merge, it still absorbs afterwards.

Under other hierarchies this relation need not be kept, but coarser ones are; `Frame.Lasts` says
what a pass asks of them.
-/

namespace Outliner

namespace JType

/-- Merging `b` into `a` gives `a` back. -/
def Absorbs (h : Hierarchy) (a b : JType) : Prop := a.merge h b = a

variable {h : Hierarchy}

@[simp] theorem merge_self (a : JType) : a.merge h a = a := by simp [merge]

@[simp] theorem top_merge (b : JType) : top.merge h b = top := by simp [merge, isMergeable]

theorem Absorbs.refl (a : JType) : a.Absorbs h a := merge_self a

theorem top_absorbs (b : JType) : top.Absorbs h b := top_merge b

theorem ofClassName_objectClass : ofClassName objectClass = anyObject := by decide

/-- Different references have only the root in common in the flat hierarchy. -/
theorem merge_flat {a b : JType} (ne : a ≠ b) :
    a.merge .flat b =
      if a.isMergeable && b.isMergeable then
        if a = null then b else if b = null then a else anyObject
      else top := by
  unfold merge Hierarchy.flat
  rw [if_neg ne, ofClassName_objectClass]
  cases a.isMergeable <;> cases b.isMergeable <;> simp

/-- **What a type absorbs in the flat hierarchy**: itself; everything, if it is unusable; every
reference, if it is the root; and null, if it is a reference. -/
theorem absorbs_flat_iff {a b : JType} :
    a.Absorbs .flat b ↔
      a = b ∨ a = top ∨ (a = anyObject ∧ b.isMergeable) ∨ (a.isMergeable ∧ b = null) := by
  unfold Absorbs
  by_cases ne : a = b
  · simp [ne]
  rw [merge_flat ne]
  cases ha : a.isMergeable <;> cases hb : b.isMergeable
  · simp only [Bool.and_self, Bool.false_eq_true, if_false, false_and, and_false, or_false, ne,
      false_or]
    exact eq_comm
  · have hroot : a ≠ anyObject := by rintro rfl; simp [anyObject, isMergeable] at ha
    simp [ne, hroot, eq_comm]
  · have hnull : b ≠ null := by rintro rfl; simp [isMergeable] at hb
    simp [ne, hnull, eq_comm]
  · by_cases hna : a = null
    · subst hna
      have hroot : (null : JType) ≠ anyObject := by simp [anyObject]
      simp [ne, Ne.symm ne, hroot]
    · have htop : a ≠ top := by rintro rfl; simp [isMergeable] at ha
      by_cases hnb : b = null
      · simp [hna, hnb]
      · simp [hna, hnb, ne, htop, eq_comm]

/-- A merged type absorbs what was merged in. -/
theorem absorbs_merged (a b : JType) : (a.merge .flat b).Absorbs .flat b := by
  by_cases ne : a = b
  · subst ne
    rw [merge_self]
    exact .refl a
  rw [merge_flat ne, absorbs_flat_iff]
  cases ha : a.isMergeable <;> cases hb : b.isMergeable <;>
    simp only [Bool.and_self, Bool.and_true, Bool.and_false, Bool.false_eq_true, if_false, if_true,
      true_or, or_true]
  by_cases hna : a = null
  · simp [hna]
  · by_cases hnb : b = null <;> simp [hna, hnb, ha]

/-- A type that absorbs `b` still absorbs it once something else is merged in. -/
theorem Absorbs.merged {a b : JType} (hab : a.Absorbs .flat b) (c : JType) :
    (a.merge .flat c).Absorbs .flat b := by
  by_cases ne : a = c
  · subst ne
    rwa [merge_self]
  rw [merge_flat ne]
  rw [absorbs_flat_iff] at hab ⊢
  cases ha : a.isMergeable <;> cases hc : c.isMergeable <;>
    simp only [Bool.and_self, Bool.and_true, Bool.and_false, Bool.false_eq_true, if_false, if_true,
      true_or, or_true]
  have htop : a ≠ top := by rintro rfl; simp [isMergeable] at ha
  -- the absorbed type is a reference, so whatever reference the merge gives absorbs it too
  by_cases hna : a = null
  · subst hna
    have hb : b = null := by
      rcases hab with rfl | h | ⟨h, -⟩ | ⟨-, h⟩
      · rfl
      · exact absurd h htop
      · simp [anyObject] at h
      · exact h
    simp [hb, hc]
  · have hb : b.isMergeable = true := by
      rcases hab with rfl | h | ⟨-, h⟩ | ⟨-, rfl⟩
      · exact ha
      · exact absurd h htop
      · exact h
      · rfl
    by_cases hnc : c = null
    · simpa [hna, hnc] using hab
    · simp [hna, hnc, hb]

/-- What absorbs two types absorbs what they merge into. -/
theorem Absorbs.lub {a b c : JType} (hb : a.Absorbs .flat b) (hc : a.Absorbs .flat c) :
    a.Absorbs .flat (b.merge .flat c) := by
  by_cases heq : b = c
  · rw [← heq, merge_self]
    exact hb
  rw [merge_flat heq]
  rw [absorbs_flat_iff] at *
  have hnull : isMergeable null := rfl
  have hany : isMergeable anyObject := rfl
  split
  · split
    · exact hc
    · split
      · exact hb
      · grind
  · grind

theorem Absorbs.trans {a b c : JType} (hab : a.Absorbs .flat b) (hbc : b.Absorbs .flat c) :
    a.Absorbs .flat c := by
  rw [absorbs_flat_iff] at *
  have hnull : isMergeable null := rfl
  have htop : ¬ isMergeable top := Bool.false_ne_true
  have hany : isMergeable anyObject := rfl
  have hne : anyObject ≠ null := by decide
  grind

theorem Absorbs.antisymm {a b : JType} (hab : a.Absorbs .flat b) (hba : b.Absorbs .flat a) :
    a = b := by
  rw [absorbs_flat_iff] at *
  have htop : ¬ isMergeable top := Bool.false_ne_true
  have hne : anyObject ≠ null := by decide
  have hne' : anyObject ≠ top := by decide
  grind

end JType

namespace Frame

/-- **Merging `g` into `f` changes nothing.** -/
def Absorbs (h : Hierarchy) (f g : Frame) : Prop := f.merge h g = .ok (f, false)

variable {h : Hierarchy} {f g m : Frame}

theorem slot_mergeLocals (f g : Frame) (index : Int) :
    ((mergeLocals h f g).get? index).getD .top = (f.slot index).merge h (g.slot index) := by
  unfold mergeLocals slot
  rw [SlotMap.get?_mapWithSlot]
  cases f.locals.get? index with
  | none => simp
  | some t => by_cases ht : t = .top <;> simp [ht]

/-- What a merge that succeeds gives: cells and slots merged one by one. -/
theorem merge_eq_ok {changed : Bool} (hm : f.merge h g = .ok (m, changed)) :
    f.depth = g.depth ∧ m.stack = List.zipWith (JType.merge h) f.stack g.stack ∧
      (∀ index, m.slot index = (f.slot index).merge h (g.slot index)) ∧
      changed = decide (m ≠ f) := by
  unfold merge at hm
  split at hm
  · next hd =>
    simp only [Except.ok.injEq, Prod.mk.injEq] at hm
    obtain ⟨rfl, rfl⟩ := hm
    exact ⟨hd, rfl, slot_mergeLocals f g, rfl⟩
  · cases hm

theorem zipWith_eq_left_iff {h : Hierarchy} : ∀ {l l' : List JType}, l.length = l'.length →
    (List.zipWith (JType.merge h) l l' = l ↔ List.Forall₂ (JType.Absorbs h) l l')
  | [], [], _ => by simp
  | a :: l, b :: l', hlen => by
    have ih := zipWith_eq_left_iff (h := h) (Nat.succ.inj hlen)
    simp only [List.zipWith_cons_cons, List.cons.injEq, List.forall₂_cons, ih]
    rfl
  | [], _ :: _, hlen => by simp at hlen
  | _ :: _, [], hlen => by simp at hlen

theorem mergeLocals_eq_self_iff :
    mergeLocals h f g = f.locals ↔ ∀ index, (f.slot index).Absorbs h (g.slot index) := by
  constructor
  · intro hm index
    have hs := slot_mergeLocals (h := h) f g index
    rw [hm] at hs
    exact hs.symm
  · intro ha
    apply SlotMap.ext_entries
    unfold mergeLocals SlotMap.mapWithSlot
    refine (List.map_congr_left fun e he => ?_).trans (List.map_id _)
    obtain ⟨index, t⟩ := e
    have hslot : f.slot index = t := by
      unfold slot
      rw [(SlotMap.mem_entries_iff f.locals index t).1 he]
      rfl
    have hm : t.merge h (g.slot index) = t := hslot ▸ ha index
    by_cases ht : t = .top <;> simp [ht, hm]

/-- **A frame absorbs another one when every cell and every slot does.** -/
theorem absorbs_iff :
    f.Absorbs h g ↔
      List.Forall₂ (JType.Absorbs h) f.stack g.stack ∧
        ∀ index, (f.slot index).Absorbs h (g.slot index) := by
  constructor
  · intro ha
    obtain ⟨hd, hstack, hslot, -⟩ := merge_eq_ok ha
    exact ⟨(zipWith_eq_left_iff hd).1 hstack.symm, fun index => (hslot index).symm⟩
  · rintro ⟨hstack, hslot⟩
    have hd : f.depth = g.depth := hstack.length_eq
    have hm : (⟨List.zipWith (JType.merge h) f.stack g.stack, mergeLocals h f g⟩ : Frame) = f := by
      rw [(zipWith_eq_left_iff hd).2 hstack, mergeLocals_eq_self_iff.2 hslot]
    unfold Absorbs merge
    rw [if_pos hd]
    simp [hm]

theorem Absorbs.depth_eq (ha : f.Absorbs h g) : f.depth = g.depth :=
  (absorbs_iff.1 ha).1.length_eq

theorem Absorbs.slot (ha : f.Absorbs h g) (index : Int) :
    (f.slot index).Absorbs h (g.slot index) :=
  (absorbs_iff.1 ha).2 index

theorem Absorbs.refl (f : Frame) : f.Absorbs h f :=
  absorbs_iff.2 ⟨List.forall₂_same.2 fun t _ => .refl t, fun _ => .refl _⟩

/-- A merge that reports no change has left the frame as it was. -/
theorem eq_of_merge_unchanged (hm : f.merge h g = .ok (m, false)) : m = f := by
  obtain ⟨-, -, -, hc⟩ := merge_eq_ok hm
  simpa using hc.symm

theorem forall₂_zipWith_right {R : JType → JType → Prop} {k : JType → JType → JType}
    (hR : ∀ a b, R (k a b) b) : ∀ {l l' : List JType}, l.length = l'.length →
      List.Forall₂ R (List.zipWith k l l') l'
  | [], [], _ => by simp
  | _ :: _, _ :: _, hlen => by
    simpa using ⟨hR _ _, forall₂_zipWith_right hR (Nat.succ.inj hlen)⟩
  | [], _ :: _, hlen => by simp at hlen
  | _ :: _, [], hlen => by simp at hlen

theorem forall₂_zipWith_left {R : JType → JType → Prop} {k : JType → JType → JType}
    (hR : ∀ a b c, R a b → R (k a c) b) {l l' : List JType} (hl : List.Forall₂ R l l') :
    ∀ {l'' : List JType}, l.length = l''.length → List.Forall₂ R (List.zipWith k l l'') l' := by
  induction hl with
  | nil => simp
  | cons hab _ ih =>
    intro l'' hlen
    cases l'' with
    | nil => simp at hlen
    | cons c l'' => simpa using ⟨hR _ _ c hab, ih (Nat.succ.inj hlen)⟩

/-- **A merged frame absorbs the frame that was merged in.** -/
theorem absorbs_merged {changed : Bool} (hm : f.merge .flat g = .ok (m, changed)) :
    m.Absorbs .flat g := by
  obtain ⟨hd, hstack, hslot, -⟩ := merge_eq_ok hm
  refine absorbs_iff.2 ⟨?_, fun index => ?_⟩
  · rw [hstack]
    exact forall₂_zipWith_right JType.absorbs_merged hd
  · rw [hslot]
    exact JType.absorbs_merged _ _

/-- **What a frame absorbs, it still absorbs after a merge.** -/
theorem Absorbs.merged {k : Frame} {changed : Bool} (ha : f.Absorbs .flat k)
    (hm : f.merge .flat g = .ok (m, changed)) : m.Absorbs .flat k := by
  obtain ⟨hd, hstack, hslot, -⟩ := merge_eq_ok hm
  obtain ⟨hcells, hslots⟩ := absorbs_iff.1 ha
  refine absorbs_iff.2 ⟨?_, fun index => ?_⟩
  · rw [hstack]
    exact forall₂_zipWith_left (fun a b c hab => JType.Absorbs.merged hab c) hcells hd
  · rw [hslot]
    exact (hslots index).merged _

/-- **A relation that merges establish and keep**: a merged frame is related to what was merged in,
and stays related to all it was related to. -/
structure Lasts (h : Hierarchy) (R : Frame → Frame → Prop) : Prop where
  refl : ∀ f, R f f
  merged : ∀ {f g m : Frame} {changed : Bool}, f.merge h g = .ok (m, changed) → R m g
  kept : ∀ {f g k m : Frame} {changed : Bool}, R f k → f.merge h g = .ok (m, changed) → R m k

theorem lasts_absorbs : Lasts .flat (Absorbs .flat) :=
  ⟨.refl, absorbs_merged, Absorbs.merged⟩

end Frame

end Outliner
