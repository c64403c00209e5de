import Mathlib.Data.Finset.Card
import Mathlib.Logic.Relation
import Outliner.Command.Show
import Outliner.Machine.Run
import Outliner.Proofs.Made

/-!
# When a result can be printed

The text of an array is put together from the texts of its elements, and that of a wrapper is the
text of the number in it. Nothing keeps an array from being stored into itself, so looking into
arrays and wrappers need not come to an end.

* `Heap.printing_ends_iff` — it comes to an end if and only if nothing that is reached from the
  value through elements and wrappers is reached from itself again; and then the depth at which
  `Heap.show?` stops looking is deep enough, and the text is the same at every depth that is.
* `Machine.printing_endless_selfStored` — a run can return a value of which there is no text.

How deep one has to look is bounded by counting: what is reached from an element is also reached
from the array, but the array is not reached from its element (`Heap.within`).
-/

namespace Outliner

/-- What has to be printed to print a cell. -/
def HeapCell.shown : HeapCell → List Value
  | object _ _ => []
  | boxed _ v => [v]
  | array _ elements => elements.toList

namespace Heap

/-- To print what lives at one address, one has to print what lives at another. -/
def Shows (h : Heap) (a b : Addr) : Prop :=
  ∃ cell, h.get? a = some cell ∧ .ref b ∈ cell.shown

/-- **Printing a value comes back to where it has been.** -/
def Circles (h : Heap) (v : Value) : Prop :=
  ∃ a b, v = .ref a ∧ Relation.ReflTransGen h.Shows a b ∧ Relation.TransGen h.Shows b b

variable {h : Heap} {a b : Addr} {v : Value} {depth depth' : Nat} {text : String}

/-! ### One level -/

/-- What is no reference is printed without looking at anything. -/
theorem isSome_showWithin (hv : ∀ a, v ≠ .ref a) (depth : Nat) : (h.showWithin depth v).isSome := by
  cases v with
  | ref a => exact absurd rfl (hv a)
  | _ => cases depth <;> rfl

theorem isSome_mapM {α β : Type} {f : α → Option β} {l : List α} :
    (l.mapM f).isSome ↔ ∀ x ∈ l, (f x).isSome := by
  induction l with
  | nil => simp
  | cons x rest ih => cases hx : f x <;> cases hr : rest.mapM f <;> simp_all

/-- **A reference is printed one level deeper than what it shows.** -/
theorem isSome_showWithin_succ :
    (h.showWithin (depth + 1) (.ref a)).isSome ↔
      ∀ b, h.Shows a b → (h.showWithin depth (.ref b)).isSome := by
  -- values that are no references cannot fail
  have hshown {cell : HeapCell} (hcell : h.get? a = some cell) :
      (∀ v ∈ cell.shown, (h.showWithin depth v).isSome) ↔
        ∀ b, h.Shows a b → (h.showWithin depth (.ref b)).isSome := by
    constructor
    · rintro hall b ⟨cell', hcell', hb⟩
      obtain rfl := Option.some.inj (hcell.symm.trans hcell')
      exact hall _ hb
    · intro hall v hv
      by_cases href : ∃ b, v = .ref b
      · obtain ⟨b, rfl⟩ := href
        exact hall b ⟨cell, hcell, hv⟩
      · exact isSome_showWithin (fun b heq => href ⟨b, heq⟩) depth
  rw [showWithin]
  cases hcell : h.get? a with
  | none => simp [Shows, hcell]
  | some cell =>
    rw [← hshown hcell]
    cases cell with
    | object className fields => simp [HeapCell.shown]
    | boxed className v => simp [HeapCell.shown]
    | array type elements =>
      simp only [HeapCell.shown, ← isSome_mapM]
      cases elements.toList.mapM (h.showWithin depth) <;> rfl

theorem mapM_of_forall {α β : Type} {f g : α → Option β} (hfg : ∀ x y, f x = some y → g x = some y)
    {l : List α} {ys : List β} (h : l.mapM f = some ys) : l.mapM g = some ys := by
  induction l generalizing ys with
  | nil => exact h
  | cons x rest ih =>
    simp only [List.mapM_cons, Option.bind_eq_bind, Option.bind_eq_some_iff] at h ⊢
    obtain ⟨y, hy, ys', hys, hcons⟩ := h
    exact ⟨y, hfg x y hy, ys', ih hys, hcons⟩

/-- A text that is found at one depth is found when looking one level deeper. -/
theorem showWithin_succ (hv : h.showWithin depth v = some text) :
    h.showWithin (depth + 1) v = some text := by
  induction depth generalizing v text with
  | zero =>
    cases v with
    | ref a => cases hv
    | _ => exact hv
  | succ depth ih =>
    cases v with
    | ref a =>
      rw [showWithin] at hv ⊢
      cases hcell : h.get? a with
      | none => rwa [hcell] at hv
      | some cell =>
        rw [hcell] at hv
        cases cell with
        | object className fields => exact hv
        | boxed className v => exact ih hv
        | array type elements =>
          obtain ⟨parts, hparts, htext⟩ := Option.bind_eq_some_iff.1 hv
          exact Option.bind_eq_some_iff.2 ⟨parts, mapM_of_forall (fun _ _ => ih) hparts, htext⟩
    | _ => exact hv

theorem showWithin_mono (hle : depth ≤ depth') (hv : h.showWithin depth v = some text) :
    h.showWithin depth' v = some text := by
  induction hle with
  | refl => exact hv
  | step _ ih => exact showWithin_succ ih

/-! ### How deep one has to look -/

theorem Circles.of_shows (hb : h.Circles (.ref b)) (hab : h.Shows a b) : h.Circles (.ref a) := by
  obtain ⟨b', c, heq, hreach, hcycle⟩ := hb
  obtain rfl := Value.ref.inj heq
  exact ⟨a, c, rfl, hreach.head hab, hcycle⟩

/-- What circles shows something that circles. -/
theorem Circles.exists_shows (hv : h.Circles v) :
    ∃ a b, v = .ref a ∧ h.Shows a b ∧ h.Circles (.ref b) := by
  obtain ⟨a, c, rfl, hreach, hcycle⟩ := hv
  -- the way to the circle leads over something shown, or the circle itself does
  rcases Relation.ReflTransGen.cases_head hreach with rfl | ⟨b, hab, hrest⟩
  · obtain ⟨b, hab, hback⟩ := Relation.TransGen.head'_iff.1 hcycle
    exact ⟨a, b, rfl, hab, b, a, rfl, hback, hcycle⟩
  · exact ⟨a, b, rfl, hab, b, c, rfl, hrest, hcycle⟩

/-- **What has a text does not circle**: along the circle one would have to look less and less
deep. -/
theorem not_circles_of_isSome (hv : (h.showWithin depth v).isSome) : ¬ h.Circles v := by
  induction depth generalizing v with
  | zero =>
    rintro ⟨a, -, rfl, -⟩
    cases hv
  | succ depth ih =>
    intro hcircles
    obtain ⟨a, b, rfl, hab, hb⟩ := hcircles.exists_shows
    exact ih (isSome_showWithin_succ.1 hv b hab) hb

open Classical in
/-- The cells that are reached from an address. -/
noncomputable def within (h : Heap) (a : Addr) : Finset Addr :=
  (Finset.range h.cells.size).filter fun b => Relation.ReflTransGen h.Shows a b

theorem mem_within : b ∈ h.within a ↔ b < h.cells.size ∧ Relation.ReflTransGen h.Shows a b := by
  simp [within]

theorem card_within_le : (h.within a).card ≤ h.cells.size := by
  have hle := Finset.card_le_card fun b (hb : b ∈ h.within a) =>
    Finset.mem_range.2 (mem_within.1 hb).1
  rwa [Finset.card_range] at hle

theorem lt_size_of_shows (hab : h.Shows a b) : a < h.cells.size := by
  obtain ⟨cell, hcell, -⟩ := hab
  exact (Array.getElem?_eq_some_iff.1 hcell).1

/-- Less is reached from what is shown, unless that leads back. -/
theorem within_ssubset (hab : h.Shows a b) (ha : ¬ h.Circles (.ref a)) :
    h.within b ⊂ h.within a := by
  refine Finset.ssubset_iff_subset_ne.2 ⟨fun c hc => ?_, fun heq => ?_⟩
  · obtain ⟨hlt, hreach⟩ := mem_within.1 hc
    exact mem_within.2 ⟨hlt, hreach.head hab⟩
  · -- the address itself would have to be reached from what it shows
    have hmem : a ∈ h.within a := mem_within.2 ⟨lt_size_of_shows hab, .refl⟩
    rw [← heq] at hmem
    exact ha ⟨a, a, rfl, .refl, .head' hab (mem_within.1 hmem).2⟩

theorem isSome_of_card_lt (ha : ¬ h.Circles (.ref a)) (hcard : (h.within a).card < depth) :
    (h.showWithin depth (.ref a)).isSome := by
  induction depth generalizing a with
  | zero => exact absurd hcard (Nat.not_lt_zero _)
  | succ depth ih =>
    refine isSome_showWithin_succ.2 fun b hab => ih (fun hb => ha (hb.of_shows hab)) ?_
    have hlt := Finset.card_lt_card (within_ssubset hab ha)
    omega

/-- The depth at which one stops is deep enough. -/
theorem isSome_show?_iff : (h.show? v).isSome ↔ ¬ h.Circles v := by
  by_cases href : ∃ a, v = .ref a
  · obtain ⟨a, rfl⟩ := href
    exact ⟨not_circles_of_isSome, fun ha => isSome_of_card_lt ha (Nat.lt_succ_of_le card_within_le)⟩
  · have hnone : ∀ a, v ≠ .ref a := fun a heq => href ⟨a, heq⟩
    refine iff_of_true (isSome_showWithin hnone _) ?_
    rintro ⟨a, -, heq, -⟩
    exact hnone a heq

/-- **When printing a value comes to an end**: if and only if it never comes back to where it has
been. The text is then the one that `show?` gives, however deep one looks for it. -/
theorem printing_ends_iff (h : Heap) (v : Value) :
    ((∃ depth text, h.showWithin depth v = some text) ↔ ¬ h.Circles v) ∧
    ((h.show? v).isSome ↔ ¬ h.Circles v) ∧
    ∀ depth text, h.showWithin depth v = some text → h.show? v = some text := by
  -- two texts, found at two depths, are both found at the greater one
  have hsame {depth depth' : Nat} {text text' : String} (htext : h.showWithin depth v = some text)
      (htext' : h.showWithin depth' v = some text') : text = text' := by
    have hmax := showWithin_mono (Nat.le_max_left depth depth') htext
    rw [showWithin_mono (Nat.le_max_right depth depth') htext'] at hmax
    exact (Option.some.inj hmax).symm
  have hends {depth : Nat} {text : String} (htext : h.showWithin depth v = some text) :
      ¬ h.Circles v := not_circles_of_isSome (Option.isSome_iff_exists.2 ⟨text, htext⟩)
  refine ⟨⟨?_, fun hno => ?_⟩, isSome_show?_iff, fun depth text htext => ?_⟩
  · rintro ⟨depth, text, htext⟩
    exact hends htext
  · obtain ⟨text, htext⟩ := Option.isSome_iff_exists.1 (isSome_show?_iff.2 hno)
    exact ⟨_, text, htext⟩
  · obtain ⟨text', htext'⟩ := Option.isSome_iff_exists.1 (isSome_show?_iff.2 (hends htext))
    rw [hsame htext htext']
    exact htext'

end Heap

namespace Machine

/-- A routine that stores a new array into itself and returns it. -/
def selfStored : RoutineParts where
  owner := "T"
  name := "f"
  descriptor := "()Ljava/lang/Object;"
  access := .static
  code := #[some (.int .bipush 1), some (.type .newObjectArray "java/lang/Object"),
    some (.slot (.store .ref) 0), some (.slot (.load .ref) 0), some (.int .bipush 0),
    some (.slot (.load .ref) 0), some (.plain (.arrayStore .ref)), some (.slot (.load .ref) 0),
    some (.plain (.returnValue .ref))]
  blocks := []
  maxLocals := 1
  maxStack := 3

/-- A run is over and has returned an array whose first element is the array itself. -/
def returnsCircle : Machine × Array Event × Option Ending → Bool
  | (m, _, some (.ok (.ref a))) => m.heap.element? a 0 = some (.ref a)
  | _ => false

theorem exists_of_returnsCircle {out : Machine × Array Event × Option Ending}
    (h : returnsCircle out) :
    ∃ m events a, out = (m, events, some (.ok (.ref a))) ∧ m.heap.Circles (.ref a) := by
  unfold returnsCircle at h
  split at h
  · next m events a =>
    refine ⟨m, events, a, rfl, a, a, rfl, .refl, .single ?_⟩
    have helement := of_decide_eq_true h
    unfold Heap.element? at helement
    split at helement
    · next type elements hcell =>
      exact ⟨_, hcell, Array.mem_toList_iff.2 (Array.mem_of_getElem? helement)⟩
    · cases helement
  · cases h

/-- A run returns an array that has been stored into itself, and there is no text of it, however
deep one looks. -/
theorem printing_endless_selfStored :
    ∃ r m events a, Routine.make selfStored = .ok r ∧
      (define {} r).invoke 20 "T" "f" "()Ljava/lang/Object;" [] = (m, events, some (.ok (.ref a))) ∧
      (∀ depth, m.heap.showWithin depth (.ref a) = none) ∧ m.heap.show? (.ref a) = none := by
  have hrun : (Routine.make selfStored).toOption.any fun r =>
      returnsCircle ((define {} r).invoke 20 "T" "f" "()Ljava/lang/Object;" []) := by
    decide +kernel
  obtain ⟨r, hr, hrun⟩ := exists_ok_of_any hrun
  obtain ⟨m, events, a, hout, hcircles⟩ := exists_of_returnsCircle hrun
  have hnone (depth : Nat) : m.heap.showWithin depth (.ref a) = none := by
    rw [← Option.not_isSome_iff_eq_none]
    exact fun hsome => Heap.not_circles_of_isSome hsome hcircles
  exact ⟨r, m, events, a, hr, hout, hnone, hnone _⟩

end Machine

end Outliner
