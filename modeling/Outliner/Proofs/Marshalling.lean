import Mathlib.Data.Set.Insert
import Outliner.Proofs.Handover
import Outliner.Proofs.Passage

/-!
# Values passed in an array

An extracted routine hands its results back in one array of objects: the values it leaves on the
stack, bottom first, and the locals it has written, numbers in their wrappers. The caller takes the
array apart. This module follows the machine through both pieces of code.

* `Value.Matches` says which values a type can be given, and `Packed` what an array holds for them.
* `Packing` describes the array while it is filled. Each packing step extends it by one element
  (`Packing.store`), wherever the values come from; the produced values are packed from the last to
  the first, the written ones in order.
* Unpacking leaves the heap alone. Storing the written values changes their slots only, provided
  that no two of them overlap (`passes_unpackWritten`).

`Outline.pack_then_unpack` puts the two together. That the slots must not overlap is necessary:
storing into the second half of a wide value clears it (`Outline.unpack_overlapping`).
-/

namespace Outliner

/-! ### Heaps that grow -/

namespace Heap

variable {h h' h'' : Heap} {a : Addr} {cell : HeapCell} {v : Value}

/-- Everything of one heap is in another, at the same address. -/
def Extends (h h' : Heap) : Prop := ∀ a cell, h.get? a = some cell → h'.get? a = some cell

theorem Extends.refl (h : Heap) : h.Extends h := fun _ _ hget => hget

theorem lt_of_get? (hget : h.get? a = some cell) : a < h.cells.size :=
  (Array.getElem?_eq_some_iff.1 hget).1

theorem get?_alloc (h : Heap) (cell : HeapCell) (a : Addr) :
    (h.alloc cell).1.get? a = if a = h.cells.size then some cell else h.get? a := by
  simp [alloc, get?, Array.getElem?_push]

theorem extends_alloc (h : Heap) (cell : HeapCell) : h.Extends (h.alloc cell).1 := by
  intro a cell' hget
  rw [get?_alloc, if_neg (Nat.ne_of_lt (lt_of_get? hget)), hget]

/-- Storing into an array changes nothing else. -/
theorem get?_storeElement_of_ne {b : Addr} (hne : b ≠ a) (i : Nat) (v : Value) :
    (h.storeElement a i v).get? b = h.get? b := by
  simp [storeElement, modify, get?, Array.getElem?_modify, Ne.symm hne]

theorem get?_storeElement {type : JType} {elements : Array Value}
    (hget : h.get? a = some (.array type elements)) (i : Nat) (v : Value) :
    (h.storeElement a i v).get? a = some (.array type (elements.setIfInBounds i v)) := by
  unfold get? at hget
  simp [storeElement, modify, get?, Array.getElem?_modify, hget]

/-- A value keeps its class. -/
theorem Extends.classNameOf (hh : h.Extends h') (hv : ∀ a, v = .ref a → a < h.cells.size) :
    h'.classNameOf v = h.classNameOf v := by
  cases v with
  | ref a =>
    obtain ⟨cell, hget⟩ : ∃ cell, h.get? a = some cell := ⟨_, Array.getElem?_eq_getElem (hv a rfl)⟩
    simp only [Heap.classNameOf, hget, hh a cell hget]
  | _ => rfl

end Heap

/-! ### Values and what stands for them -/

namespace Value

variable {classes : Classes} {h h' : Heap} {t : JType} {v x : Value}

/-- **A value matches a type** that can be passed on: it is a number of the type, or null or a
reference to something in the heap that is an instance of it. -/
structure Matches (classes : Classes) (h : Heap) (t : JType) (v : Value) : Prop where
  usable : t.isDefinite
  type : v.hasType t
  null : t = .null → v = .null
  inHeap : ∀ a, v = .ref a → a < h.cells.size
  isInstance : t.isReference → v = .null ∨ classes.isInstance (h.classNameOf v) t.internalName

theorem Matches.mono (hv : v.Matches classes h t) (hh : h.Extends h') : v.Matches classes h' t where
  usable := hv.usable
  type := hv.type
  null := hv.null
  inHeap a ha := by
    obtain ⟨cell, hget⟩ : ∃ cell, h.get? a = some cell :=
      ⟨_, Array.getElem?_eq_getElem (hv.inHeap a ha)⟩
    exact Heap.lt_of_get? (hh a cell hget)
  isInstance ht := by
    rw [hh.classNameOf hv.inHeap]
    exact hv.isInstance ht

theorem Matches.isWide_iff (hv : v.Matches classes h t) : v.isWide = decide (t.size = 2) :=
  isWide_of_hasType (Form.ne_top_of_isDefinite hv.usable) hv.type

theorem Matches.ne_wide (hv : v.Matches classes h t) : v ≠ .wide := by
  rintro rfl
  have := isOfKind_slotKind hv.usable hv.type
  cases hkind : t.slotKind <;> rw [hkind] at this <;> cases this

/-- A reference takes one cell. -/
theorem Matches.cells_of_isReference (hv : v.Matches classes h t) (ht : t.isReference) :
    v.cells = [v] := by
  have hkind := isOfKind_slotKind hv.usable hv.type
  rw [Form.slotKind_of_isReference ht] at hkind
  exact cells_of_isOfKind rfl hkind

/-- **What an array of objects holds for a value**: a reference stands for itself, and a number is
in a wrapper. -/
inductive BoxedAs (h : Heap) : JType → Value → Value → Prop where
  | number {p : Primitive} {v : Value} {a : Addr} (boxed : h.get? a = some (.boxed p.wrapper v)) :
    BoxedAs h (.prim p) v (.ref a)
  | reference {t : JType} {v : Value} (isReference : t.isReference) : BoxedAs h t v v

/-- Nothing changes for a value whose wrapper stays. -/
theorem BoxedAs.mono (hx : BoxedAs h t v x)
    (hh : ∀ a cell, x = .ref a → h.get? a = some cell → h'.get? a = some cell) :
    BoxedAs h' t v x := by
  cases hx with
  | number boxed => exact .number (hh _ _ rfl boxed)
  | reference isReference => exact .reference isReference

end Value

/-- **An array of objects holds a cargo**: one element for each value, and the values match their
types. -/
structure Packed (classes : Classes) (h : Heap) (a : Addr) (cargo : List (JType × Value)) :
    Prop where
  matching : ∀ e ∈ cargo, e.2.Matches classes h e.1
  array : ∃ elements, h.get? a = some (.array .objectArray elements) ∧
    List.Forall₂ (fun e x => Value.BoxedAs h e.1 e.2 x) cargo elements.toList

/-! ### Filling the array -/

/-- **An array under construction.** The heap has grown from `h₀` by an array of objects, among
other things, and the values of the cargo whose index is in `done` are in their places. -/
structure Packing (h₀ : Heap) (cargo : List (JType × Value)) (done : Set Nat) (h : Heap) :
    Prop where
  grown : h₀.Extends h
  array : ∃ elements, h.get? h₀.cells.size = some (.array .objectArray elements) ∧
    elements.size = cargo.length ∧ ∀ i ∈ done, ∀ e, cargo[i]? = some e →
      ∃ x, elements[i]? = some x ∧ x ≠ .ref h₀.cells.size ∧ Value.BoxedAs h e.1 e.2 x

namespace Packing

variable {classes : Classes} {h₀ h h₁ : Heap} {cargo : List (JType × Value)} {done done' : Set Nat}

theorem start (h₀ : Heap) (cargo : List (JType × Value)) :
    Packing h₀ cargo ∅
      (h₀.alloc (.array .objectArray (Array.replicate cargo.length .null))).1 where
  grown := Heap.extends_alloc _ _
  array := by
    refine ⟨Array.replicate cargo.length .null, ?_, Array.size_replicate, ?_⟩
    · rw [Heap.get?_alloc, if_pos rfl]
    · exact fun i hi => absurd hi (Set.notMem_empty i)

theorem mono (hp : Packing h₀ cargo done h) (hdone : done' ⊆ done) : Packing h₀ cargo done' h := by
  obtain ⟨elements, hget, hsize, hdone'⟩ := hp.array
  exact ⟨hp.grown, elements, hget, hsize, fun i hi => hdone' i (hdone hi)⟩

/-- **One more element.** Boxing its value may have extended the heap. -/
theorem store (hp : Packing h₀ cargo done h) (hh : h.Extends h₁) {i : Nat} {e : JType × Value}
    {x : Value} (hi : cargo[i]? = some e) (hx : x ≠ .ref h₀.cells.size)
    (hboxed : Value.BoxedAs h₁ e.1 e.2 x) :
    Packing h₀ cargo (insert i done) (h₁.storeElement h₀.cells.size i x) := by
  obtain ⟨elements, hget, hsize, hdone⟩ := hp.array
  have hlt : i < elements.size := hsize ▸ (List.getElem?_eq_some_iff.1 hi).1
  -- what lives elsewhere is not touched by the store
  have hkeeps : ∀ y : Value, y ≠ .ref h₀.cells.size → ∀ b cell, y = .ref b →
      h₁.get? b = some cell → (h₁.storeElement h₀.cells.size i x).get? b = some cell := by
    intro y hy b cell hb hcell
    rw [Heap.get?_storeElement_of_ne (fun h => hy (hb.trans (congrArg _ h))), hcell]
  refine ⟨fun b cell hb => ?_, _, Heap.get?_storeElement (hh _ _ hget) i x,
    by simpa using hsize, ?_⟩
  · rw [Heap.get?_storeElement_of_ne (Nat.ne_of_lt (Heap.lt_of_get? hb))]
    exact hh _ _ (hp.grown b cell hb)
  · intro j hj e' he'
    by_cases hji : j = i
    · subst hji
      obtain rfl : e = e' := Option.some.inj (hi.symm.trans he')
      exact ⟨x, by simp [hlt], hx, hboxed.mono (hkeeps x hx)⟩
    · obtain ⟨y, hy, hne, hboxed'⟩ := hdone j (hj.resolve_left hji) e' he'
      refine ⟨y, ?_, hne, ?_⟩
      · rw [Array.getElem?_setIfInBounds_ne (Ne.symm hji), hy]
      · exact (hboxed'.mono fun b cell _ hb => hh b cell hb).mono (hkeeps y hne)

/-- The array is filled once every index is done. -/
theorem packed (hp : Packing h₀ cargo done h) (hdone : ∀ i < cargo.length, i ∈ done)
    (hmatches : ∀ e ∈ cargo, e.2.Matches classes h₀ e.1) :
    Packed classes h h₀.cells.size cargo := by
  refine ⟨fun e he => (hmatches e he).mono hp.grown, ?_⟩
  obtain ⟨elements, hget, hsize, hplaces⟩ := hp.array
  refine ⟨elements, hget, List.forall₂_iff_get.2 ⟨by simpa using hsize.symm, fun i hi hi' => ?_⟩⟩
  obtain ⟨x, hx, -, hboxed⟩ := hplaces i (hdone i hi) _ (List.getElem?_eq_getElem hi)
  obtain ⟨hlt, rfl⟩ := Array.getElem?_eq_some_iff.1 hx
  exact hboxed

end Packing

/-! ### Slots -/

namespace Activation

variable {f f' : Activation} {slot slot' : Int} {u v : Value}

/-- A slot holds a value, a wide one together with the marker in the next slot. -/
def HoldsAt (f : Activation) (slot : Int) (v : Value) : Prop :=
  f.load? slot = some v ∧ (v.isWide → f.load? (slot + 1) = some .wide)

theorem exists_store? (hlow : 0 ≤ slot) (hhigh : slot < 0x80000000) :
    ∃ f', f.store? slot v = some f' :=
  ⟨_, if_pos (by simp [hlow, hhigh])⟩

theorem holdsAt_store (h : f.store? slot v = some f') : f'.HoldsAt slot v := by
  obtain ⟨hlow, hhigh, rfl⟩ := store?_eq_some h
  refine ⟨load?_eq_some.2 ⟨hlow, by dsimp only; omega, ?_⟩, fun hwide => load?_eq_some.2
    ⟨by omega, by dsimp only; omega, ?_⟩⟩
  · dsimp only
    rw [get?_storeIn, if_neg (by omega), if_pos rfl]
    rfl
  · dsimp only
    rw [get?_storeIn, if_pos ⟨hwide, rfl⟩]
    rfl

end Activation

/-- Storing `v` into `slot` leaves `slot'`, which holds `u`, alone: it is another slot, not the one
after a wide value, and not the first half of a value that is overwritten. -/
def Spares (slot : Int) (v : Value) (slot' : Int) (u : Value) : Prop :=
  slot' ≠ slot ∧ (v.isWide → slot' ≠ slot + 1) ∧ (u.isWide → slot' + 1 ≠ slot)

theorem Activation.load?_store_of_spares {f f' : Activation} {slot slot' : Int} {u v : Value}
    (h : f.store? slot v = some f') (hu : f.load? slot' = some u)
    (hspares : Spares slot v slot' u) :
    f'.load? slot' = some u := by
  obtain ⟨-, -, rfl⟩ := store?_eq_some h
  obtain ⟨hlow, hhigh, hu⟩ := load?_eq_some.1 hu
  obtain ⟨hne, hnext, hbefore⟩ := hspares
  refine load?_eq_some.2 ⟨hlow, by dsimp only; omega, ?_⟩
  dsimp only
  rw [get?_storeIn, if_neg (fun h => hnext h.1 h.2), if_neg hne, if_neg, hu]
  rintro ⟨hs, hwide⟩
  rw [hu] at hwide
  exact hbefore hwide (by omega)

/-! ### Boxing -/

/-- The methods that box and unbox numbers are the built-in ones. -/
def World.BoxesNatively (w : World) : Prop :=
  ∀ p : Primitive,
    w.method? (qualifiedName p.wrapper "valueOf" p.boxing.boxDescriptor) =
      some (.native (Native.box p)) ∧
    w.method? (qualifiedName p.wrapper p.boxing.unboxName p.boxing.unboxDescriptor) =
      some (.native (Native.unbox p))

/-- A machine has the built-in methods from the start. -/
theorem World.boxesNatively_default : ({} : World).BoxesNatively := by
  intro p
  cases p <;> exact ⟨rfl, rfl⟩

theorem Primitive.wrapper_ne_empty (p : Primitive) : p.wrapper.isEmpty = false := by
  cases p <;> decide

theorem JType.boxing?_of_isReference {t : JType} (ht : t.isReference) : t.boxing? = none := by
  cases t <;> first | rfl | cases ht

/-- The written values come after the produced ones. -/
theorem getElem?_cargo (produced : List (JType × Value)) {written : List (Int × JType × Value)}
    {i : Nat} {e : Int × JType × Value} (hi : written[i]? = some e) :
    (produced ++ written.map Prod.snd)[produced.length + i]? = some e.2 := by
  rw [List.getElem?_append_right (Nat.le_add_right _ _), Nat.add_sub_cancel_left, List.getElem?_map,
    hi]
  rfl

theorem size_written {c : Cut} {written : List (Int × JType × Value)}
    (hwritten : (written.map fun e => (e.1, e.2.1)) = c.written.toList) :
    c.written.size = written.length := by
  rw [← List.length_map (fun e : Int × JType × Value => (e.1, e.2.1)), hwritten]
  rfl

/-- Values come off the stack from the last to the first. -/
theorem stacked_eq_flatMap_zipIdx (produced : List (JType × Value)) :
    Value.stacked (produced.map Prod.snd) =
      produced.zipIdx.reverse.flatMap fun e => e.1.2.cells := by
  calc Value.stacked (produced.map Prod.snd)
      = produced.reverse.flatMap fun e => e.2.cells := by
        rw [Value.stacked, ← List.map_reverse, List.flatMap_map]
    _ = (produced.zipIdx.map Prod.fst).reverse.flatMap fun e => e.2.cells := by
        rw [List.zipIdx_map_fst]
    _ = produced.zipIdx.reverse.flatMap fun e => e.1.2.cells := by
        rw [← List.map_reverse, List.flatMap_map]

section Code

variable {w : World} {h₀ h : Heap} {cargo : List (JType × Value)} {done : Set Nat} {t : JType}
  {v x : Value} {vs : List Value} {a : Addr} {i : Nat} (f : Activation)

/-- **Boxing a value** leaves what stands for it: the value itself or a new wrapper. -/
theorem passes_box (hw : w.Patient) (hboxes : w.BoxesNatively) (hv : v.Matches w.classes h t) :
    ∃ h' x, (∀ vs, Passes w (Snippet.box t) h (f.on (v.cells ++ vs)) h' (f.on (x :: vs))) ∧
      h.Extends h' ∧ Value.BoxedAs h' t v x ∧ x ≠ .wide ∧ (x = v ∨ x = .ref h.cells.size) := by
  rcases Form.isReference_or_prim hv.usable with ht | ⟨p, rfl⟩
  · refine ⟨h, v, fun vs => ?_, .refl h, .reference ht, hv.ne_wide, .inl rfl⟩
    rw [Snippet.box, JType.boxing?_of_isReference ht, hv.cells_of_isReference ht]
    exact .nil w h _
  · refine ⟨_, .ref h.cells.size, fun vs => ?_, Heap.extends_alloc h (.boxed p.wrapper v),
      .number ?_, Value.noConfusion, .inr rfl⟩
    · have hbox := @Passes.invokeStatic w p.wrapper "valueOf" p.boxing.boxDescriptor _ _ h _ _ vs f
        hw [v] p.wrapper_ne_empty (hboxes p).1 (Form.parse_boxDescriptor p) JType.noConfusion rfl
        (by simpa using hv.ne_wide) rfl
      rwa [Value.stacked_singleton] at hbox
    · rw [Heap.get?_alloc, if_pos rfl]

/-- **Unboxing** gives the value back. -/
theorem passes_unbox (hw : w.Patient) (hboxes : w.BoxesNatively) (hv : v.Matches w.classes h t)
    (hx : Value.BoxedAs h t v x) :
    Passes w (Snippet.unbox t) h (f.on (x :: vs)) h (f.on (v.cells ++ vs)) := by
  cases hx with
  | reference ht =>
    rw [Snippet.unbox, JType.boxing?_of_isReference ht, hv.cells_of_isReference ht]
    dsimp only
    split
    · exact .nil w h _
    · exact .checkCast f hw (hv.isInstance ht)
  | @number p v a hboxed =>
    have hclass : h.classNameOf (.ref a) = p.wrapper := by
      simp only [Heap.classNameOf, hboxed, HeapCell.className]
    refine .cons (.checkCast f hw (.inr ?_)) (.invokeVirtual f hw p.wrapper_ne_empty (hboxes p).2
      (Form.parse_unboxDescriptor p) rfl JType.noConfusion Value.noConfusion hclass ?_)
    · rw [hclass]
      simp [Classes.isInstance, Primitive.boxing]
    · simp [Native.unbox, hboxed]

/-! ### Packing -/

/-- **Boxing a value and storing it into its element.** Other code may stand between the two. -/
theorem passes_boxAndStore (hw : w.Patient) (hboxes : w.BoxesNatively)
    (hp : Packing h₀ cargo done h) (hsmall : cargo.length < 0x80000000)
    (hi : cargo[i]? = some (t, v)) (hv : v.Matches w.classes h₀ t) :
    ∃ h₁ h' x, (∀ vs, Passes w (Snippet.box t) h (f.on (v.cells ++ vs)) h₁ (f.on (x :: vs))) ∧
      (∀ vs, Passes w [.plain (.arrayStore .ref)] h₁
        (f.on (x :: .int (Int32.ofNat i) :: .ref h₀.cells.size :: vs)) h' (f.on vs)) ∧
      Packing h₀ cargo (insert i done) h' := by
  obtain ⟨h₁, x, hbox, hh, hboxed, hwide, hx⟩ := passes_box f hw hboxes (hv.mono hp.grown)
  obtain ⟨elements, hget, hsize, -⟩ := hp.array
  have hlt : i < cargo.length := (List.getElem?_eq_some_iff.1 hi).1
  have hindex : (Int32.ofNat i).toInt = i := Int32.toInt_ofNat_of_lt (by omega)
  -- the array is newer than the values and older than their wrappers
  have hne : x ≠ .ref h₀.cells.size := by
    rintro rfl
    rcases hx with rfl | hx
    · exact Nat.lt_irrefl _ (hv.inHeap _ rfl)
    · exact Nat.ne_of_lt (Heap.lt_of_get? hget) (Value.ref.inj hx)
  refine ⟨h₁, _, x, hbox, fun vs => ?_, hp.store hh hi hne hboxed⟩
  have hstore := @Passes.arrayStore w h₁ x vs f h₀.cells.size elements (Int32.ofNat i) hw hwide
    (hh _ _ hget) (by omega) (by omega)
  rwa [hindex, Int.toNat_natCast] at hstore

/-- Bringing the array under a value, twice: for the store and for what comes after it. -/
theorem passes_tuckArray (hw : w.Patient) (hv : v.Matches w.classes h t) :
    Passes w (if t.size = 2 then
        [.plain (.shuffle .dupX2), .plain (.shuffle .dupX2), .plain .pop]
      else [.plain (.shuffle .dupX1), .plain (.shuffle .swap)]) h
      (f.on (x :: (v.cells ++ vs))) h (f.on (v.cells ++ (x :: x :: vs))) := by
  unfold Value.cells
  rw [hv.isWide_iff]
  by_cases hsize : t.size = 2
  · simp only [hsize, decide_true, ↓reduceIte]
    exact .cons (.shuffle f hw .dupX2 [_, _, _] rfl)
      (.cons (.shuffle f hw .dupX2 [_, _, _] rfl) (.pop f hw))
  · simp only [hsize, decide_false, Bool.false_eq_true, ↓reduceIte]
    exact .cons (.shuffle f hw .dupX1 [_, _] rfl) (.swap f hw)

/-- Packing the value under the array. -/
theorem passes_packProduced (hw : w.Patient) (hboxes : w.BoxesNatively)
    (hp : Packing h₀ cargo done h) (hsmall : cargo.length < 0x80000000)
    (hi : cargo[i]? = some (t, v)) (hv : v.Matches w.classes h₀ t) :
    ∃ h', Passes w (Outline.packProduced i t) h (f.on (.ref h₀.cells.size :: (v.cells ++ vs))) h'
        (f.on (.ref h₀.cells.size :: vs)) ∧
      Packing h₀ cargo (insert i done) h' := by
  obtain ⟨h₁, h', x, hbox, hstore, hp'⟩ := passes_boxAndStore f hw hboxes hp hsmall hi hv
  refine ⟨h', ?_, hp'⟩
  exact ((passes_tuckArray f hw (hv.mono hp.grown)).append (hbox _)).append
    (.cons (.pushInt f hw _) ((Passes.swap f hw).cons (hstore _)))

/-- Packing a local. -/
theorem passes_packWritten (hw : w.Patient) (hboxes : w.BoxesNatively)
    (hp : Packing h₀ cargo done h) (hsmall : cargo.length < 0x80000000)
    (hi : cargo[i]? = some (t, v)) (hv : v.Matches w.classes h₀ t) {slot : Int}
    (hslot : f.load? slot = some v) :
    ∃ h', Passes w (Outline.packWritten i t slot) h (f.on (.ref h₀.cells.size :: vs)) h'
        (f.on (.ref h₀.cells.size :: vs)) ∧
      Packing h₀ cargo (insert i done) h' := by
  obtain ⟨h₁, h', x, hbox, hstore, hp'⟩ := passes_boxAndStore f hw hboxes hp hsmall hi hv
  have hload := @Passes.load w h v (.int (Int32.ofNat i) :: .ref h₀.cells.size ::
    .ref h₀.cells.size :: vs) t f hw slot hv.usable hslot hv.type
  refine ⟨h', ?_, hp'⟩
  exact (((Passes.dup f hw).cons (.cons (.pushInt f hw _) hload)).append (hbox _)).append (hstore _)

/-- **Packing one value after the other**, each with code and cells of its own. -/
theorem passes_packAll {ι : Type} (code : ι → List Instruction) (cells : ι → List Value)
    (index : ι → Nat) (l : List ι)
    (hstep : ∀ e ∈ l, ∀ h done vs, Packing h₀ cargo done h →
      ∃ h', Passes w (code e) h (f.on (.ref h₀.cells.size :: (cells e ++ vs))) h'
          (f.on (.ref h₀.cells.size :: vs)) ∧
        Packing h₀ cargo (insert (index e) done) h')
    (hp : Packing h₀ cargo done h) :
    ∃ h', Passes w (l.flatMap code) h (f.on (.ref h₀.cells.size :: (l.flatMap cells ++ vs))) h'
        (f.on (.ref h₀.cells.size :: vs)) ∧
      Packing h₀ cargo (done ∪ {i | ∃ e ∈ l, index e = i}) h' := by
  induction l generalizing h done with
  | nil =>
    refine ⟨h, .nil w h _, hp.mono ?_⟩
    simp
  | cons e rest ih =>
    -- the cells of the other values wait below while this one is packed
    obtain ⟨h₁, hcode, hp₁⟩ := hstep e List.mem_cons_self h done (rest.flatMap cells ++ vs) hp
    obtain ⟨h', hrest, hp'⟩ := ih (fun e he => hstep e (List.mem_cons_of_mem _ he)) hp₁
    refine ⟨h', ?_, hp'.mono ?_⟩
    · rw [List.flatMap_cons, List.flatMap_cons, List.append_assoc]
      exact hcode.append hrest
    · rintro i (hi | ⟨e', he', rfl⟩)
      · exact .inl (.inr hi)
      · rcases List.mem_cons.1 he' with rfl | he'
        · exact .inl (.inl rfl)
        · exact .inr ⟨e', he', rfl⟩

/-- **Packing everything** into a new array. -/
theorem passes_pack (hw : w.Patient) (hboxes : w.BoxesNatively) (p : SlotPlan)
    {produced : List (JType × Value)} {written : List (Int × JType × Value)}
    (hmatches : ∀ e ∈ produced ++ written.map Prod.snd, e.2.Matches w.classes h₀ e.1)
    (hsmall : produced.length + written.length < 0x80000000)
    (hslots : ∀ e ∈ written, f.load? (p.slot e.1) = some e.2.2) :
    ∃ h', Passes w ([Snippet.pushInt (Int32.ofNat (produced.length + written.length)),
          .type .newObjectArray JType.objectClass] ++
          (produced.zipIdx.reverse.flatMap fun e => Outline.packProduced e.2 e.1.1) ++
          (written.zipIdx.flatMap fun e =>
            Outline.packWritten (produced.length + e.2) e.1.2.1 (p.slot e.1.1))) h₀
        (f.on (Value.stacked (produced.map Prod.snd))) h' (f.on [.ref h₀.cells.size]) ∧
      h₀.Extends h' ∧ Packed w.classes h' h₀.cells.size (produced ++ written.map Prod.snd) := by
  have hlength : (produced ++ written.map Prod.snd).length = produced.length + written.length := by
    simp
  have hcargo : (produced ++ written.map Prod.snd).length < 0x80000000 := hlength ▸ hsmall
  have hcount : (Int32.ofNat (produced.length + written.length)).toInt =
      (produced ++ written.map Prod.snd).length := by
    rw [hlength]
    exact Int32.toInt_ofNat_of_lt hsmall
  -- an array of nulls first
  have hnew := @Passes.newObjectArray w h₀ (Value.stacked (produced.map Prod.snd)) f hw
    (Int32.ofNat (produced.length + written.length)) (Int32.le_iff_toInt_le.2 (by
      rw [hcount]
      exact Int.natCast_nonneg _))
  rw [hcount, Int.toNat_natCast] at hnew
  -- then the produced values from the last to the first, which is how they come off the stack
  obtain ⟨h₁, hfirst, hp₁⟩ := @passes_packAll w h₀ _ _ ∅ [] f _
    (fun e : (JType × Value) × Nat => Outline.packProduced e.2 e.1.1) (fun e => e.1.2.cells)
    (fun e => e.2) produced.zipIdx.reverse (by
      intro e he h done vs hp
      have hget : produced[e.2]? = some e.1 :=
        List.mem_zipIdx_iff_getElem?.1 (List.mem_reverse.1 he)
      have hi : (produced ++ written.map Prod.snd)[e.2]? = some e.1 := by
        rw [List.getElem?_append_left (List.getElem?_eq_some_iff.1 hget).1, hget]
      exact passes_packProduced f hw hboxes hp hcargo hi (hmatches _ (List.mem_of_getElem? hi)))
    (Packing.start h₀ (produced ++ written.map Prod.snd))
  -- then the written ones
  obtain ⟨h', hsecond, hp'⟩ := @passes_packAll w h₀ _ _ _ [] f _
    (fun e : (Int × JType × Value) × Nat =>
      Outline.packWritten (produced.length + e.2) e.1.2.1 (p.slot e.1.1)) (fun _ => [])
    (fun e => produced.length + e.2) written.zipIdx (by
      intro e he h done vs hp
      have hget : written[e.2]? = some e.1 := List.mem_zipIdx_iff_getElem?.1 he
      have hi := getElem?_cargo produced hget
      exact passes_packWritten f hw hboxes hp hcargo hi (hmatches _ (List.mem_of_getElem? hi))
        (hslots _ (List.mem_of_getElem? hget)))
    hp₁
  have hnothing : written.zipIdx.flatMap (fun _ => ([] : List Value)) = [] := by simp
  rw [hnothing] at hsecond
  rw [List.append_nil, ← stacked_eq_flatMap_zipIdx] at hfirst
  refine ⟨h', (((Passes.pushInt f hw _).cons hnew).append hfirst).append hsecond, hp'.grown, ?_⟩
  refine hp'.packed ?_ hmatches
  intro i hi
  by_cases hlt : i < produced.length
  · refine .inl (.inr ⟨(produced[i], i), ?_, rfl⟩)
    exact List.mem_reverse.2 (List.mem_zipIdx_iff_getElem?.2 (List.getElem?_eq_getElem hlt))
  · have hrest : i - produced.length < written.length := by omega
    refine .inr ⟨(written[i - produced.length], i - produced.length), ?_, by dsimp only; omega⟩
    exact List.mem_zipIdx_iff_getElem?.2 (List.getElem?_eq_getElem hrest)

/-! ### Unpacking -/

/-- Fetching an element and unboxing it. -/
theorem passes_fetch (hw : w.Patient) (hboxes : w.BoxesNatively) (hp : Packed w.classes h a cargo)
    (hsmall : cargo.length < 0x80000000) (hi : cargo[i]? = some (t, v)) :
    Passes w (Outline.fetch i t) h (f.on (.ref a :: vs)) h (f.on (v.cells ++ vs)) := by
  obtain ⟨elements, hget, hall⟩ := hp.array
  obtain ⟨hlt, hcargo⟩ := List.getElem?_eq_some_iff.1 hi
  have hv : v.Matches w.classes h t := hp.matching (t, v) (List.mem_of_getElem? hi)
  have hlt' : i < elements.toList.length := hall.length_eq ▸ hlt
  have hboxed : Value.BoxedAs h t v elements.toList[i] := by
    have := hall.get hlt hlt'
    rw [List.get_eq_getElem, List.get_eq_getElem, hcargo] at this
    exact this
  have hindex : (Int32.ofNat i).toInt = i := Int32.toInt_ofNat_of_lt (by omega)
  have hwide : elements.toList[i].isWide = false := by
    generalize elements.toList[i] = x at hboxed
    cases hboxed with
    | number => rfl
    | reference ht =>
      rw [hv.isWide_iff]
      cases t <;> first | rfl | cases ht
  have hload := @Passes.arrayLoad w h elements.toList[i] vs f a elements
    (Int32.ofNat i) hw hwide hget (by omega) (by simp [hindex])
  exact (Passes.cons (.pushInt f hw _) hload).append (passes_unbox f hw hboxes hv hboxed)

/-- Bringing the array over a value. -/
theorem passes_raiseArray (hw : w.Patient) (hv : v.Matches w.classes h t) :
    Passes w (Outline.raiseArray t) h (f.on (v.cells ++ (x :: vs))) h
      (f.on (x :: (v.cells ++ vs))) := by
  unfold Outline.raiseArray Value.cells
  rw [hv.isWide_iff]
  by_cases hsize : t.size = 2
  · simp only [hsize, decide_true, ↓reduceIte]
    exact .cons (.shuffle f hw .dup2X1 [_, _, _] rfl) (.pop2 f hw)
  · simp only [hsize, decide_false, Bool.false_eq_true, ↓reduceIte]
    exact .swap f hw

/-- Putting the produced values back. -/
theorem passes_unpackProduced (hw : w.Patient) (hboxes : w.BoxesNatively)
    (hp : Packed w.classes h a cargo) (hsmall : cargo.length < 0x80000000)
    (produced : List (JType × Value)) (hne : produced ≠ []) (index : Nat)
    (hcargo : ∀ i e, produced[i]? = some e → cargo[index + i]? = some e) :
    Passes w (Outline.unpackProduced index (produced.map Prod.fst)) h (f.on (.ref a :: vs)) h
      (f.on (Value.stacked (produced.map Prod.snd) ++ vs)) := by
  induction produced generalizing index vs with
  | nil => exact absurd rfl hne
  | cons e rest ih =>
    have he : cargo[index]? = some (e.1, e.2) := hcargo 0 e rfl
    have hv : e.2.Matches w.classes h e.1 := hp.matching _ (List.mem_of_getElem? he)
    cases rest with
    | nil =>
      rw [List.map_cons, List.map_nil, List.map_cons, List.map_nil, Value.stacked_singleton]
      exact passes_fetch f hw hboxes hp hsmall he
    | cons e' rest =>
      have hrest := @ih (e.2.cells ++ vs) (List.cons_ne_nil e' rest) (index + 1) fun i e hi => by
        rw [Nat.add_assoc, Nat.add_comm 1 i]
        exact hcargo (i + 1) e hi
      have hstacked : Value.stacked ((e :: e' :: rest).map Prod.snd) =
          Value.stacked ((e' :: rest).map Prod.snd) ++ e.2.cells := Value.stacked_cons _ _
      rw [hstacked, List.append_assoc]
      exact (((Passes.dup f hw).cons (passes_fetch f hw hboxes hp hsmall he)).append
        (passes_raiseArray f hw hv)).append hrest

/-- **Putting the written values back into their slots.** Values that do not overlap do not disturb
each other, and no other slot changes. The array is on top as long as something needs it. -/
theorem passes_unpackWritten (hw : w.Patient) (hboxes : w.BoxesNatively)
    (hp : Packed w.classes h a cargo) (hsmall : cargo.length < 0x80000000) (keep : Bool)
    (written : List (Int × JType × Value))
    (hslots : ∀ e ∈ written, 0 ≤ e.1 ∧ e.1 < 0x80000000)
    (hapart : written.Pairwise fun e e' => e.1 + (e.2.1.size : Int) ≤ e'.1) (index : Nat)
    (hcargo : ∀ i e, written[i]? = some e → cargo[index + i]? = some e.2) :
    ∃ f' : Activation,
      Passes w (Outline.unpackWritten keep index (written.map fun e => (e.1, e.2.1))) h
        (f.on (if keep || !written.isEmpty then .ref a :: vs else vs)) h
        (f'.on (if keep then .ref a :: vs else vs)) ∧
      (∀ e ∈ written, f'.HoldsAt e.1 e.2.2) ∧
      ∀ slot u, f.load? slot = some u → (∀ e ∈ written, Spares e.1 e.2.2 slot u) →
        f'.load? slot = some u := by
  induction written generalizing index f with
  | nil =>
    refine ⟨f, ?_, by simp, fun slot u hu _ => hu⟩
    rw [List.isEmpty_nil, Bool.not_true, Bool.or_false]
    exact .nil w h _
  | cons e rest ih =>
    obtain ⟨slot, t, v⟩ := e
    have he : cargo[index]? = some (t, v) := hcargo 0 _ rfl
    have hv : v.Matches w.classes h t := hp.matching _ (List.mem_of_getElem? he)
    obtain ⟨hlow, hhigh⟩ := hslots _ List.mem_cons_self
    obtain ⟨hbefore, hapart'⟩ := List.pairwise_cons.1 hapart
    obtain ⟨f₁, hf₁⟩ := @Activation.exists_store? f slot v hlow hhigh
    obtain ⟨f', hrest, hholds, hkeeps⟩ := ih f₁ (fun e he => hslots e (List.mem_cons_of_mem _ he))
      hapart' (index + 1) fun i e hi => by
        rw [Nat.add_assoc, Nat.add_comm 1 i]
        exact hcargo (i + 1) e hi
    -- a value, and the marker of a wide one, stay where they are when later ones are stored
    have hspares : ∀ e ∈ rest, Spares e.1 e.2.2 slot v ∧
        (v.isWide → Spares e.1 e.2.2 (slot + 1) .wide) := by
      intro e he
      have hle := hbefore e he
      have hsize := Form.size_of_isDefinite hv.usable
      rw [Spares, Spares, hv.isWide_iff]
      simp only [decide_eq_true_eq, Value.isWide, Bool.false_eq_true, false_implies, and_true]
      grind
    have hself := Activation.holdsAt_store hf₁
    have hone (vs : List Value) : Passes w (Outline.fetch index t ++ [Snippet.store t slot]) h
        (f.on (.ref a :: vs)) h (f₁.on vs) :=
      (passes_fetch f hw hboxes hp hsmall he).append (.store f hw hv.usable hv.type hf₁)
    have hfirst : Passes w ((if keep || !rest.isEmpty then [.plain (.shuffle .dup)] else []) ++
        (Outline.fetch index t ++ [Snippet.store t slot])) h (f.on (.ref a :: vs)) h
        (f₁.on (if keep || !rest.isEmpty then .ref a :: vs else vs)) := by
      split
      · exact (Passes.dup f hw).append (hone _)
      · exact hone vs
    refine ⟨f', ?_, ?_, ?_⟩
    · rw [List.isEmpty_cons, Bool.not_false, Bool.or_true, if_pos rfl]
      simpa [Outline.unpackWritten] using hfirst.append hrest
    · intro e' he'
      rcases List.mem_cons.1 he' with rfl | he'
      · exact ⟨hkeeps _ _ hself.1 fun e he => (hspares e he).1,
          fun hwide => hkeeps _ _ (hself.2 hwide) fun e he => (hspares e he).2 hwide⟩
      · exact hholds e' he'
    · intro slot' u hu hspares'
      refine hkeeps slot' u ?_ fun e he => hspares' e (List.mem_cons_of_mem _ he)
      exact Activation.load?_store_of_spares hf₁ hu (hspares' _ List.mem_cons_self)

/-- **Taking the array apart.** -/
theorem passes_unpack (hw : w.Patient) (hboxes : w.BoxesNatively) (c : Cut)
    {produced : List (JType × Value)} {written : List (Int × JType × Value)}
    (hproduced : produced.map Prod.fst = c.produced)
    (hwritten : (written.map fun e => (e.1, e.2.1)) = c.written.toList)
    (hp : Packed w.classes h a (produced ++ written.map Prod.snd))
    (hsmall : produced.length + written.length < 0x80000000)
    (hslots : ∀ e ∈ written, 0 ≤ e.1 ∧ e.1 < 0x80000000)
    (hapart : written.Pairwise fun e e' => e.1 + (e.2.1.size : Int) ≤ e'.1) :
    ∃ f' : Activation, Passes w (Outline.unpack c) h (f.on (.ref a :: vs)) h
        (f'.on (Value.stacked (produced.map Prod.snd) ++ vs)) ∧
      (∀ e ∈ written, f'.HoldsAt e.1 e.2.2) ∧
      ∀ slot u, f.load? slot = some u → (∀ e ∈ written, Spares e.1 e.2.2 slot u) →
        f'.load? slot = some u := by
  have hlength : (produced ++ written.map Prod.snd).length < 0x80000000 := by simpa using hsmall
  unfold Outline.unpack
  rw [← hproduced, ← hwritten, size_written hwritten, List.isEmpty_map, List.length_map]
  by_cases hnone : produced = [] ∧ written = []
  · -- an array without elements is dropped
    obtain ⟨rfl, rfl⟩ := hnone
    exact ⟨f, .pop f hw, by simp, fun slot u hu _ => hu⟩
  obtain ⟨f', hlocals, hholds, hkeeps⟩ := @passes_unpackWritten w h _ vs a f hw hboxes hp hlength
    (!produced.isEmpty) written hslots hapart produced.length fun _ _ => getElem?_cargo produced
  refine ⟨f', ?_, hholds, hkeeps⟩
  have htop : (!produced.isEmpty || !written.isEmpty) = true := by
    cases produced <;> cases written <;> simp_all
  have hdrop : ¬ (produced.isEmpty && decide (written.length = 0)) = true := by
    cases produced <;> cases written <;> simp_all
  rw [if_pos htop] at hlocals
  rw [if_neg hdrop, List.append_nil]
  refine hlocals.append ?_
  by_cases hne : produced = []
  · subst hne
    exact .nil w h _
  · rw [if_pos (by simpa using hne)]
    refine passes_unpackProduced f' hw hboxes hp hlength produced hne 0 fun i e hi => ?_
    rw [Nat.zero_add, List.getElem?_append_left (List.getElem?_eq_some_iff.1 hi).1, hi]

end Code

/-! ### There and back -/

/-- The written values of a cut can be put back: every slot is one that a frame can have, and no
value reaches into the slot of the next. -/
structure Cut.Restorable (c : Cut) : Prop where
  inRange : ∀ e ∈ c.written.toList, 0 ≤ e.1 ∧ e.1 < 0x80000000
  apart : c.written.toList.Pairwise fun e e' => e.1 + (e.2.size : Int) ≤ e'.1

/-- The epilogue in terms of the values it packs. -/
theorem Outline.epilogue_eq (c : Cut) (p : SlotPlan) {produced : List (JType × Value)}
    {written : List (Int × JType × Value)} (hproduced : produced.map Prod.fst = c.produced)
    (hwritten : (written.map fun e => (e.1, e.2.1)) = c.written.toList) :
    epilogue c p = [Snippet.pushInt (Int32.ofNat (produced.length + written.length)),
          .type .newObjectArray JType.objectClass] ++
        (produced.zipIdx.reverse.flatMap fun e => packProduced e.2 e.1.1) ++
        (written.zipIdx.flatMap fun e =>
          packWritten (produced.length + e.2) e.1.2.1 (p.slot e.1.1)) ++
      [.plain (.returnValue .ref)] := by
  unfold epilogue
  dsimp only
  rw [← hproduced, ← hwritten, size_written hwritten, List.length_map, List.zipIdx_map,
    List.zipIdx_map, ← List.map_reverse, List.flatMap_map, List.flatMap_map]
  rfl

/-- **Values passed in an array arrive.** The code at the end of an extracted routine, started on a
stack of exactly the produced values, with the written ones in the slots planned for them, returns
an array of objects that holds the produced values, bottom first, and then the written ones. The
code after the call, started with such an array on top of any stack, puts the produced values onto
that stack, each written value into its slot, and changes nothing else, provided that the written
values can be put back at all. -/
theorem Outline.pack_then_unpack {w : World} (hw : w.Patient) (hboxes : w.BoxesNatively) (c : Cut)
    (p : SlotPlan) (produced : List (JType × Value)) (written : List (Int × JType × Value))
    (hproduced : produced.map Prod.fst = c.produced)
    (hwritten : (written.map fun e => (e.1, e.2.1)) = c.written.toList)
    (hsmall : produced.length + written.length < 0x80000000) :
    (∀ (s : Run) (h : Heap) (statics : List (String × Value)) (f : Activation) (offset : Nat)
        (rest : List Activation),
      s.At h statics f offset rest → (rest.length : Int) + 2 ≤ w.maxDepth →
      f.routine.Holds offset (epilogue c p) →
      (∀ e ∈ produced ++ written.map Prod.snd, e.2.Matches w.classes h e.1) →
      f.stack = Value.stacked (produced.map Prod.snd) →
      (∀ e ∈ written, f.load? (p.slot e.1) = some e.2.2) →
      ∃ h' a, h.Extends h' ∧ Packed w.classes h' a (produced ++ written.map Prod.snd) ∧
        s.Returns w h' statics (.ref a)) ∧
    (c.Restorable →
      ∀ (s : Run) (h : Heap) (statics : List (String × Value)) (f : Activation) (offset : Nat)
        (rest : List Activation) (a : Addr) (base : List Value),
      s.At h statics f offset rest → (rest.length : Int) + 2 ≤ w.maxDepth →
      f.routine.Holds offset (unpack c) →
      Packed w.classes h a (produced ++ written.map Prod.snd) →
      f.stack = .ref a :: base →
      ∃ (s' : Run) (f' : Activation), Run.Reaches w s s' ∧
        s'.At h statics f' (offset + (unpack c).length) rest ∧
        f'.stack = Value.stacked (produced.map Prod.snd) ++ base ∧
        (∀ e ∈ written, f'.HoldsAt e.1 e.2.2) ∧
        ∀ slot u, f.load? slot = some u → (∀ e ∈ written, Spares e.1 e.2.2 slot u) →
          f'.load? slot = some u) := by
  refine ⟨?_, ?_⟩
  · intro s h statics f offset rest hs hdepth hholds hmatches hstack hslots
    obtain ⟨h', hpass, hgrown, hpacked⟩ := passes_pack f hw hboxes p hmatches hsmall hslots
    rw [← hstack, Activation.on_self] at hpass
    rw [epilogue_eq c p hproduced hwritten] at hholds
    exact ⟨h', h.cells.size, hgrown, hpacked, hpass.returns hw hs hdepth hholds⟩
  · intro hrestorable s h statics f offset rest a base hs hdepth hholds hpacked hstack
    -- what is asked of the slots of the cut is asked of those of the values
    have hrange : ∀ e ∈ written, 0 ≤ e.1 ∧ e.1 < 0x80000000 := by
      intro e he
      exact hrestorable.inRange (e.1, e.2.1) (hwritten ▸ List.mem_map_of_mem he)
    have hapart : written.Pairwise fun e e' => e.1 + (e.2.1.size : Int) ≤ e'.1 := by
      have := hrestorable.apart
      rw [← hwritten, List.pairwise_map] at this
      exact this
    obtain ⟨f', hpass, hvalues, hkeeps⟩ := @passes_unpack w h base a f hw hboxes c produced written
      hproduced hwritten hpacked hsmall hrange hapart
    rw [← hstack, Activation.on_self] at hpass
    obtain ⟨s', hreach, hs'⟩ := hpass.reaches s statics offset rest hs hdepth hholds
    exact ⟨s', _, hreach, hs', rfl, hvalues, hkeeps⟩

/-! ### An example and the limit -/

/-- A cut that produces a long and a string and writes a double and an integer. -/
def mixedCut : Cut where
  start := 0
  length := 1
  read := .empty
  written := ⟨[(0, .double), (2, .int)], by decide⟩
  consumed := []
  produced := [.long, .object "java/lang/String"]

/-- The two written slots in the opposite order. -/
def crossedPlan : SlotPlan := ⟨3, .ofList [(0, 1), (2, 0)], []⟩

/-- Code that stands between other code. -/
theorem Routine.holds_of_toList {r : Routine} {code : List Instruction}
    (before after : List Instruction) (hcode : r.code.toList = before ++ (code ++ after)) :
    r.Holds before.length code := by
  intro q insn hq
  rw [← Array.getElem?_toList, hcode, List.getElem?_append_right (Nat.le_add_right _ _),
    Nat.add_sub_cancel_left, List.getElem?_append_left (List.getElem?_eq_some_iff.1 hq).1, hq]

/-- A routine of given code. -/
def straight (code : List Instruction) : RoutineParts where
  owner := "T"
  name := "f"
  descriptor := "()V"
  access := .static
  code := (code.map some).toArray
  blocks := []
  maxLocals := 3
  maxStack := 0

/-- An activation of a routine with three slots. -/
def activationAt (r : Routine) (offset : Nat) (stack : List Value) (locals : SlotMap Value) :
    Activation where
  routine := r
  stack := stack
  locals := locals
  localCount := 3
  ip := offset

/-- A run of a single activation. -/
def Run.alone (h : Heap) (f : Activation) : Run where
  heap := h
  statics := []
  frames := [f]

theorem Run.at_alone (h : Heap) (f : Activation) : (Run.alone h f).At h [] f f.ip [] :=
  ⟨rfl, rfl, f.freshLine, rfl⟩

/-- The values of `mixedCut` go through an array and back. -/
theorem Outline.pack_then_unpack_mixedCut :
    ∃ r, Routine.make (straight (epilogue mixedCut crossedPlan ++ unpack mixedCut)) = .ok r ∧
      ∃ h a, Packed Classes.builtin h a
          [(.long, .long 7), (.object "java/lang/String", .string "s"), (.double, .double 3),
            (.int, .int 5)] ∧
        (Run.alone .empty (activationAt r 0 [.string "s", .wide, .long 7]
          (.ofList [(0, .int 5), (1, .double 3), (2, .wide)]))).Returns {} h [] (.ref a) ∧
        ∃ (s' : Run) (f' : Activation),
          Run.Reaches {} (Run.alone h (activationAt r (epilogue mixedCut crossedPlan).length
            [.ref a, .int 1] .empty)) s' ∧
          s'.At h [] f'
            ((epilogue mixedCut crossedPlan).length + (unpack mixedCut).length) [] ∧
          f'.stack = [.string "s", .wide, .long 7, .int 1] ∧ f'.HoldsAt 0 (.double 3) ∧
          f'.HoldsAt 2 (.int 5) := by
  -- the code is put into a routine as it is, so that it can be run from either half
  have hrun : (Routine.make
      (straight (epilogue mixedCut crossedPlan ++ unpack mixedCut))).toOption.any
      fun r => r.code.toList = epilogue mixedCut crossedPlan ++ unpack mixedCut := by
    decide +kernel
  obtain ⟨r, hr, hcode⟩ := exists_ok_of_any hrun
  have hcode := of_decide_eq_true hcode
  have hpatient : ({} : World).Patient := ⟨nofun, fun _ => rfl⟩
  have hmatches : ∀ e ∈ [(JType.long, Value.long 7), (.object "java/lang/String", .string "s"),
      (.double, .double 3), (.int, .int 5)], e.2.Matches Classes.builtin .empty e.1 := by
    intro e he
    simp only [List.mem_cons, List.not_mem_nil, or_false] at he
    rcases he with rfl | rfl | rfl | rfl <;>
      exact ⟨by decide, by decide, by decide, nofun, by decide⟩
  obtain ⟨hpack, hunpack⟩ := Outline.pack_then_unpack hpatient World.boxesNatively_default mixedCut
    crossedPlan [(.long, .long 7), (.object "java/lang/String", .string "s")]
    [(0, .double, .double 3), (2, .int, .int 5)] rfl rfl (by decide)
  obtain ⟨h, a, -, hpacked, hreturns⟩ := hpack _ _ _ _ _ _
    (Run.at_alone .empty (activationAt r 0 [.string "s", .wide, .long 7]
      (.ofList [(0, .int 5), (1, .double 3), (2, .wide)]))) (by decide)
    (Routine.holds_of_toList [] _ hcode) hmatches rfl (by
      intro e he
      simp only [List.mem_cons, List.not_mem_nil, or_false] at he
      rcases he with rfl | rfl <;> rfl)
  obtain ⟨s', f', hreach, hs', hstack, hvalues, -⟩ := hunpack ⟨by decide, by decide⟩ _ _ _ _ _ _ a
    [.int 1] (Run.at_alone h (activationAt r (epilogue mixedCut crossedPlan).length
      [.ref a, .int 1] .empty)) (by decide)
    (Routine.holds_of_toList _ [] (hcode.trans (by rw [List.append_nil]))) hpacked rfl
  exact ⟨r, hr, h, a, hpacked, hreturns, s', f', hreach, hs', hstack,
    hvalues (0, .double, .double 3) (by simp), hvalues (2, .int, .int 5) (by simp)⟩

/-- A cut that writes a long and, into its second half, an integer. -/
def overlappingCut : Cut where
  start := 0
  length := 1
  read := .empty
  written := ⟨[(0, .long), (1, .int)], by decide⟩
  consumed := []
  produced := []

/-- The array for `overlappingCut`, with the two numbers. -/
def overlappingHeap : Heap :=
  ⟨#[.boxed "java/lang/Long" (.long 1), .boxed "java/lang/Integer" (.int 5),
    .array .objectArray #[.ref 0, .ref 1]]⟩

/-- **Overlapping values do not arrive.** The long that is put back first is cleared again when the
integer goes into its second half. -/
theorem Outline.unpack_overlapping :
    Packed Classes.builtin overlappingHeap 2 [(.long, .long 1), (.int, .int 5)] ∧
      ∃ r, Routine.make (straight (unpack overlappingCut)) = .ok r ∧
        ∃ s' f', (Run.alone overlappingHeap (activationAt r 0 [.ref 2] .empty)).run {}
            (unpack overlappingCut).length = (s', none) ∧
          s'.frames = [f'] ∧ f'.ip = (unpack overlappingCut).length ∧ f'.stack = [] ∧
          f'.HoldsAt 1 (.int 5) ∧ ¬ f'.HoldsAt 0 (.long 1) := by
  refine ⟨⟨?_, _, rfl, .cons (.number rfl) (.cons (.number rfl) .nil)⟩, ?_⟩
  · intro e he
    simp only [List.mem_cons, List.not_mem_nil, or_false] at he
    rcases he with rfl | rfl <;> exact ⟨by decide, by decide, by decide, nofun, by decide⟩
  -- the run is computed: the long has been cleared when the int was stored into its second half
  · have hrun : (Routine.make (straight (unpack overlappingCut))).toOption.any fun r =>
        ((Run.alone overlappingHeap (activationAt r 0 [.ref 2] .empty)).run {}
          (unpack overlappingCut).length).2.isNone &&
        (((Run.alone overlappingHeap (activationAt r 0 [.ref 2] .empty)).run {}
          (unpack overlappingCut).length).1.frames.map fun f =>
            (f.ip, f.stack, f.load? 0, f.load? 1)) =
          [((unpack overlappingCut).length, [], some .null, some (.int 5))] := by
      decide +kernel
    obtain ⟨r, hr, hrun⟩ := exists_ok_of_any hrun
    rw [Bool.and_eq_true, decide_eq_true_iff, Option.isNone_iff_eq_none] at hrun
    obtain ⟨hnone, hframes⟩ := hrun
    obtain ⟨f', hf', hstate⟩ := List.map_eq_singleton_iff.1 hframes
    obtain ⟨hip, hstack, hzero, hone⟩ : f'.ip = _ ∧ f'.stack = _ ∧ f'.load? 0 = _ ∧
      f'.load? 1 = _ := by simpa using hstate
    refine ⟨r, hr, _, f', Prod.ext rfl hnone, hf', hip, hstack, ⟨hone, nofun⟩, fun hlong => ?_⟩
    cases hzero.symm.trans hlong.1

end Outliner
