import Mathlib.Data.List.Forall2
import Outliner.Flow
import Outliner.Machine.Run
import Outliner.Proofs.Descriptors
import Outliner.Proofs.Made
import Outliner.Proofs.Operands

/-!
# Activations that conform to frames

A frame says of which type each cell and slot is; an activation has values in them. An activation
*conforms* to a frame when the stacks are equally deep and every cell and slot holds a value of its
type, a wide value together with the marker above it (`Activation.Conforms`). Nothing is asked of a
cell or slot of type `top`.

What counts as a value of a type is a parameter `M` of the relations on stacks and slots. The
coarsest choice, `Value.hasType`, tells numbers of the four types and references apart.

The theorem of this module is about the beginning of a run: a routine entered with arguments that
were converted for it conforms to the frame the analysis starts from, provided that what is passed
for a reference is one (`Activation.conforms_entry`).
-/

namespace Outliner

namespace Value

/-- Whether the value is a reference, null included. -/
def isReference : Value → Bool
  | null | string _ | ref _ | .class _ => true
  | _ => false

/-- Whether the value is of a tracked type. -/
def hasType : JType → Value → Bool
  | .prim .int, int _ | .prim .long, long _ | .prim .float, float _ | .prim .double, double _ =>
    true
  | .top, _ => true
  | t, v => t.isReference && v.isReference

/-- The value is of a tracked type. -/
abbrev Typed (t : JType) (v : Value) : Prop := v.hasType t

/-- The cells the value takes on the stack, top first. -/
def cells (v : Value) : List Value :=
  if v.isWide then [.wide, v] else [v]

/-- Whether the value is of a kind. -/
def isOfKind : SlotKind → Value → Bool
  | .int, int _ | .long, long _ | .float, float _ | .double, double _ => true
  | .ref, v => v.isReference
  | _, _ => false

theorem isOfKind_of_hasType {k : SlotKind} {t : JType} {v : Value} (hk : k.holds t)
    (hv : v.hasType t) : v.isOfKind k := by
  cases k <;> simp only [SlotKind.holds, decide_eq_true_eq] at hk
  case ref =>
    cases t <;> simp_all [JType.isReference, hasType, isOfKind]
  all_goals
    subst hk
    cases v <;> simp_all [hasType, isOfKind, JType.isReference]

theorem hasType_of_isReference {t : JType} {v : Value} (ht : t.isReference) (hv : v.isReference) :
    v.hasType t := by
  cases t <;> simp_all [JType.isReference, hasType]

/-- A value of a type with one cell or two takes as many. -/
theorem isWide_of_hasType {t : JType} {v : Value} (ht : t ≠ .top) (hv : v.hasType t) :
    v.isWide = decide (t.size = 2) := by
  cases t with
  | top => exact absurd rfl ht
  | prim p =>
    cases p <;> cases v <;> simp_all [hasType, isWide, JType.size, JType.isReference] <;> rfl
  | _ => cases v <;> simp_all [hasType, isWide, JType.size, JType.isReference, isReference]

theorem cells_of_isOfKind {k : SlotKind} {v : Value} (hk : k.size = 1) (hv : v.isOfKind k) :
    v.cells = [v] := by
  cases k <;> cases v <;> first | rfl | exact absurd hk (by decide) | cases hv

end Value

/-! ### Stacks -/

/-- **The cells of a stack hold values of the tracked types**, both top first. The marker of a wide
value stands where the tracker has `top`. -/
inductive StackFits (M : JType → Value → Prop) : List JType → List Value → Prop where
  | nil : StackFits M [] []
  | cell {t : JType} {v : Value} {ts : List JType} {vs : List Value} (size : t.size ≠ 2)
    (value : M t v) (rest : StackFits M ts vs) : StackFits M (t :: ts) (v :: vs)
  | wide {t : JType} {v : Value} {ts : List JType} {vs : List Value} (size : t.size = 2)
    (value : M t v) (rest : StackFits M ts vs) : StackFits M (.top :: t :: ts) (.wide :: v :: vs)

namespace StackFits

variable {M M' : JType → Value → Prop} {t : JType} {ts : List JType} {v : Value} {vs : List Value}

theorem length_eq (h : StackFits M ts vs) : ts.length = vs.length := by
  induction h <;> simp_all

/-- Pushing a value of a type. -/
theorem push (h : StackFits M ts vs) (ht : v.isWide = decide (t.size = 2)) (hv : M t v) :
    StackFits M (Frame.cellsOf t ++ ts) (v.cells ++ vs) := by
  unfold Frame.cellsOf Value.cells
  by_cases hsize : t.size = 2
  · simpa [ht, hsize] using wide hsize hv h
  · simpa [ht, hsize] using cell hsize hv h

/-- Taking a value off: what the tracker sees as a value of a type is one. -/
theorem pop (h : StackFits M (Frame.cellsOf t ++ ts) vs) (hM : ∀ t v, M t v → v.hasType t)
    (ht : t ≠ .top) : ∃ v vs', vs = v.cells ++ vs' ∧ M t v ∧ StackFits M ts vs' := by
  unfold Frame.cellsOf at h
  split at h
  · next hsize =>
    cases h with
    | cell size value rest =>
      -- the cell below the marker cannot be the top one of a stack that fits
      cases rest with
      | cell size' _ _ => exact absurd hsize size'
      | wide => exact absurd rfl ht
    | @wide _ v _ vs' size value rest =>
      refine ⟨v, vs', ?_, value, rest⟩
      simp [Value.cells, Value.isWide_of_hasType ht (hM t v value), hsize]
  · next hsize =>
    cases h with
    | @cell _ v _ vs' size value rest =>
      refine ⟨v, vs', ?_, value, rest⟩
      simp [Value.cells, Value.isWide_of_hasType ht (hM t v value), hsize]
    | wide => exact absurd rfl ht

/-- The topmost cells, if they are whole values, fit by themselves, and so does what is below. -/
theorem split {n : Nat} (hw : Whole n ts) (h : StackFits M ts vs) :
    StackFits M (ts.take n) (vs.take n) ∧ StackFits M (ts.drop n) (vs.drop n) := by
  induction hw generalizing vs with
  | zero ts => simpa using ⟨nil, h⟩
  | single hs _ ih =>
    cases h with
    | cell size value rest =>
      obtain ⟨h₁, h₂⟩ := ih rest
      exact ⟨.cell size value h₁, h₂⟩
    | wide => simp [JType.isSingle] at hs
  | wide hsize _ ih =>
    cases h with
    | cell _ _ rest =>
      cases rest with
      | cell size' _ _ => exact absurd hsize size'
      | wide => cases hsize
    | wide size value rest =>
      obtain ⟨h₁, h₂⟩ := ih rest
      exact ⟨.wide size value h₁, h₂⟩

theorem append {ts' : List JType} {vs' : List Value} (h : StackFits M ts vs)
    (h' : StackFits M ts' vs') : StackFits M (ts ++ ts') (vs ++ vs') := by
  induction h with
  | nil => exact h'
  | cell size value _ ih => exact .cell size value ih
  | wide size value _ ih => exact .wide size value ih

end StackFits

/-! ### Slots -/

/-- The slots of an activation hold values of the tracked types. -/
def SlotsFit (M : JType → Value → Prop) (f : Frame) (a : Activation) : Prop :=
  ∀ s, f.slot s ≠ .top → ∃ v, a.load? s = some v ∧ M (f.slot s) v ∧
    ((f.slot s).size = 2 → a.load? (s + 1) = some .wide)

/-- **An activation conforms to a frame**: the stacks are equally deep, and every cell and slot that
is tracked holds a value of its type. -/
structure Activation.Conforms (f : Frame) (a : Activation) : Prop where
  stack : StackFits Value.Typed f.stack a.stack
  slots : SlotsFit Value.Typed f a

namespace Frame

/-- What a store does to each slot. -/
theorem slot_setSlot {f : Frame} {index : Int} (hlow : 0 ≤ index) (hhigh : index < Word.max)
    (t : JType) (s : Int) :
    (f.setSlot index t).slot s =
      if t.size = 2 ∧ s = index + 1 then .top
      else if s = index then t
      else if s = index - 1 ∧ (f.slot s).size = 2 then .top
      else f.slot s := by
  have hmin : Word.min ≤ index - 1 := by unfold Word.min; omega
  have hbefore : Word.wrap (index - 1) = index - 1 := Word.wrap_eq_self hmin (by omega)
  have hafter : Word.wrap (index + 1) = index + 1 := Word.wrap_eq_self (by omega) (by omega)
  unfold setSlot slot
  simp only [hbefore, hafter]
  cases hprev : f.locals.get? (index - 1) with
  | none => grind [SlotMap.get?_insert, JType.size]
  | some prev => grind [SlotMap.get?_insert]

@[simp] theorem setSlot_stack (f : Frame) (index : Int) (t : JType) :
    (f.setSlot index t).stack = f.stack := rfl

end Frame

namespace Activation

/-- What a store does to each slot. -/
theorem get?_storeIn (locals : SlotMap Value) (slot : Int) (v : Value) (s : Int) :
    (storeIn locals slot v).get? s =
      if v.isWide ∧ s = slot + 1 then some .wide
      else if s = slot then some v
      else if s = slot - 1 ∧ ((locals.get? s).getD .null).isWide then some .null
      else locals.get? s := by
  unfold storeIn
  cases hprev : locals.get? (slot - 1) with
  | none => grind [SlotMap.get?_insert, Value.isWide]
  | some prev => grind [SlotMap.get?_insert]

theorem load?_eq_some {a : Activation} {s : Int} {v : Value} :
    a.load? s = some v ↔ 0 ≤ s ∧ s < a.localCount ∧ (a.locals.get? s).getD .null = v := by
  unfold load?
  split
  · next h =>
    simp only [Bool.and_eq_true, decide_eq_true_eq] at h
    simp [h]
  · next h =>
    simp only [Bool.and_eq_true, decide_eq_true_eq] at h
    simp only [reduceCtorEq, false_iff]
    exact fun hs => h ⟨hs.1, hs.2.1⟩

/-- **A store, tracked and carried out.** -/
theorem slotsFit_store {M : JType → Value → Prop} {f : Frame} {a a' : Activation} {index : Int}
    {t : JType} {v : Value} (h : SlotsFit M f a) (hM : ∀ t v, M t v → v.hasType t)
    (ha : a.store? index v = some a') (hwide : v.isWide = decide (t.size = 2)) (hv : M t v) :
    SlotsFit M (f.setSlot index t) a' := by
  unfold store? at ha
  split at ha
  case isFalse => cases ha
  case isTrue hindex =>
  simp only [Bool.and_eq_true, decide_eq_true_eq] at hindex
  obtain rfl := Option.some.inj ha
  have hmax : index < Word.max := by unfold Word.max; omega
  intro s hs
  rw [Frame.slot_setSlot hindex.1 hmax] at hs ⊢
  split at hs
  · exact absurd rfl hs
  next hnext =>
  rw [if_neg hnext]
  split at hs
  · next hsi =>
    -- the slot that is stored into
    subst hsi
    rw [if_pos rfl]
    refine ⟨v, ?_, hv, fun hsize => ?_⟩
    · rw [load?_eq_some]
      simp only [get?_storeIn]
      refine ⟨by omega, by omega, by simp [show ¬ s = s + 1 by omega]⟩
    · rw [load?_eq_some]
      dsimp only
      exact ⟨by omega, by omega, by simp [get?_storeIn, hwide, hsize]⟩
  next hsi =>
  rw [if_neg hsi]
  split at hs
  · exact absurd rfl hs
  next hbefore =>
  rw [if_neg hbefore]
  obtain ⟨w, hw, hMw, hmark⟩ := h s hs
  rw [load?_eq_some] at hw
  refine ⟨w, ?_, hMw, fun hsize => ?_⟩
  · rw [load?_eq_some]
    simp only [get?_storeIn]
    refine ⟨hw.1, by omega, ?_⟩
    have hw' := Value.isWide_of_hasType hs (hM _ _ hMw)
    grind
  · have hmark := load?_eq_some.1 (hmark hsize)
    rw [load?_eq_some]
    simp only [get?_storeIn]
    refine ⟨hmark.1, by omega, ?_⟩
    grind [Value.isWide]

/-- **An integer put in the place of another one.** -/
theorem slotsFit_increment {M : JType → Value → Prop} {f : Frame} {a : Activation} {index : Int}
    {v : Value} (h : SlotsFit M f a) (hslot : f.slot index = .int) (hlow : 0 ≤ index)
    (hhigh : index < 0x80000000) (hv : M .int v) :
    SlotsFit M (f.setSlot index .int) { a with locals := a.locals.insert index v } := by
  have hmax : index < Word.max := by unfold Word.max; omega
  obtain ⟨old, hold, -⟩ := h index (by rw [hslot]; nofun)
  rw [load?_eq_some] at hold
  intro s hs
  rw [Frame.slot_setSlot hlow hmax, if_neg (by simp [JType.size, Primitive.size])] at hs ⊢
  split at hs
  · -- the slot itself; it is as wide as before, so the next one is left alone
    next hsi =>
    subst hsi
    rw [if_pos rfl]
    refine ⟨v, ?_, hv, fun hsize => absurd hsize (by decide)⟩
    rw [load?_eq_some]
    exact ⟨hold.1, hold.2.1, by simp⟩
  next hsi =>
  rw [if_neg hsi]
  split at hs
  · exact absurd rfl hs
  next hbefore =>
  rw [if_neg hbefore]
  -- any other slot keeps its value, and a wide one its mark, which is not overwritten
  obtain ⟨w, hw, hMw, hmark⟩ := h s hs
  refine ⟨w, ?_, hMw, fun hsize => ?_⟩
  · rw [load?_eq_some] at hw ⊢
    exact ⟨hw.1, hw.2.1, by simp [Ne.symm hsi, hw.2.2]⟩
  · have hmark := load?_eq_some.1 (hmark hsize)
    rw [load?_eq_some]
    refine ⟨hmark.1, hmark.2.1, ?_⟩
    have hne : ¬ index = s + 1 := fun he => hbefore ⟨by omega, hsize⟩
    simp [hne, hmark.2.2]

end Activation

/-! ### Entering a routine -/

/-- The types of the receiver, if there is one, and of the arguments. -/
def Routine.parameters (r : Routine) : List JType :=
  (if r.isStatic then [] else [Flow.receiver r]) ++ r.signature.args

theorem Flow.receiver_isReference (r : Routine) : (receiver r).isReference := by
  unfold receiver JType.ofClassName
  split
  · rfl
  · split <;> rfl

theorem JType.computational_of_isReference {t : JType} (h : t.isReference) :
    t.computational = t := by
  cases t <;> first | rfl | cases h

theorem JType.size_of_isReference {t : JType} (h : t.isReference) : t.size = 1 := by
  cases t <;> first | rfl | cases h

@[simp] theorem JType.size_computational (t : JType) : t.computational.size = t.size := by
  cases t with
  | prim p => cases p <;> rfl
  | _ => rfl

/-- The receiver is the first of the parameters. -/
theorem Flow.entry_eq (r : Routine) : entry r = setArguments .empty 0 r.parameters := by
  unfold entry Routine.parameters
  split
  · rfl
  · have href := receiver_isReference r
    simp [setArguments, JType.computational_of_isReference href, JType.size_of_isReference href]

theorem Flow.setArguments_stack (f : Frame) (n : Nat) (params : List JType) :
    (setArguments f n params).stack = f.stack := by
  induction params generalizing f n with
  | nil => rfl
  | cons t params ih => exact ih _ _

theorem Routine.sizeOfAll_parameters (r : Routine) :
    JType.sizeOfAll r.parameters = r.argumentsSize := by
  unfold Routine.parameters Routine.argumentsSize Signature.argumentsSize
  split
  · simp
  · simp [JType.sizeOfAll, JType.size_of_isReference (Flow.receiver_isReference r), Nat.add_comm]

theorem Activation.argumentSlots_eq (r : Routine) {args : List Value}
    (hlen : args.length = r.parameters.length) :
    argumentSlots r args = placeArguments 0 .empty args r.parameters := by
  unfold argumentSlots
  unfold Routine.parameters at hlen ⊢
  split
  · simp
  · next hstatic =>
    cases args with
    | nil => simp [hstatic] at hlen
    | cons v args =>
      simp [placeArguments, JType.size_of_isReference (Flow.receiver_isReference r)]

/-- The arguments placed below slot `n` are of the tracked types, and nothing else is tracked. -/
def PlacedBelow (M : JType → Value → Prop) (f : Frame) (locals : SlotMap Value) (n : Nat) : Prop :=
  ∀ s, f.slot s ≠ .top → 0 ≤ s ∧ s < n ∧ ∃ v, locals.get? s = some v ∧ M (f.slot s) v ∧
    ((f.slot s).size = 2 → s + 1 < n ∧ locals.get? (s + 1) = some .wide)

/-- One argument more. -/
theorem PlacedBelow.insert {M : JType → Value → Prop} {f : Frame} {locals : SlotMap Value} {n : Nat}
    (h : PlacedBelow M f locals n) {t : JType} {v : Value} (hv : M t.computational v)
    (hsize : 1 ≤ t.size) (hmax : (n : Int) < Word.max) :
    PlacedBelow M (f.setSlot n t.computational)
      (if t.size = 2 then (locals.insert n v).insert (n + 1) .wide else locals.insert n v)
      (n + t.size) := by
  intro s hs
  rw [Frame.slot_setSlot (by omega) hmax, JType.size_computational] at hs ⊢
  split at hs
  · exact absurd rfl hs
  next hnext =>
  rw [if_neg hnext]
  split at hs
  · -- the new argument, with its mark behind it if it is wide
    next hsn =>
    subst hsn
    rw [if_pos rfl]
    refine ⟨by omega, by omega, v, ?_, hv, fun hwide => ?_⟩
    · split <;> simp [show ¬ (n : Int) + 1 = n by omega]
    · rw [JType.size_computational] at hwide
      rw [if_pos hwide]
      exact ⟨by omega, by simp⟩
  next hsn =>
  rw [if_neg hsn]
  split at hs
  · exact absurd rfl hs
  next hbefore =>
  rw [if_neg hbefore]
  -- an earlier argument, whose mark lies below the new one
  obtain ⟨hlow, hlt, w, hw, hMw, hmark⟩ := h s hs
  refine ⟨hlow, by omega, w, ?_, hMw, fun hwide => ?_⟩
  · split <;> simp [hw, Ne.symm hsn, show ¬ (n : Int) + 1 = s by omega]
  · obtain ⟨hlt', hmark⟩ := hmark hwide
    refine ⟨by omega, ?_⟩
    split <;> simp [hmark, show ¬ (n : Int) = s + 1 by omega, show ¬ (n : Int) = s by omega]

/-- **Arguments of the right types, placed and tracked.** -/
theorem placeArguments_spec {M : JType → Value → Prop} {params : List JType} {args : List Value}
    (hargs : List.Forall₂ (fun t v => M t.computational v ∧ 1 ≤ t.size) params args)
    {f : Frame} {locals : SlotMap Value} {n : Nat} (h : PlacedBelow M f locals n)
    (hmax : (n + JType.sizeOfAll params : Int) ≤ Word.max) :
    ∃ locals', Activation.placeArguments n locals args params = some locals' ∧
      PlacedBelow M (Flow.setArguments f n params) locals' (n + JType.sizeOfAll params) := by
  induction hargs generalizing f locals n with
  | nil => exact ⟨locals, rfl, h⟩
  | @cons t v params args hv _ ih =>
    have hsum : JType.sizeOfAll (t :: params) = t.size + JType.sizeOfAll params := rfl
    have hsize := hv.2
    obtain ⟨locals', hplace, hbelow⟩ := ih (h.insert hv.1 hv.2 (by omega)) (by omega)
    refine ⟨locals', hplace, ?_⟩
    rw [hsum, ← Nat.add_assoc]
    exact hbelow

/-- Whether the sizes a routine declares can be set aside. -/
def Routine.Fits (r : Routine) : Prop :=
  max r.maxLocals r.argumentsSize ≤ Activation.capacity ∧ 0 ≤ Word.wrap (r.maxStack + 2) ∧
    Word.wrap (r.maxStack + 2) ≤ Activation.capacity

namespace Activation

/-- **A routine entered with arguments of the types of its parameters conforms to the frame on
entry.** -/
theorem conforms_entry {M : JType → Value → Prop} {r : Routine} {args : List Value}
    (hfits : r.Fits)
    (hargs : List.Forall₂ (fun t v => M t.computational v ∧ 1 ≤ t.size) r.parameters args)
    (wantsResult : Bool) :
    ∃ a, enter r args wantsResult = some a ∧ a.routine = r ∧ a.ip = 0 ∧ a.stack = [] ∧
      SlotsFit M (Flow.entry r) a := by
  obtain ⟨hlocals, hstack, hcells⟩ := hfits
  have hcapacity : Activation.capacity ≤ Word.max := by decide
  have hsize := r.sizeOfAll_parameters
  have hnone : PlacedBelow M .empty .empty 0 := fun s hs => absurd rfl hs
  obtain ⟨locals, hplace, hbelow⟩ := placeArguments_spec hargs hnone (by omega)
  have hlen := hargs.length_eq.symm
  refine ⟨{
      routine := r
      stack := []
      locals := locals
      localCount := (max r.maxLocals r.argumentsSize).toNat
      ip := 0
      wantsResult := wantsResult }, ?_, rfl, rfl, rfl, ?_⟩
  · -- nothing exceeds the capacity, so the routine can be entered
    have hno : (decide (capacity < max r.maxLocals r.argumentsSize) ||
        decide (Word.wrap (r.maxStack + 2) < 0) ||
        decide (capacity < Word.wrap (r.maxStack + 2))) = false := by
      simp only [Bool.or_eq_false_iff, decide_eq_false_iff_not]
      omega
    simp only [enter, hno, argumentSlots_eq r hlen, hplace]
    rfl
  · -- the slots of the frame on entry are those of the arguments
    rw [Flow.entry_eq]
    intro s hs
    obtain ⟨hlow, hlt, v, hv, hMv, hmark⟩ := hbelow s hs
    rw [hsize] at hlt hmark
    refine ⟨v, ?_, hMv, fun hwide => ?_⟩
    · rw [load?_eq_some, hv]
      dsimp only
      exact ⟨hlow, by omega, rfl⟩
    · obtain ⟨hlt', hmark⟩ := hmark hwide
      rw [load?_eq_some, hmark]
      dsimp only
      exact ⟨by omega, by omega, rfl⟩

end Activation

/-! ### Converted arguments -/

/-- The arguments of a signature are values. -/
theorem Signature.isPrimitive_or_isReference {text : String} {s : Signature}
    (h : Signature.parse text = .ok s) {t : JType} (ht : t ∈ s.args) :
    t.isPrimitive ∨ t.isReference := by
  obtain ⟨m, -, rfl⟩ := Signature.parse_eq_ok.1 h
  obtain ⟨field, -, rfl⟩ := List.mem_map.1 ht
  cases field <;> simp [JType.ofField, JType.isPrimitive, JType.isReference]

/-- A converted argument is of the type of the parameter, if what is passed for a reference is
one. -/
theorem Heap.coerce_ok {h : Heap} {t : JType} {v w : Value} (ht : t.isPrimitive ∨ t.isReference)
    (href : t.isReference → v.isReference) (hc : h.coerce t v = .ok w) :
    w.hasType t.computational ∧ 1 ≤ t.size := by
  cases t with
  | prim p =>
    cases p <;> cases v <;> simp only [coerce, JType.computational] at hc <;>
      first
      | (obtain rfl := Except.ok.inj hc; exact ⟨rfl, by decide⟩)
      | (rename_i kind _; cases kind <;> simp only at hc <;>
          first
          | (obtain rfl := Except.ok.inj hc; exact ⟨rfl, by decide⟩)
          | cases hc)
      | cases hc
  | array _ | object _ | null | uninitialized _ _ =>
    obtain rfl := Except.ok.inj hc
    exact ⟨href rfl, Nat.le_refl 1⟩
  | void | method _ | top =>
    rcases ht with ht | ht <;> cases ht

namespace Machine

theorem coerceAll_ok {h : Heap} {params : List JType} {args values : List Value}
    (hparams : ∀ t ∈ params, t.isPrimitive ∨ t.isReference)
    (hrefs : List.Forall₂ (fun t v => t.isReference → v.isReference) params args)
    (hc : coerceAll h params args = .ok values) :
    List.Forall₂ (fun t (v : Value) => v.hasType t.computational ∧ 1 ≤ t.size) params values := by
  induction hrefs generalizing values with
  | nil =>
    obtain rfl := Except.ok.inj hc
    exact .nil
  | @cons t v params args href _ ih =>
    unfold coerceAll at hc
    cases hv : h.coerce t v with
    | error e => rw [hv] at hc; cases hc
    | ok w =>
    cases hrest : coerceAll h params args with
    | error e => rw [hv, hrest] at hc; cases hc
    | ok rest =>
      rw [hv, hrest] at hc
      obtain rfl := Except.ok.inj hc
      exact .cons (h.coerce_ok (hparams t List.mem_cons_self) href hv)
        (ih (fun t ht => hparams t (List.mem_cons_of_mem _ ht)) hrest)

/-- **The arguments of a call from outside are of the types of the parameters** once they are
converted, if what is passed for a reference is one. -/
theorem prepare_ok {m : Machine} {r : Routine} {args values : List Value} (hr : r.Checked)
    (hdef : m.world.routines.lookup r.key = some r)
    (hrefs : List.Forall₂ (fun t v => t.isReference → v.isReference) r.parameters args)
    (h : m.prepare r.owner r.name r.descriptor args = .ok values) :
    List.Forall₂ (fun t (v : Value) => v.hasType t.computational ∧ 1 ≤ t.size) r.parameters
      values := by
  have hkey : qualifiedName r.owner r.name r.descriptor = r.key := rfl
  have hparams : ∀ t ∈ r.signature.args, t.isPrimitive ∨ t.isReference :=
    fun t ht => Signature.isPrimitive_or_isReference hr.signature ht
  unfold prepare at h
  simp only [hr.signature, hkey, takesReceiver, hdef] at h
  unfold Routine.parameters at hrefs ⊢
  cases hstatic : r.isStatic with
  | true =>
    simp only [hstatic, Bool.not_true, Bool.false_eq_true, if_false, if_true,
      List.nil_append] at h hrefs ⊢
    split at h
    · cases h
    split at h
    · cases h
    next rest hrest =>
    obtain rfl := Except.ok.inj h
    exact coerceAll_ok hparams hrefs hrest
  | false =>
    simp only [hstatic, Bool.not_false, Bool.false_eq_true, if_false, if_true, List.cons_append,
      List.nil_append] at h hrefs ⊢
    split at h
    · cases h
    split at h
    · cases h
    next rest hrest =>
    -- the receiver stands in front of the coerced arguments as it is
    obtain rfl := Except.ok.inj h
    cases hrefs with
    | @cons _ receiver _ args href hrefs =>
      have hself := Flow.receiver_isReference r
      have hsize := JType.size_of_isReference hself
      refine .cons ⟨?_, by omega⟩ (coerceAll_ok hparams hrefs hrest)
      rw [JType.computational_of_isReference hself]
      exact Value.hasType_of_isReference hself (href hself)

end Machine

end Outliner
