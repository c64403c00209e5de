import Outliner.Proofs.Merging
import Outliner.Tracker

/-!
# Frames that do as well

The tracker asks little of a frame. It never compares types; what an instruction does to the stack
depends on how many cells there are, on which of them form a wide value, and, for a load from an
array of references, on what the elements are. So two frames can differ a lot and still be treated
alike.

`JType.Suits` says when a tracked type does as well as another one, `StackSuits` the same for
stacks, where a wide value must stay one, and `Form.Fits` for frames, where a `Form` describes what
is expected of a frame. The expectation is kept when frames are merged (`Form.Fits.merge`), and an
expectation read off a frame is weakened when that frame absorbs others (`Frame.Absorbs.fits`).

An object awaiting its constructor counts as what it will be (`JType.settled`). That makes it
irrelevant when and where the constructor runs.
-/

namespace Outliner

namespace JType

/-! ### Types -/

/-- The type a value has once its constructor has run. -/
def settled (owner : String) : JType → JType
  | uninitialized name site => Tracker.initialized owner name site
  | t => t

def isArray : JType → Bool
  | array _ => true
  | _ => false

/-- Whether an element of the value is a reference: it is an array of references, or null. -/
def holdsReferences : JType → Bool
  | null => true
  | array component => (array component).elementType.isReference
  | _ => false

variable {owner : String} {t t' t'' g g' : JType}

/-- **A value tracked as `g` does as well as one tracked as `t`**: where elements of the latter are
known to be references, the former is the same array or not known to be one. -/
def Suits (owner : String) (t g : JType) : Prop :=
  (t.settled owner).holdsReferences → (g.settled owner).isArray → g.settled owner = t.settled owner

theorem Suits.refl (owner : String) (t : JType) : t.Suits owner t := fun _ _ => rfl

theorem suits_of_isArray (h : (g.settled owner).isArray = false) : t.Suits owner g :=
  fun _ harray => by rw [h] at harray; cases harray

theorem suits_of_holdsReferences (h : (t.settled owner).holdsReferences = false) :
    t.Suits owner g :=
  fun hheld => by rw [h] at hheld; cases hheld

theorem suits_top (owner : String) (t : JType) : t.Suits owner top := suits_of_isArray rfl

theorem suits_anyObject (owner : String) (t : JType) : t.Suits owner anyObject :=
  suits_of_isArray rfl

/-- Merging keeps what suits. -/
theorem Suits.merge (h : t.Suits owner g) (h' : t.Suits owner g') :
    t.Suits owner (g.merge .flat g') := by
  by_cases heq : g = g'
  · rw [← heq, merge_self]
    exact h
  rw [merge_flat heq]
  split
  · split
    · exact h'
    · split
      · exact h
      · exact suits_anyObject owner t
  · exact suits_top owner t

theorem ofClassName_eq (name : String) :
    (∃ component, ofClassName name = array component) ∨ ofClassName name = object name := by
  unfold ofClassName
  split
  · exact .inl ⟨_, rfl⟩
  · exact .inr rfl

/-- What was initialized is an array or an object. -/
theorem settled_uninitialized (owner name : String) (site : Int) :
    (∃ component, (uninitialized name site).settled owner = array component) ∨
      ∃ className, (uninitialized name site).settled owner = object className := by
  rcases ofClassName_eq (if site < 0 then owner else name) with ⟨component, h⟩ | h
  · exact .inl ⟨component, h⟩
  · exact .inr ⟨_, h⟩

theorem settled_of_isUninitialized (h : t.isUninitialized = false) : t.settled owner = t := by
  cases t with
  | uninitialized name site => cases h
  | _ => rfl

theorem settled_eq_top_iff : t.settled owner = top ↔ t = top := by
  cases t with
  | uninitialized name site =>
    rcases settled_uninitialized owner name site with ⟨_, h⟩ | ⟨_, h⟩ <;> simp [h]
  | _ => rfl

theorem size_settled (owner : String) (t : JType) : (t.settled owner).size = t.size := by
  cases t with
  | uninitialized name site =>
    rcases settled_uninitialized owner name site with ⟨_, h⟩ | ⟨_, h⟩ <;> rw [h] <;> rfl
  | _ => rfl

theorem settled_eq_self_of_size (owner : String) (h : t.size = 2) : t.settled owner = t := by
  cases t with
  | uninitialized name site => cases h
  | _ => rfl

@[simp] theorem settled_settled (owner : String) (t : JType) :
    (t.settled owner).settled owner = t.settled owner := by
  cases t with
  | uninitialized name site =>
    rcases settled_uninitialized owner name site with ⟨_, h⟩ | ⟨_, h⟩ <;> rw [h] <;> rfl
  | _ => rfl

theorem isMergeable_of_size (h : t.isMergeable) : t.size ≠ 2 ∧ t ≠ top := by
  cases t with
  | array _ | object _ | null => exact ⟨Nat.succ_ne_succ_iff.2 Nat.zero_ne_one, JType.noConfusion⟩
  | _ => cases h

/-- **Type `t'` expects no more than `t`**: it absorbs it, constructors apart. -/
def Eases (owner : String) (t' t : JType) : Prop :=
  (t'.settled owner).Absorbs .flat (t.settled owner)

theorem Eases.refl (owner : String) (t : JType) : t.Eases owner t := Absorbs.refl _

theorem top_eases (owner : String) (t : JType) : top.Eases owner t := top_absorbs _

theorem eases_of_settled (h : t'.settled owner = t.settled owner) : t'.Eases owner t := by
  unfold Eases
  rw [h]
  exact Absorbs.refl _

theorem Eases.trans (h : t''.Eases owner t') (h' : t'.Eases owner t) : t''.Eases owner t :=
  Absorbs.trans h h'

theorem Absorbs.eases (h : t'.Absorbs .flat t) : t'.Eases owner t := by
  have hmergeable {t : JType} (h : t.isMergeable) : t.settled owner = t := by
    cases t with
    | uninitialized name site => cases h
    | _ => rfl
  rcases absorbs_flat_iff.1 h with rfl | rfl | ⟨rfl, hm⟩ | ⟨hm, rfl⟩
  · exact Eases.refl owner t'
  · exact top_eases owner t
  · unfold Eases
    rw [hmergeable hm]
    exact h
  · unfold Eases
    rw [hmergeable hm]
    exact h

/-- What suits a type suits one that expects no more. -/
theorem Eases.suits (h : t'.Eases owner t) (hs : t.Suits owner g) : t'.Suits owner g := by
  unfold Eases at h
  intro hheld harray
  rcases absorbs_flat_iff.1 h with heq | heq | ⟨heq, -⟩ | ⟨-, hnull⟩
  · rw [heq] at hheld ⊢
    exact hs hheld harray
  · rw [heq] at hheld
    cases hheld
  · rw [heq] at hheld
    cases hheld
  · -- next to null nothing that is an array suits
    have heq := hs (by rw [hnull]; rfl) harray
    rw [heq, hnull] at harray
    cases harray

theorem Eases.eq_top (h : t'.Eases owner top) : t' = top := by
  unfold Eases at h
  rcases absorbs_flat_iff.1 h with heq | heq | ⟨-, hm⟩ | ⟨-, heq⟩
  · exact settled_eq_top_iff.1 heq
  · exact settled_eq_top_iff.1 heq
  · cases hm
  · cases heq

theorem Eases.eq_of_size (h : t'.Eases owner t) (hsize : t'.size = 2) : t = t' := by
  have hself := settled_eq_self_of_size owner hsize
  unfold Eases at h
  rw [hself] at h
  rcases absorbs_flat_iff.1 h with heq | heq | ⟨heq, -⟩ | ⟨hm, -⟩
  · have ht : t.size = 2 := by rw [← size_settled owner, ← heq, hsize]
    rw [heq, settled_eq_self_of_size owner ht]
  · rw [heq] at hsize
    cases hsize
  · rw [heq] at hsize
    cases hsize
  · exact absurd hsize (isMergeable_of_size hm).1

/-- A type that is no half of a wide value and usable was one before. -/
theorem Eases.narrow (h : t'.Eases owner t) (hsize : t'.size ≠ 2) (htop : t' ≠ top) :
    t.size ≠ 2 ∧ t ≠ top := by
  suffices hsettled : (t.settled owner).size ≠ 2 ∧ t.settled owner ≠ top by
    rwa [size_settled, ne_eq (settled owner t), settled_eq_top_iff] at hsettled
  unfold Eases at h
  rcases absorbs_flat_iff.1 h with heq | heq | ⟨-, hm⟩ | ⟨-, heq⟩
  · rw [← heq, size_settled, ne_eq (settled owner t'), settled_eq_top_iff]
    exact ⟨hsize, htop⟩
  · exact absurd (settled_eq_top_iff.1 heq) htop
  · exact isMergeable_of_size hm
  · rw [heq]
    exact isMergeable_of_size (t := null) rfl

end JType

/-! ### Stacks -/

section Stacks

variable {owner : String} {t t' g g' : JType} {under under' : Bool} {ts ts' gs gs' : List JType}

/-- A cell tracked as `g` does as well as one tracked as `t`. The first half of a wide value may
only stand under the second, which `under` tells. -/
structure CellSuits (owner : String) (under : Bool) (t g : JType) : Prop where
  wide : t.size = 2 → g = t
  narrow : t.size ≠ 2 → t ≠ .top → g.size ≠ 2
  under : g.size = 2 → under
  suits : t.Suits owner g

/-- **A stack does as well as another one**, both with the topmost cell first. -/
inductive StackSuits (owner : String) : Bool → List JType → List JType → Prop where
  | nil {under : Bool} : StackSuits owner under [] []
  | cons {under : Bool} {t g : JType} {ts gs : List JType} (cell : CellSuits owner under t g)
    (rest : StackSuits owner (decide (t = .top ∧ g = .top)) ts gs) :
    StackSuits owner under (t :: ts) (g :: gs)

theorem StackSuits.length_eq (h : StackSuits owner under ts gs) : gs.length = ts.length := by
  induction h with
  | nil => rfl
  | cons _ _ ih => rw [List.length_cons, List.length_cons, ih]

theorem CellSuits.merge (h : CellSuits owner under t g) (h' : CellSuits owner under' t g') :
    CellSuits owner (under && under') t (g.merge .flat g') where
  wide := fun hsize => by rw [h.wide hsize, h'.wide hsize, JType.merge_self]
  narrow := fun hsize htop => by
    by_cases heq : g = g'
    · rw [← heq, JType.merge_self]
      exact h.narrow hsize htop
    rw [JType.merge_flat heq]
    split
    · split
      · exact h'.narrow hsize htop
      · split
        · exact h.narrow hsize htop
        · exact Nat.succ_ne_succ_iff.2 Nat.zero_ne_one
    · exact Nat.succ_ne_succ_iff.2 Nat.zero_ne_one
  under := fun hsize => by
    -- only equal types merge into a wide one
    by_cases heq : g = g'
    · rw [← heq, JType.merge_self] at hsize
      rw [h.under hsize, h'.under (heq ▸ hsize)]
      rfl
    · exfalso
      rw [JType.merge_flat heq] at hsize
      split at hsize
      · next hm =>
        rw [Bool.and_eq_true] at hm
        split at hsize
        · exact (JType.isMergeable_of_size hm.2).1 hsize
        · split at hsize
          · exact (JType.isMergeable_of_size hm.1).1 hsize
          · cases hsize
      · cases hsize
  suits := h.suits.merge h'.suits

theorem CellSuits.under_of_imp (h : CellSuits owner under t g) (himp : under → under') :
    CellSuits owner under' t g :=
  ⟨h.wide, h.narrow, fun hsize => himp (h.under hsize), h.suits⟩

theorem StackSuits.under_of_imp (h : StackSuits owner under ts gs) (himp : under → under') :
    StackSuits owner under' ts gs := by
  cases h with
  | nil => exact .nil
  | cons cell rest => exact .cons (cell.under_of_imp himp) rest

/-- Merging keeps what suits. -/
theorem StackSuits.merge (h : StackSuits owner under ts gs) (h' : StackSuits owner under' ts gs') :
    StackSuits owner (under && under') ts (List.zipWith (JType.merge .flat) gs gs') := by
  induction h generalizing under' gs' with
  | nil =>
    cases h' with
    | nil => exact .nil
  | cons cell _ ih =>
    cases h' with
    | cons cell' rest' =>
      refine .cons (cell.merge cell') ((ih rest').under_of_imp fun hboth => ?_)
      simp only [Bool.and_eq_true, decide_eq_true_eq] at hboth ⊢
      obtain ⟨⟨htop, rfl⟩, -, rfl⟩ := hboth
      exact ⟨htop, JType.merge_self _⟩

theorem CellSuits.ease (h : CellSuits owner under t g) (he : t'.Eases owner t) :
    CellSuits owner under t' g where
  wide := fun hsize => by
    obtain rfl := he.eq_of_size hsize
    exact h.wide hsize
  narrow := fun hsize htop => by
    obtain ⟨hsize', htop'⟩ := he.narrow hsize htop
    exact h.narrow hsize' htop'
  under := h.under
  suits := he.suits h.suits

/-- What suits a stack suits one that expects no more. -/
theorem StackSuits.ease (h : StackSuits owner under ts gs)
    (he : List.Forall₂ (JType.Eases owner) ts' ts) : StackSuits owner under ts' gs := by
  induction h generalizing ts' with
  | nil =>
    cases he with
    | nil => exact .nil
  | cons cell _ ih =>
    cases he with
    | cons hhead htail =>
      refine .cons (cell.ease hhead) ((ih htail).under_of_imp fun hboth => ?_)
      simp only [decide_eq_true_eq] at hboth ⊢
      obtain ⟨rfl, htop⟩ := hboth
      exact ⟨hhead.eq_top, htop⟩

/-- A value tracked as `g` does as well as one tracked as `t`, and takes as many cells. -/
structure ValueSuits (owner : String) (t g : JType) : Prop where
  wide : t.size = 2 → g = t
  narrow : t.size ≠ 2 → g.size ≠ 2
  suits : t.Suits owner g

theorem ValueSuits.refl (owner : String) (t : JType) : ValueSuits owner t t :=
  ⟨fun _ => rfl, id, .refl owner t⟩

theorem ValueSuits.length_cellsOf (h : ValueSuits owner t g) :
    (Frame.cellsOf g).length = (Frame.cellsOf t).length := by
  unfold Frame.cellsOf
  by_cases hsize : t.size = 2
  · rw [h.wide hsize]
  · rw [if_neg hsize, if_neg (h.narrow hsize)]
    rfl

/-- A stack may stand under the second half of a wide value if it may stand alone. -/
theorem StackSuits.weaken (h : StackSuits owner false ts gs) : StackSuits owner under ts gs := by
  cases h with
  | nil => exact .nil
  | cons cell rest =>
    exact .cons ⟨cell.wide, cell.narrow, fun hsize => absurd (cell.under hsize) (by decide),
      cell.suits⟩ rest

/-- A cell that cannot be used may be put on top. -/
theorem StackSuits.push_top (h : StackSuits owner false ts gs) :
    StackSuits owner false (.top :: ts) (.top :: gs) :=
  .cons ⟨fun hsize => absurd hsize (by decide), fun _ htop => absurd rfl htop,
    fun hsize => absurd hsize (by decide), .refl owner _⟩ h.weaken

/-- Pushing values of which one does as well as the other. -/
theorem StackSuits.push (h : StackSuits owner false ts gs) (hv : ValueSuits owner t g)
    (htop : t ≠ .top) :
    StackSuits owner false (Frame.cellsOf t ++ ts) (Frame.cellsOf g ++ gs) := by
  unfold Frame.cellsOf
  by_cases hsize : t.size = 2
  · have hg := hv.wide hsize
    subst hg
    rw [if_pos hsize]
    refine .cons ⟨nofun, fun _ _ => by decide, nofun, .refl owner _⟩ (.cons ⟨fun _ => rfl,
      fun hne => absurd hsize hne, fun _ => by simp, .refl owner _⟩ ?_)
    rwa [decide_eq_false (fun hboth => htop hboth.1)]
  · rw [if_neg hsize, if_neg (hv.narrow hsize)]
    refine .cons ⟨fun h2 => absurd h2 hsize, fun _ _ => hv.narrow hsize,
      fun h2 => absurd h2 (hv.narrow hsize), hv.suits⟩ ?_
    rwa [decide_eq_false (fun hboth => htop hboth.1)]

/-- Under a usable value there is a value in its place that does as well. -/
theorem StackSuits.pop (h : StackSuits owner false (Frame.cellsOf t ++ ts) gs) (htop : t ≠ .top) :
    ∃ g gs', gs = Frame.cellsOf g ++ gs' ∧ ValueSuits owner t g ∧
      StackSuits owner false ts gs' := by
  unfold Frame.cellsOf at h
  by_cases hsize : t.size = 2
  · rw [if_pos hsize] at h
    cases h with
    | cons cell rest =>
    cases rest with
    | @cons _ _ g _ gs' cell' rest' =>
    obtain rfl := cell'.wide hsize
    have hunder := cell'.under hsize
    rw [decide_eq_true_eq] at hunder
    obtain ⟨-, rfl⟩ := hunder
    rw [decide_eq_false (fun hboth => htop hboth.1)] at rest'
    exact ⟨g, gs', by simp [Frame.cellsOf, hsize], .refl owner g, rest'⟩
  · rw [if_neg hsize] at h
    cases h with
    | @cons _ _ g _ gs' cell rest =>
    have hg := cell.narrow hsize htop
    rw [decide_eq_false (fun hboth => htop hboth.1)] at rest
    exact ⟨g, gs', by simp [Frame.cellsOf, hg],
      ⟨fun h2 => absurd h2 hsize, fun _ => hg, cell.suits⟩, rest⟩

/-- A whole value is on top of no half of another one. -/
theorem StackSuits.head_size (h : StackSuits owner false ts (g :: gs)) : g.size ≠ 2 := by
  cases h with
  | cons cell _ => exact fun hsize => absurd (cell.under hsize) Bool.false_ne_true

end Stacks

/-! ### Frames -/

/-- What is expected of a frame: a stack, and types in slots. -/
structure Form where
  stack : List JType
  /-- Slot `index` should do as well as type `t`. -/
  asks : (index : Int) → (t : JType) → Prop

/-- **A frame does as well as expected.** -/
structure Form.Fits (owner : String) (v : Form) (f : Frame) : Prop where
  stack : StackSuits owner false v.stack f.stack
  slots : ∀ index t, v.asks index t → t.Suits owner (f.slot index)

theorem Form.Fits.depth_eq {owner : String} {v : Form} {f : Frame} (h : v.Fits owner f) :
    f.depth = v.stack.length :=
  h.stack.length_eq

/-- Two frames that do as well as expected can be merged, and so does the merged one. -/
theorem Form.Fits.merge {owner : String} {v : Form} {f g : Frame} (hf : v.Fits owner f)
    (hg : v.Fits owner g) :
    ∃ m changed, f.merge .flat g = .ok (m, changed) ∧ v.Fits owner m := by
  have hdepth : f.depth = g.depth := hf.depth_eq.trans hg.depth_eq.symm
  have hmerge : ∃ m changed, f.merge .flat g = .ok (m, changed) := by
    unfold Frame.merge
    rw [if_pos hdepth]
    exact ⟨_, _, rfl⟩
  obtain ⟨m, changed, hm⟩ := hmerge
  obtain ⟨-, hstack, hslot, -⟩ := Frame.merge_eq_ok hm
  refine ⟨m, changed, hm, ?_, fun index t ht => ?_⟩
  · rw [hstack]
    exact hf.stack.merge hg.stack
  · rw [hslot]
    exact (hf.slots index t ht).merge (hg.slots index t ht)

/-- What is expected where only the cells above a floor and some slots count, and each slot has its
own place. -/
def Frame.form (f : Frame) (owner : String) (place : Int → Int) (touched : Int → Prop)
    (floor : Nat) : Form where
  stack := f.stack.take (f.depth - floor)
  asks index t := ∃ slot, touched slot ∧ place slot = index ∧ t.Eases owner (f.slot slot)

section Form

variable {owner : String} {place : Int → Int} {touched : Int → Prop} {floor : Nat} {f f' g : Frame}

theorem Frame.fits_form_iff :
    (f.form owner place touched floor).Fits owner g ↔
      StackSuits owner false (f.stack.take (f.depth - floor)) g.stack ∧
        ∀ slot, touched slot → (f.slot slot).Suits owner (g.slot (place slot)) := by
  constructor
  · exact fun h => ⟨h.stack, fun slot hslot => h.slots _ _ ⟨slot, hslot, rfl, .refl owner _⟩⟩
  · rintro ⟨hstack, hslots⟩
    refine ⟨hstack, ?_⟩
    rintro index t ⟨slot, hslot, rfl, he⟩
    exact he.suits (hslots slot hslot)

/-- What does as well as a frame does as well as one that absorbs it. -/
theorem Frame.Absorbs.fits (h : f'.Absorbs .flat f)
    (hg : (f.form owner place touched floor).Fits owner g) :
    (f'.form owner place touched floor).Fits owner g := by
  obtain ⟨hstack, hslots⟩ := Frame.fits_form_iff.1 hg
  refine Frame.fits_form_iff.2 ⟨hstack.ease ?_, fun slot hslot => ?_⟩
  · rw [h.depth_eq]
    exact List.forall₂_take _ ((Frame.absorbs_iff.1 h).1.imp fun _ _ => JType.Absorbs.eases)
  · exact (h.slot slot).eases.suits (hslots slot hslot)

end Form

end Outliner
